import LuckOS.ProcessFrames

/-!
# System calls that store to shared pages

After a fork the pages of both processes are present, not writable and mapped to the
same frames. A store of the kernel does not fault on them, since CR0.WP is clear, and
goes to the shared frame.
-/

namespace LuckOS.Paging

open Outcome

variable {s : Paging} {d : Nat}

/-- `wait(0, &status)` with the status word at 4 MB and the exit code 1. -/
def sampleWait : UserCall := ⟨.wait 0x400000 1, by decide⟩

end LuckOS.Paging
