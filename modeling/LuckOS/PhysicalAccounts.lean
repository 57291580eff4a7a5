import LuckOS.PhysicalRuns

/-!
# The frames of `clone_crt_page_dir` in physical memory

A copy of a directory names the frames that the current one names. The frames that it takes are counted, and no frame
in use loses its last entry, as long as the frames under the two lent pages are named elsewhere and the new frames lie
below the tables of the kernel.
-/

namespace LuckOS

open ByteMemory PageWalk BootLoader FrameContents Outcome Runs CopyOnWrite
open Paging (Pte PageDir CloneHeap IsKernelPage isUserPage isUserTable readOnly)

namespace PhysicalPaging

/-- A frame is named by a present entry of a directory or of a page table, where the entries of the pages in `except`
do not count. -/
def Names (s : PhysicalPaging) (except : Nat → Prop) (f : Nat) : Prop :=
  (∃ d i, d < s.dirsNum ∧ i < 1024 ∧ (s.pdeIn d i).present = true ∧ (s.pdeIn d i).frame = f) ∨
  ∃ d p, d < s.dirsNum ∧ p < 2 ^ 20 ∧ ¬ except p ∧ (s.pteIn d p).present = true ∧ (s.pteIn d p).frame = f

/-- The frame of a page, and whether it is writable. -/
def ref (s : PhysicalPaging) (d p : Nat) : Option (Ref Nat) :=
  if (s.pteIn d p).present then some ⟨(s.pteIn d p).frame, (s.pteIn d p).rw⟩ else none

variable {M N : PhysicalPaging} {s t : Paging} {heap : LentHeap} {except : Nat → Prop} {d f g i p : Nat}

namespace Represents

/-! ## Entries in memory and in the state -/

theorem ref_eq (h : Represents M s) (hd : d < s.dirsNum) (hp : isUserPage p) : M.ref d p = s.refs (d, p) := by
  rw [ref, h.simulates.pteIn_user hd hp, Paging.refs, if_pos hd, Paging.PageDir.ref]
  by_cases htable : ((s.dirs d).pde (p / 1024)).present = true
  · rw [if_pos htable]
    exact if_congr (by rw [and_iff_right hp, and_iff_right htable]) rfl rfl
  · rw [if_neg htable, if_neg (by exact Bool.false_ne_true), if_neg fun hall => htable hall.2.1]

end Represents

end PhysicalPaging

end LuckOS
