import LuckOS.Unwinding

/-!
# The code that enters and leaves the kernel

The stubs of `interrupt/idt.S`, `syscall/syscall_wrapper.S` and `task/schedule.S`, which save and
restore contexts. The linker gives every instruction an address.
-/

namespace LuckOS.TrapCode

open ByteMemory X86

def selectorKCode : Selector := 0x08
def selectorKData : Selector := 0x10
def selectorUCode : Selector := 0x23
def selectorUData : Selector := 0x2B

/-- The labels to which the stubs jump, and the functions in C that they call. -/
structure Labels where
  isrCommonStub : Dword
  interruptExit : Dword
  isrHandler : Dword
  schedule : Dword
  syscallHandler : Dword

/-- The pieces of code that are contiguous. `isr_common_stub` goes on with `interrupt_exit`,
`syscall_entry` with `syscall_exit`, and `context_switch` with `resume_thread`. -/
inductive Stub where
  | isr (num : Fin 48)
  | isrCommonStub
  | syscallEntry
  | syscallForkExit
  | contextSwitch
  | switchToUserMode
  deriving DecidableEq

/-- The exceptions for which the processor pushes an error code, defined by `DEFINE_ISR_ERRCODE`. -/
def hasErrorCode (num : Fin 48) : Bool := num = 8 || (10 ≤ num && num ≤ 14)

def isr (l : Labels) (num : Fin 48) : List Instr :=
  if hasErrorCode num then [.cli, .pushImm (BitVec.ofNat 32 num), .jmp l.isrCommonStub]
  else [.cli, .pushImm 0, .pushImm (BitVec.ofNat 32 num), .jmp l.isrCommonStub]

/-- `mov ds, r` and the same for `es`, `fs` and `gs`. -/
def loadSegments (r : Reg) : List Instr :=
  [.movToSeg .ds r, .movToSeg .es r, .movToSeg .fs r, .movToSeg .gs r]

def isrCommonStub (l : Labels) : List Instr :=
  [.pusha, .movFromDs .eax, .push .eax,
    .movLow .eax selectorKData] ++ loadSegments .eax ++ [.call l.isrHandler]

def interruptExit (l : Labels) : List Instr :=
  [.call l.schedule, .pop .eax] ++ loadSegments .eax ++ [.popa, .add .esp 8, .sti, .iret]

def syscallEntry (l : Labels) : List Instr :=
  [.pushImm 0, .pushImm 0, .push .eax, .push .ecx, .push .edx, .push .ebx, .push .esp,
    .push .ebp, .push .esi,
    .push .edi, .movFromDs .ecx, .push .ecx, .movLow .ecx selectorKData] ++ loadSegments .ecx ++
  [.sti, .call l.syscallHandler]

def syscallExit : List Instr :=
  [.pop .ecx] ++ loadSegments .ecx ++
  [.pop .edi, .pop .esi, .pop .ebp, .pop .esp, .pop .ebx, .pop .edx, .pop .ecx, .add .esp 4,
    .add .esp 8, .iret]

def syscallForkExit : List Instr :=
  [.add .esp 8, .pop .ecx] ++ loadSegments .ecx ++
  [.pop .edi, .pop .esi, .pop .ebp, .add .esp 4, .pop .ebx, .pop .edx, .pop .ecx, .movImm .eax 0,
    .add .esp 4,
    .add .esp 8, .iret]

def contextSwitch : List Instr :=
  [.push .eax, .push .ecx, .push .edx, .push .ebx, .push .ebp, .push .esi, .push .edi,
    .movLoad .eax .esp 32,
    .movStore .eax .esp, .movLoad .eax .esp 36, .movLoad .esp .eax 0]

def resumeThread : List Instr :=
  [.pop .edi, .pop .esi, .pop .ebp, .pop .ebx, .pop .edx, .pop .ecx, .pop .eax, .sti, .ret]

def switchToUserMode (l : Labels) : List Instr := [.add .esp 8, .jmp l.interruptExit]

def instrs (l : Labels) : Stub → List Instr
  | .isr num => isr l num
  | .isrCommonStub => isrCommonStub l ++ interruptExit l
  | .syscallEntry => syscallEntry l ++ syscallExit
  | .syscallForkExit => syscallForkExit
  | .contextSwitch => contextSwitch ++ resumeThread
  | .switchToUserMode => switchToUserMode l

/-- The addresses of the instructions, the labels among them, and the functions in C elsewhere. -/
structure Layout extends Labels where
  addr : Stub → Nat → Dword
  loc : Dword → Option (Stub × Nat)
  loc_addr : ∀ stub i, i < (instrs toLabels stub).length → loc (addr stub i) = some (stub, i)
  kernelThread : Dword
  isrCommonStub_eq : isrCommonStub = addr .isrCommonStub 0
  interruptExit_eq : interruptExit = addr .isrCommonStub 9
  loc_isrHandler : loc isrHandler = none
  loc_schedule : loc schedule = none
  loc_syscallHandler : loc syscallHandler = none
  loc_kernelThread : loc kernelThread = none
  isrHandler_ne : isrHandler ≠ schedule
  syscallHandler_ne : syscallHandler ≠ schedule

/-- The stubs as code. -/
def Layout.code (L : Layout) : Code := fun w =>
  (L.loc w).bind fun p => (instrs L.toLabels p.1)[p.2]?.map fun i => (i, L.addr p.1 (p.2 + 1))

/-! ## The arguments of the handlers -/

/-- `struct isr_params`. -/
@[ext] structure IsrParams where
  ds : Dword
  edi : Dword
  esi : Dword
  ebp : Dword
  esp : Dword
  ebx : Dword
  edx : Dword
  ecx : Dword
  eax : Dword
  intNum : Dword
  errCode : Dword
  eip : Dword
  cs : Dword
  eflags : Dword
  userEsp : Dword
  userSs : Dword
  deriving DecidableEq

/-- The structure at an address. -/
def isrParams (m : Memory) (a : Nat) : IsrParams where
  ds := load m a
  edi := load m (a + 4)
  esi := load m (a + 8)
  ebp := load m (a + 12)
  esp := load m (a + 16)
  ebx := load m (a + 20)
  edx := load m (a + 24)
  ecx := load m (a + 28)
  eax := load m (a + 32)
  intNum := load m (a + 36)
  errCode := load m (a + 40)
  eip := load m (a + 44)
  cs := load m (a + 48)
  eflags := load m (a + 52)
  userEsp := load m (a + 56)
  userSs := load m (a + 60)

/-- The entry of the interrupt descriptor table through which an interrupt goes. -/
inductive Vector where
  | isr (num : Fin 48)
  | syscall
  deriving DecidableEq

namespace Vector

def stub : Vector → Stub
  | .isr num => .isr num
  | .syscall => .syscallEntry

def hasErrorCode : Vector → Bool
  | .isr num => TrapCode.hasErrorCode num
  | .syscall => false

/-- The number which the entry code pushes. -/
def number : Vector → Dword
  | .isr num => BitVec.ofNat 32 num
  | .syscall => 0

end Vector

/-- The gates that `init_idt` sets, with `ss0` and `esp0` of the task state segment. -/
def Layout.gate (L : Layout) (v : Vector) (esp0 : Dword) : Gate where
  entry := L.addr v.stub 0
  cs := selectorKCode
  ss0 := selectorKData
  esp0 := esp0

/-! ## Code at its addresses -/

variable {L : Layout} {stub : Stub} {w : Dword} {i : Instr} {k : Nat} {is js ks : List Instr}

theorem Layout.code_addr (h : (instrs L.toLabels stub)[k]? = some i) :
    L.code (L.addr stub k) = some (i, L.addr stub (k + 1)) := by
  rw [Layout.code, L.loc_addr stub k (List.getElem?_eq_some_iff.mp h).1]
  simp [h]

/-- A part of the code of a stub is a block. -/
theorem Layout.block (h : instrs L.toLabels stub = js ++ (is ++ ks)) :
    CodeAt L.code (L.addr stub js.length) is (L.addr stub (js.length + is.length)) := by
  induction is generalizing js with
  | nil => exact .nil _
  | cons i is ih =>
    have hcode : L.code (L.addr stub js.length) = some (i, L.addr stub (js.length + 1)) :=
      L.code_addr (by simp [h])
    have hrest : instrs L.toLabels stub = (js ++ [i]) ++ (is ++ ks) := by simp [h]
    have htail := ih hrest
    rw [List.length_append, List.length_singleton] at htail
    rw [List.length_cons, Nat.add_comm is.length 1, ← Nat.add_assoc]
    exact .cons hcode htail

theorem Layout.code_eq_none (h : L.loc w = none) :
    L.code w = none := by rw [Layout.code, h, Option.bind_none]

end LuckOS.TrapCode
