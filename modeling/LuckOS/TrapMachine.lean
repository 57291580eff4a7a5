import LuckOS.Runs
import LuckOS.TrapCode

/-!
# Threads on one processor

The machine executes the stubs instruction by instruction. Compiled C code is not modelled by its
instructions: it may do whatever the calling convention allows, it may be interrupted when it has
not disabled the interrupts, it returns to the stub that called it, and it switches to another
thread, starts one and destroys one. User code may do anything with the registers.

Two things are excluded. The gates admit an `int` with the number of an exception that has an error
code; it would push none, and no running code does it here. The calling convention lets a function
write to its argument of type `isr_params_t`, which is the saved context; C code does not do so here.
-/

namespace LuckOS.TrapMachine

open ByteMemory X86 TrapCode

/-! ## The stack of a new thread -/

def kernelStackSize : Nat := 8192

/-- `sizeof(interrupt_stack_t)`. -/
def interruptStackSize : Nat := 64

/-- `sizeof(switch_stack_t)`. -/
def switchStackSize : Nat := 40

def memset (m : Memory) (a : Nat) (v : UInt8) (n : Nat) : Memory :=
  fun x => if a ≤ x ∧ x < a + n then v else m x

def memcpy (m from' : Memory) (dst src n : Nat) : Memory := fun x =>
  if dst ≤ x ∧ x < dst + n then from' (src + (x - dst)) else m x

/-- `thread->kernel_esp` of a new thread with this kernel stack. -/
def initialEsp (kernelStack : Nat) : Nat :=
  kernelStack + kernelStackSize - (interruptStackSize + switchStackSize)

/-- Store words one after the other. -/
def storeWords (m : Memory) : Nat → List Dword → Memory
  | _, [] => m
  | a, w :: ws => storeWords (store m a w) (a + 4) ws

/-- `EFLAGS_IOPL_0 | EFLAGS_MBS | EFLAGS_IF_1`. -/
def initialFlags : Dword := 0x202

/-- The part of `init_thread` that builds the kernel stack of the thread `t`. -/
def initThread (L : Layout) (m : Memory) (t kernelStack : Nat) (function : Dword)
    (user : Bool) : Memory :=
  let m := memset m kernelStack 0 kernelStackSize
  let kernelEsp := initialEsp kernelStack
  let m := store m t (BitVec.ofNat 32 kernelEsp)
  -- edi, esi, ebp, ebx, edx, ecx, eax and thread_entry_eip
  let m := storeWords m kernelEsp [0, 0, 0, 0, 0, 0, 0, L.kernelThread]
  let m := store m (kernelEsp + 36) function
  if user then
    let m := store m (kernelEsp + 28) (L.addr .switchToUserMode 0)
    let interruptStack := kernelEsp + switchStackSize
    -- ds, edi, esi, ebp, esp, ebx, edx, ecx and eax
    let m := storeWords m interruptStack [selectorUData.setWidth 32, 0, 0, 0, 0, 0, 0, 0, 0]
    -- eip, cs and eflags
    let m := storeWords m (interruptStack + 44) [function, selectorUCode.setWidth 32, initialFlags]
    store m (interruptStack + 60) (selectorUData.setWidth 32)
  else m

/-- The last step of `prepare_user_stack`: `interrupt_stack->user_esp = stack_top`. -/
def setUserEsp (m : Memory) (kernelStack : Nat) (stackTop : Dword) : Memory :=
  store m (initialEsp kernelStack + switchStackSize + 56) stackTop

/-- The part of `fork_crt_thread` that builds the kernel stack of the thread `t`. The stack of the current
thread, from `crtStack` on, is copied as it was found in `old`. -/
def forkCrtThread (L : Layout) (m old : Memory) (crtStack t kernelStack : Nat) : Memory :=
  let m := memcpy m old kernelStack crtStack kernelStackSize
  let kernelEsp := initialEsp kernelStack
  let m := store m t (BitVec.ofNat 32 kernelEsp)
  store m (kernelEsp + 28) (L.addr .syscallForkExit 0)

/-! ## States -/

/-- `live` are the control blocks of the threads that may run, whose word `kernel_esp` lies in memory.
`calls` are, for each thread, the places of the return addresses to which its calls from a stub return. -/
structure Machine extends State where
  esp0 : Dword
  crt : Nat
  live : List Nat
  kernelStack : Nat → Nat
  calls : Nat → List Nat

namespace Machine

def top (s : Machine) (t : Nat) : Nat := s.kernelStack t + kernelStackSize

/-- Compiled C code of the kernel is running. -/
def InC (L : Layout) (s : Machine) : Prop := s.cpu.user = false ∧ L.loc s.cpu.eip = none

/-- The functions that are running lie below this address. A thread that has not been called from a stub
has been started with the argument of `kernel_thread`, below the unused `interrupt_stack_t`. -/
def bound (s : Machine) : Nat :=
  match s.calls s.crt with
  | [] => s.top s.crt - interruptStackSize - 8
  | slot :: _ => slot

/-- What compiled C code may write to: its own part of the stack, and all that belongs to no thread. -/
def Writable (s : Machine) (a : Nat) : Prop :=
  (s.kernelStack s.crt ≤ a ∧ a < s.bound) ∨
    ∀ t ∈ s.live, ¬(s.kernelStack t ≤ a ∧ a < s.top t) ∧ ¬(t ≤ a ∧ a < t + 4)

/-- The effect of compiled C code on the registers and on memory. Arguments on the stack are not written to. -/
structure CEffect (L : Layout) (s : Machine) (x : Cpu) (m : Memory) : Prop where
  eip : L.loc x.eip = none
  cs : x.cs = s.cpu.cs
  ds : x.ds = s.cpu.ds
  ss : x.ss = s.cpu.ss
  shadow : x.shadow = false
  low : s.kernelStack s.crt ≤ x.esp.toNat
  high : x.esp.toNat ≤ s.bound
  memory : ∀ a, ¬s.Writable a → m a = s.mem a

/-- A control block and a stack which the heap has given out for a new thread. -/
structure Fresh (s : Machine) (t kernelStack : Nat) : Prop where
  wordEnd : t + 4 ≤ 2 ^ 32
  stackEnd : kernelStack + kernelStackSize < 2 ^ 32
  own : t + 4 ≤ kernelStack ∨ kernelStack + kernelStackSize ≤ t
  apart : ∀ u ∈ s.live, s.top u ≤ kernelStack ∨ kernelStack + kernelStackSize ≤ s.kernelStack u
  stackWord : ∀ u ∈ s.live, u + 4 ≤ kernelStack ∨ kernelStack + kernelStackSize ≤ u
  wordStack : ∀ u ∈ s.live, t + 4 ≤ s.kernelStack u ∨ s.top u ≤ t
  words : ∀ u ∈ s.live, t + 4 ≤ u ∨ u + 4 ≤ t

def start (s : Machine) (t kernelStack : Nat) (m : Memory) : Machine :=
  { s with
    mem := m
    live := t :: s.live
    kernelStack := Function.update s.kernelStack t kernelStack
    calls := Function.update s.calls t [] }

/-- The state in which a call of `context_switch` has been made at the end of `do_context_switch`:
`crt_thread_node` and `esp0` are those of the next thread, and the two arguments and the return address `ra` are on the
stack. -/
def callContextSwitch (L : Layout) (s : Machine) (next : Nat) (ra : Dword) : Machine :=
  let st := ((s.toState.push (BitVec.ofNat 32 next)).push (BitVec.ofNat 32 s.crt)).push ra
  { s with
    cpu := { st.cpu with eip := L.addr .contextSwitch 0 }
    mem := st.mem
    esp0 := BitVec.ofNat 32 (s.top next)
    crt := next }

/-- The stack holds what is left when the called function returns. -/
def returned (s : Machine) (slot : Nat) : Cpu :=
  { s.cpu with eip := load s.mem slot, esp := BitVec.ofNat 32 (slot + 4) }

end Machine

/-- The registers and the instruction pointer which `resume_thread` finds at the address `k`. -/
def switchStack (m : Memory) (k : Nat) : Cpu where
  edi := load m k
  esi := load m (k + 4)
  ebp := load m (k + 8)
  ebx := load m (k + 12)
  edx := load m (k + 16)
  ecx := load m (k + 20)
  eax := load m (k + 24)
  eip := load m (k + 28)
  esp := BitVec.ofNat 32 (k + 32)
  eflags := 0
  cs := selectorKCode
  ds := selectorKData
  ss := selectorKData
  shadow := false

/-! ## Steps -/

/-- What an observer of the processor sees. -/
inductive Event where
  | silent
  /-- The context `x` is left through the gate of `v`. -/
  | trap (v : Vector) (err : Option Dword) (x : Cpu) (m : Memory)
  /-- A handler in C is called with the arguments `params`. -/
  | enter (params : IsrParams) (ds : Selector)
  /-- A function called from a stub returns with the value `eax`. -/
  | ret (eax : Dword)
  /-- An `iret` has loaded the context `x`. -/
  | resume (x : Cpu) (m : Memory)
  /-- `context_switch` is called, and shall return to the context `x`. -/
  | switch (next : Nat) (x : Cpu) (m : Memory)
  /-- `context_switch` has returned to the context `x` of another thread. -/
  | switched (x : Cpu) (m : Memory)
  | startKernel (t top : Nat) (function : Dword) (m : Memory)
  | startUser (t top : Nat) (function userEsp : Dword) (m : Memory)
  | fork (t top : Nat) (m : Memory)
  | destroy (t : Nat)

/-- What is seen of an instruction of a stub, which leads from `s` to `s'`. -/
def observe (L : Layout) (s s' : State) : Instr → Event
  | .call target => if target = L.schedule then .silent
  else .enter (isrParams s.mem s.cpu.esp.toNat) s'.cpu.ds
  | .ret => .switched s'.cpu s'.mem
  | .iret => .resume s'.cpu s'.mem
  | _ => .silent

def calling (s' : State) : Instr → List Nat → List Nat
  | .call _, slots => s'.cpu.esp.toNat :: slots
  | _, slots => slots

/-- The next instruction of a stub. -/
def stubStep (L : Layout) (s : Machine) : Option (Event × Machine) :=
  if s.cpu.user then none
  else (fetch L.code s.toState).map fun p =>
    (observe L s.toState p.2 p.1,
      { s with toState := p.2, calls := Function.update s.calls s.crt (calling p.2 p.1 (s.calls s.crt)) })

/-- An external interrupt may arrive, or the running code, which is no stub, causes an exception or
performs an `int`. -/
def TrapPossible (L : Layout) (s : Machine) (v : Vector) : Prop :=
  s.cpu.shadow = false ∧
    ((s.cpu.iflag = true ∧ ∃ num, v = .isr num ∧ 32 ≤ num.val) ∨ s.cpu.user = true ∨
      L.loc s.cpu.eip = none)

inductive Step (L : Layout) : Machine → Event → Machine → Prop
  | user (s : Machine) (x : Cpu) (huser : s.cpu.user = true) (hcs : x.cs = s.cpu.cs)
      (hiflag : x.iflag = s.cpu.iflag) (hshadow : x.shadow = false) :
      Step L s .silent { s with cpu := x }
  | stub (s s' : Machine) (e : Event) (h : stubStep L s = some (e, s')) : Step L s e s'
  | trap (s : Machine) (v : Vector) (err : Option Dword) (h : TrapPossible L s v)
    (herr : err.isSome = v.hasErrorCode) :
      Step L s (.trap v err s.cpu s.mem) { s with toState := interrupt (L.gate v s.esp0) err s.toState }
  | kernel (s : Machine) (x : Cpu) (m : Memory) (hC : s.InC L) (h : s.CEffect L x m) :
      Step L s .silent { s with cpu := x, mem := m }
  | ret (s : Machine) (slot : Nat) (slots : List Nat) (hC : s.InC L) (hcalls : s.calls s.crt =
    slot :: slots)
      (hesp : s.cpu.esp.toNat = slot) :
      Step L s (.ret s.cpu.eax)
        { s with cpu := s.returned slot, calls := Function.update s.calls s.crt slots }
  | switch (s : Machine) (next : Nat) (ra : Dword) (hC : s.InC L) (hoff : s.cpu.iflag =
    false) (hnext : next ∈ s.live)
      (hra : L.loc ra = none) :
      Step L s (.switch next { s.cpu with
        eip := ra, esp := s.cpu.esp - 8 } (s.callContextSwitch L next ra).mem)
        (s.callContextSwitch L next ra)
  | startKernel (s : Machine) (t kernelStack : Nat) (function : Dword) (hC : s.InC L)
    (hfresh : s.Fresh t kernelStack) :
      Step L s
        (.startKernel t (kernelStack + kernelStackSize) function
          (initThread L s.mem t kernelStack function false))
        (s.start t kernelStack (initThread L s.mem t kernelStack function false))
  | startUser (s : Machine) (t kernelStack : Nat) (function userEsp : Dword) (hC : s.InC L)
      (hfresh : s.Fresh t kernelStack) :
      Step L s
        (.startUser t (kernelStack + kernelStackSize) function userEsp
          (setUserEsp (initThread L s.mem t kernelStack function true) kernelStack userEsp))
        (s.start t kernelStack
          (setUserEsp (initThread L s.mem t kernelStack function true) kernelStack userEsp))
  -- the outermost call of the current thread has been made on the way in from user mode; while its stack
  -- is copied, only what lies below the saved context may change
  | fork (s : Machine) (t kernelStack : Nat) (old : Memory) (hC : s.InC L)
    (hfresh : s.Fresh t kernelStack)
      (hcall : (s.calls s.crt).getLast? = some (s.top s.crt - interruptStackSize - 4))
      (hold : SameOn s.mem old (s.top s.crt - interruptStackSize) (s.top s.crt)) :
      Step L s
        (.fork t (kernelStack + kernelStackSize)
          (forkCrtThread L s.mem old (s.kernelStack s.crt) t kernelStack))
        (s.start t kernelStack (forkCrtThread L s.mem old (s.kernelStack s.crt) t kernelStack))
  | destroy (s : Machine) (t : Nat) (hC : s.InC L) (ht : t ≠ s.crt) :
      Step L s (.destroy t) { s with live := s.live.erase t }

/-- The kernel stack of the current thread has room for a context and the calls of a stub: no thread
overflows its stack. -/
def Room (s : Machine) (e : Event) : Prop :=
  match e with
  | .trap _ _ x _ => x.user = false → s.kernelStack s.crt + 72 ≤ x.esp.toNat
  | .switch _ _ _ => s.kernelStack s.crt + 72 ≤ s.cpu.esp.toNat
  | _ => True

end LuckOS.TrapMachine
