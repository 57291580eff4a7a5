import LuckOS.TrapMachine

/-!
# Threads with private contexts

The meaning of interrupts, system calls and context switches, without stacks: every thread has the
list of the contexts which it has left through a gate, the innermost first. A gate adds one, and a
return from the kernel takes the innermost one away and goes on from exactly there.
-/

namespace LuckOS.ThreadContexts

open ByteMemory X86 TrapCode TrapMachine

inductive Origin where
  | trap (v : Vector) (err : Option Dword)
  | fresh
  | fork
  deriving DecidableEq

/-- A context that has been left, with the memory at that time, and what the last function that was called
since has returned. -/
structure Frame where
  origin : Origin
  cpu : Cpu
  mem : Memory
  result : Option Dword

/-- The context in which the thread goes on: the one that was left, with the value of a system call in `eax`. -/
def Frame.resumed (f : Frame) : Option Cpu :=
  match f.origin with
  | .trap (.isr _) _ => some f.cpu
  | .trap .syscall _ => f.result.map fun v => { f.cpu with eax := v }
  | .fresh => some f.cpu
  | .fork => some { f.cpu with eax := 0 }

/-- The arguments of a handler describe the context. -/
structure Holds (p : IsrParams) (f : Frame) : Prop where
  ds : p.ds.setWidth 16 = f.cpu.ds
  edi : p.edi = f.cpu.edi
  esi : p.esi = f.cpu.esi
  ebp : p.ebp = f.cpu.ebp
  ebx : p.ebx = f.cpu.ebx
  edx : p.edx = f.cpu.edx
  ecx : p.ecx = f.cpu.ecx
  eax : p.eax = f.cpu.eax
  number : ∀ v err, f.origin = .trap v err → p.intNum = v.number ∧ p.errCode = err.getD 0
  eip : p.eip = f.cpu.eip
  cs : p.cs.setWidth 16 = f.cpu.cs
  eflags : p.eflags = f.cpu.eflags
  user : f.cpu.user = true → p.userEsp = f.cpu.esp ∧ p.userSs.setWidth 16 = f.cpu.ss

/-- A thread that has left the processor by a call of `context_switch` is parked in the context to which the call
returns. -/
structure Contexts where
  crt : Nat
  top : Nat → Nat
  frames : Nat → List Frame
  parked : Nat → Option (Cpu × Memory)

def Contexts.setFrames (a : Contexts) (fs : List Frame) : Contexts :=
  { a with frames := Function.update a.frames a.crt fs }

def Contexts.start (a : Contexts) (t top : Nat) (fs : List Frame) (x : Cpu) (m : Memory) : Contexts :=
  { a with
    top := Function.update a.top t top
    frames := Function.update a.frames t fs
    parked := Function.update a.parked t (some (x, m)) }

/-- A kernel thread starts in `kernel_thread`, whose argument lies above an unused return address. -/
def kernelStart (L : Layout) (top : Nat) : Cpu where
  eax := 0
  ecx := 0
  edx := 0
  ebx := 0
  esp := BitVec.ofNat 32 (top - 72)
  ebp := 0
  esi := 0
  edi := 0
  eip := L.kernelThread
  eflags := 0
  cs := selectorKCode
  ds := selectorKData
  ss := selectorKData
  shadow := false

/-- A user thread starts in its function, with its own stack. -/
def userStart (function userEsp : Dword) : Cpu where
  eax := 0
  ecx := 0
  edx := 0
  ebx := 0
  esp := userEsp
  ebp := 0
  esi := 0
  edi := 0
  eip := function
  eflags := initialFlags
  cs := selectorUCode
  ds := selectorUData
  ss := selectorUData
  shadow := false

/-- A context switch returns with the flags of the other thread, but with interrupts enabled. All other
registers, and the stack from the stack pointer on, are as they were at the call. -/
structure Returns (a : Contexts) (p : Cpu) (m₀ : Memory) (x : Cpu) (m : Memory) : Prop where
  context : x = { p with eflags := x.eflags }
  enabled : x.iflag = true
  stack : SameOn m₀ m p.esp.toNat (a.top a.crt)

inductive CStep (L : Layout) : Contexts → Event → Contexts → Prop
  | silent (a : Contexts) : CStep L a .silent a
  | trap (a : Contexts) (v : Vector) (err : Option Dword) (x : Cpu) (m : Memory)
      (huser : x.user = true → a.frames a.crt = []) :
      CStep L a (.trap v err x m) (a.setFrames (⟨.trap v err, x, m, none⟩ :: a.frames a.crt))
  | enter (a : Contexts) (p : IsrParams) (f : Frame) (fs : List Frame)
    (hframes : a.frames a.crt = f :: fs)
      (hholds : Holds p f) : CStep L a (.enter p selectorKData) a
  | ret (a : Contexts) (v : Dword) (f : Frame) (fs : List Frame) (hframes : a.frames a.crt = f :: fs) :
      CStep L a (.ret v) (a.setFrames ({ f with result := some v } :: fs))
  | resume (a : Contexts) (x : Cpu) (m : Memory) (f : Frame) (fs : List Frame)
    (hframes : a.frames a.crt = f :: fs)
      (hresumed : f.resumed = some x) (hstack : x.user = false →
        SameOn f.mem m x.esp.toNat (a.top a.crt)) :
      CStep L a (.resume x m) (a.setFrames fs)
  | switch (a : Contexts) (next : Nat) (x : Cpu) (m : Memory) :
      CStep L a (.switch next x m) { a with
        parked := Function.update a.parked a.crt (some (x, m)), crt := next }
  | switched (a : Contexts) (p x : Cpu) (m₀ m : Memory) (hparked : a.parked a.crt = some (p, m₀))
      (hreturns : Returns a p m₀ x m) :
      CStep L a (.switched x m) { a with parked := Function.update a.parked a.crt none }
  | startKernel (a : Contexts) (t top : Nat) (function : Dword) (m : Memory)
    (hfunction : load m (top - 68) = function) :
      CStep L a (.startKernel t top function m) (a.start t top [] (kernelStart L top) m)
  -- on its first switch the new thread comes to code that leaves the kernel
  | startUser (a : Contexts) (t top : Nat) (function userEsp : Dword) (p : Cpu) (m : Memory) :
      CStep L a (.startUser t top function userEsp m)
        (a.start t top [⟨.fresh, userStart function userEsp, m, none⟩] p m)
  | fork (a : Contexts) (t top : Nat) (f : Frame) (p : Cpu) (m : Memory)
      (hframes : (a.frames a.crt).getLast? = some f) (huser : f.cpu.user = true) :
      CStep L a (.fork t top m) (a.start t top [⟨.fork, f.cpu, m, none⟩] p m)
  | destroy (a : Contexts) (t : Nat) : CStep L a (.destroy t) a

end LuckOS.ThreadContexts
