import LuckOS.TrapStart

/-!
# The machine keeps the contexts of the threads apart

Every run of the machine without an overflow of a kernel stack is a run of threads with private
contexts. A user program sees less: it is left, and goes on with the same registers, but for the
value of a system call.
-/

namespace LuckOS.TrapRefinement

open ByteMemory X86 TrapCode TrapMachine ThreadContexts TrapInvariant TrapEntry TrapExit TrapSwitch TrapStart Runs

variable {L : Layout} {s s' : Machine} {a b c : Contexts} {e : Event} {es : List Event}

/-! ## Refinement -/

theorem stable_step (hs : Stable L s c) (hstep : Guarded Room (Step L) s e s') :
    ∃ b, CStep L c e b ∧ Agree L s' b := by
  obtain ⟨hroom, hstep⟩ := hstep
  cases hstep with
  | user x hu hcs hiflag hshadow => exact ⟨c, .silent c, agree_user hs hu hcs hshadow⟩
  | stub _ _ h => exact agree_stub hs h
  | trap v err h herr => exact agree_trap hs hroom h herr
  | kernel x m hC h => exact ⟨c, .silent c, agree_kernel hs hC h⟩
  | ret slot slots hC hcalls hesp => exact agree_ret hs hC hcalls
  | switch next ra hC hoff hnext hra => exact agree_switch hs hC hoff hnext hra hroom
  | startKernel t stack function hC hfresh => exact agree_startKernel hs hC hfresh
  | startUser t stack function userEsp hC hfresh => exact agree_startUser hs hC hfresh
  | fork t stack old hC hfresh hcall hold => exact agree_fork hs hC hfresh hcall hold
  | destroy t hC ht => exact ⟨c, .destroy c t, agree_destroy hs ht⟩

theorem run_agree (h : Run (Guarded Room (Step L)) s es s') (hagree : Agree L s c) :
    ∃ b, Run (CStep L) c es b ∧ Agree L s' b :=
  Settles.simulate stable_step h hagree

/-! ## The start of the scheduler -/

/-- The end of `init_scheduler`: the main thread has been created, with its control block at `t`, and control goes to
`resume_thread` with its `kernel_esp`. Interrupts are disabled. -/
def initScheduler (L : Layout) (m : Memory) (t stack : Nat) (function : Dword) (x : Cpu)
    (esp0 : Dword) : Machine where
  cpu := { x with
    esp := load (initThread L m t stack function false) t, eip := L.addr .contextSwitch 11
    eflags := x.eflags &&& ~~~0x200#32, cs := selectorKCode, ds := selectorKData,
      ss := selectorKData, shadow := false }
  mem := initThread L m t stack function false
  esp0 := esp0
  crt := t
  live := [t]
  kernelStack := fun _ => stack
  calls := fun _ => []

/-- The main thread is parked at `kernel_thread`, and nothing has been left. -/
def initContexts (L : Layout) (m : Memory) (t stack : Nat) (function : Dword) : Contexts where
  crt := t
  top := fun _ => stack + kernelStackSize
  frames := fun _ => []
  parked := fun _ => some (kernelStart L (stack + kernelStackSize),
    initThread L m t stack function false)

theorem agree_initScheduler {m : Memory} {t stack : Nat} {function : Dword} {x : Cpu} {esp0 : Dword}
    (hword : t + 4 ≤ 2 ^ 32) (hend : stack + kernelStackSize < 2 ^ 32)
    (hown : t + 4 ≤ stack ∨ stack + kernelStackSize ≤ t) :
    Agree L (initScheduler L m t stack function x esp0) (initContexts L m t stack function) := by
  have hlive : ∀ u ∈ [t], u = t := fun u hu => List.mem_singleton.mp hu
  refine agree_resume rfl (List.mem_singleton_self t) (fun _ _ => rfl) ⟨?_, ?_, ?_, ?_,
    ?_⟩ (fun u hu => ?_) (.inr ?_) rfl rfl
    rfl rfl rfl ?_ rfl
  · intro u hu
    rw [hlive u hu]
    exact hword
  · intro u hu
    exact hend
  · intro u hu v hv huv
    exact absurd ((hlive u hu).trans (hlive v hv).symm) huv
  · intro u hu v hv
    rw [hlive v hv]
    exact hown
  · intro u hu v hv huv
    exact absurd ((hlive u hu).trans (hlive v hv).symm) huv
  · rw [hlive u hu]
    exact ⟨_, _, rfl, waiting_kernelThread hown hend⟩
  · intro f hf
    cases hf
  · simp [initScheduler, Cpu.iflag]

/-! ## A layout, and a run -/

/-- The moves of a script. Of the C code it knows only that the interrupts are disabled, and the calls. -/
inductive Move where
  | stub
  | cli
  | ret
  | switch (next : Nat) (ra : Dword)
  | startUser (t kernelStack : Nat) (function userEsp : Dword)
  | user (x : Cpu)
  | trap (v : Vector) (err : Option Dword)

instance decidableInC : Decidable (s.InC L) := inferInstanceAs (Decidable (_ ∧ _))

instance decidableFresh {t stack : Nat} : Decidable (s.Fresh t stack) :=
  decidable_of_iff (t + 4 ≤ 2 ^ 32 ∧ stack + kernelStackSize < 2 ^ 32 ∧
      (t + 4 ≤ stack ∨ stack + kernelStackSize ≤ t) ∧
      (∀ u ∈ s.live, s.top u ≤ stack ∨ stack + kernelStackSize ≤ s.kernelStack u) ∧
      (∀ u ∈ s.live, u + 4 ≤ stack ∨ stack + kernelStackSize ≤ u) ∧
      (∀ u ∈ s.live, t + 4 ≤ s.kernelStack u ∨ s.top u ≤ t) ∧
      ∀ u ∈ s.live, t + 4 ≤ u ∨ u + 4 ≤ t)
    ⟨fun h => ⟨h.1, h.2.1, h.2.2.1, h.2.2.2.1, h.2.2.2.2.1, h.2.2.2.2.2.1, h.2.2.2.2.2.2⟩,
      fun h => ⟨h.wordEnd, h.stackEnd, h.own, h.apart, h.stackWord, h.wordStack, h.words⟩⟩

def disabled (x : Cpu) : Cpu := { x with eflags := x.eflags &&& ~~~0x200#32, shadow := false }

def perform (L : Layout) (s : Machine) : Move → Option (Event × Machine)
  | .stub => stubStep L s
  | .cli =>
    if s.InC L ∧ s.kernelStack s.crt ≤ s.cpu.esp.toNat ∧ s.cpu.esp.toNat ≤ s.bound then
      some (.silent, { s with cpu := disabled s.cpu })
    else none
  | .ret =>
    match s.calls s.crt with
    | [] => none
    | slot :: slots =>
      if s.InC L ∧ s.cpu.esp.toNat = slot then
        some (.ret s.cpu.eax, { s with cpu := s.returned slot, calls := Function.update s.calls s.crt slots })
      else none
  | .switch next ra =>
    if s.InC L ∧ s.cpu.iflag = false ∧ next ∈ s.live ∧ L.loc ra = none ∧
        s.kernelStack s.crt + 72 ≤ s.cpu.esp.toNat then
      some (.switch next { s.cpu with eip := ra, esp := s.cpu.esp - 8 } (s.callContextSwitch L next ra).mem,
        s.callContextSwitch L next ra)
    else none
  | .startUser t stack function userEsp =>
    if s.InC L ∧ s.Fresh t stack then
      some (.startUser t (stack + kernelStackSize) function userEsp
          (setUserEsp (initThread L s.mem t stack function true) stack userEsp),
        s.start t stack (setUserEsp (initThread L s.mem t stack function true) stack userEsp))
    else none
  | .user x =>
    if s.cpu.user = true ∧ x.cs = s.cpu.cs ∧ x.iflag = s.cpu.iflag ∧ x.shadow = false then
      some (.silent, { s with cpu := x })
    else none
  | .trap v err =>
    if s.cpu.user = true ∧ s.cpu.shadow = false ∧ err.isSome = v.hasErrorCode then
      some (.trap v err s.cpu s.mem, { s with toState := interrupt (L.gate v s.esp0) err s.toState })
    else none

def play (L : Layout) : List Move → Machine → Option (List Event × Machine)
  | [], s => some ([], s)
  | i :: is, s => (perform L s i).bind fun p => (play L is p.2).map fun q => (p.1 :: q.1, q.2)

theorem room_observe {st st' : State} {i : Instr} : Room s (observe L st st' i) := by
  cases i with
  | call target =>
    by_cases htarget : target = L.schedule
    · rw [show observe L st st' (.call target) = .silent from if_pos htarget]
      trivial
    · rw [show observe L st st' (.call target) = .enter (isrParams st.mem st.cpu.esp.toNat) st'.cpu.ds from
        if_neg htarget]
      trivial
  | push | pushImm | pop | pusha | popa | movImm | movLow | movLoad | movStore | movFromDs | movToSeg | add | jmp | cli |
    sti | ret | iret => trivial

theorem perform_step {i : Move} (h : perform L s i = some (e, s')) : Guarded Room (Step L) s e s' := by
  cases i with
  | stub =>
    obtain ⟨-, i, n, -, rfl, -⟩ := stubStep_inv h
    exact ⟨room_observe, .stub s s' _ h⟩
  | cli =>
    rw [perform] at h
    split_ifs at h with hcond
    obtain ⟨rfl, rfl⟩ := Prod.mk.inj (Option.some.inj h)
    obtain ⟨hC, hlow, hhigh⟩ := hcond
    exact ⟨trivial, .kernel s _ s.mem hC ⟨hC.2, rfl, rfl, rfl, rfl, hlow, hhigh, fun _ _ => rfl⟩⟩
  | ret =>
    rw [perform] at h
    cases hcalls : s.calls s.crt with
    | nil => rw [hcalls] at h; cases h
    | cons slot slots =>
      rw [hcalls] at h
      dsimp only at h
      split_ifs at h with hcond
      obtain ⟨rfl, rfl⟩ := Prod.mk.inj (Option.some.inj h)
      exact ⟨trivial, .ret s slot slots hcond.1 hcalls hcond.2⟩
  | switch next ra =>
    rw [perform] at h
    split_ifs at h with hcond
    obtain ⟨rfl, rfl⟩ := Prod.mk.inj (Option.some.inj h)
    obtain ⟨hC, hoff, hnext, hra, hroom⟩ := hcond
    exact ⟨hroom, .switch s next ra hC hoff hnext hra⟩
  | startUser t stack function userEsp =>
    rw [perform] at h
    split_ifs at h with hcond
    obtain ⟨rfl, rfl⟩ := Prod.mk.inj (Option.some.inj h)
    exact ⟨trivial, .startUser s t stack function userEsp hcond.1 hcond.2⟩
  | user x =>
    rw [perform] at h
    split_ifs at h with hcond
    obtain ⟨rfl, rfl⟩ := Prod.mk.inj (Option.some.inj h)
    obtain ⟨huser, hcs, hiflag, hshadow⟩ := hcond
    exact ⟨trivial, .user s x huser hcs hiflag hshadow⟩
  | trap v err =>
    rw [perform] at h
    split_ifs at h with hcond
    obtain ⟨rfl, rfl⟩ := Prod.mk.inj (Option.some.inj h)
    obtain ⟨huser, hshadow, herr⟩ := hcond
    have hroom : Room s (.trap v err s.cpu s.mem) := fun hkernel => by
      rw [huser] at hkernel
      cases hkernel
    exact ⟨hroom, .trap s v err ⟨hshadow, .inr (.inl huser)⟩ herr⟩

theorem run_play {is : List Move} {q : List Event × Machine} (h : play L is s = some q) :
    Run (Guarded Room (Step L)) s q.1 q.2 ∧ q.1.length = is.length := by
  induction is generalizing s q with
  | nil =>
    obtain rfl := Option.some.inj h
    exact ⟨.nil s, rfl⟩
  | cons i is ih =>
    obtain ⟨p, hp, hq⟩ := Option.bind_eq_some_iff.mp h
    obtain ⟨r, hr, rfl⟩ := Option.map_eq_some_iff.mp hq
    obtain ⟨hrun, hlen⟩ := ih hr
    exact ⟨.cons (perform_step hp) hrun, congrArg (· + 1) hlen⟩

def stubIndex : Stub → Nat
  | .isr num => num
  | .isrCommonStub => 48
  | .syscallEntry => 49
  | .syscallForkExit => 50
  | .contextSwitch => 51
  | .switchToUserMode => 52

def stubAt (k : Nat) : Option Stub :=
  if h : k < 48 then some (.isr ⟨k, h⟩)
  else match k with
    | 48 => some .isrCommonStub
    | 49 => some .syscallEntry
    | 50 => some .syscallForkExit
    | 51 => some .contextSwitch
    | 52 => some .switchToUserMode
    | _ => none

theorem stubAt_stubIndex (stub : Stub) : stubAt (stubIndex stub) = some stub := by
  cases stub with
  | isr num =>
    rw [stubIndex, stubAt, dif_pos num.isLt]
  | isrCommonStub | syscallEntry | syscallForkExit | contextSwitch | switchToUserMode => rfl

theorem stubIndex_lt (stub : Stub) : stubIndex stub < 53 := by
  cases stub with
  | isr num => exact Nat.lt_trans num.isLt (by decide)
  | isrCommonStub | syscallEntry | syscallForkExit | contextSwitch | switchToUserMode => decide

def flatLabels : Labels where
  isrCommonStub := 3072
  interruptExit := 3081
  isrHandler := 0x10000
  schedule := 0x10100
  syscallHandler := 0x10200

def flatAddr (stub : Stub) (k : Nat) : Dword := BitVec.ofNat 32 (64 * stubIndex stub + k)

def flatLoc (w : Dword) : Option (Stub × Nat) :=
  (stubAt (w.toNat / 64)).map fun stub => (stub, w.toNat % 64)

theorem flatLoc_flatAddr (stub : Stub) (k : Nat) (h : k < (instrs flatLabels stub).length) :
    flatLoc (flatAddr stub k) = some (stub, k) := by
  have hindex := stubIndex_lt stub
  have hlen : (instrs flatLabels stub).length ≤ 64 := by
    cases stub with
    | isr num =>
      rw [instrs, isr]
      split <;> simp
    | isrCommonStub | syscallEntry | syscallForkExit | contextSwitch | switchToUserMode => decide
  have hnat : (flatAddr stub k).toNat = 64 * stubIndex stub + k := by
    rw [flatAddr, BitVec.toNat_ofNat, Nat.mod_eq_of_lt (by omega)]
  rw [flatLoc, hnat, show (64 * stubIndex stub + k) / 64 = stubIndex stub by omega,
    show (64 * stubIndex stub + k) % 64 = k by omega, stubAt_stubIndex]
  rfl

/-- Every stub at a multiple of 64, one address for each instruction, and the functions in C above them. -/
def flatLayout : Layout where
  toLabels := flatLabels
  addr := flatAddr
  loc := flatLoc
  loc_addr := flatLoc_flatAddr
  kernelThread := 0x10300
  isrCommonStub_eq := rfl
  interruptExit_eq := rfl
  loc_isrHandler := rfl
  loc_schedule := rfl
  loc_syscallHandler := rfl
  loc_kernelThread := rfl
  isrHandler_ne := by decide
  syscallHandler_ne := by decide

def firstCpu : Cpu where
  eax := 0
  ecx := 0
  edx := 0
  ebx := 0
  esp := 0
  ebp := 0
  esi := 0
  edi := 0
  eip := 0
  eflags := 2
  cs := selectorKCode
  ds := selectorKData
  ss := selectorKData
  shadow := false

def firstMachine : Machine := initScheduler flatLayout (fun _ => 0) 4096 8192 0x10400 firstCpu 0

/-- The main thread starts a user thread and switches to it, and it enters user mode. -/
def intoUserMode : List Move :=
  List.replicate 9 .stub ++ [.startUser 0x8000 0x9000 0x50000 0x60000, .cli, .switch 0x8000 0x20000] ++
    List.replicate 23 .stub ++ [.ret] ++ List.replicate 9 .stub

/-- A system call, from the gate to the return into user mode. -/
def throughSyscall : List Move := List.replicate 19 .stub ++ [.ret] ++ List.replicate 15 .stub

theorem play_firstMachine :
    (play flatLayout (intoUserMode ++ .trap .syscall none :: throughSyscall) firstMachine).isSome = true := by
  decide +kernel

theorem exists_firstRun : ∃ es s, es.length = 81 ∧ Run (Guarded Room (Step flatLayout)) firstMachine es s := by
  obtain ⟨q, hq⟩ := Option.isSome_iff_exists.mp play_firstMachine
  obtain ⟨hrun, hlen⟩ := run_play hq
  exact ⟨q.1, q.2, hlen, hrun⟩

/-! ## The contexts of every run -/

/-- In every run from the start of the scheduler, in which no kernel stack overflows, whatever the order of interrupts,
exceptions, system calls, switches, new threads and forks: each handler receives the context that has been left,
each `iret` resumes the last context of its thread that has not been resumed, each switch returns to its caller with
all its registers, and what is on a kernel stack above the stack pointer is as it was left. -/
theorem machine_refines_contexts {m : Memory} {t stack : Nat} {function : Dword} {x : Cpu}
    {esp0 : Dword}
    (hword : t + 4 ≤ 2 ^ 32) (hend : stack + kernelStackSize < 2 ^ 32)
    (hown : t + 4 ≤ stack ∨ stack + kernelStackSize ≤ t)
    (h : Run (Guarded Room (Step L)) (initScheduler L m t stack function x esp0) es s) :
    ∃ c, Run (CStep L) (initContexts L m t stack function) es c := by
  obtain ⟨c, hrun, -⟩ := run_agree h (agree_initScheduler hword hend hown)
  exact ⟨c, hrun⟩

theorem machine_refines_contexts_first : ∃ es c,
    es.length = 81 ∧
    Run (CStep flatLayout) (initContexts flatLayout (fun _ => 0) 4096 8192 0x10400) es c := by
  obtain ⟨es, s, hlen, hrun⟩ := exists_firstRun
  obtain ⟨c, hc⟩ := machine_refines_contexts (by decide) (by decide) (by decide) hrun
  exact ⟨es, c, hlen, hc⟩

/-! ## What user programs see -/

/-- The context in which a user program has been left. -/
structure Left where
  origin : Origin
  cpu : Cpu

/-- The context `x` in which a program that has been left goes on. -/
def Left.Back (l : Left) (x : Cpu) : Prop :=
  match l.origin with
  | .trap (.isr _) _ => x = l.cpu
  | .trap .syscall _ => ∃ v, x = { l.cpu with eax := v }
  | .fresh => x = l.cpu
  | .fork => x = { l.cpu with eax := 0 }

/-- For each thread, the context in which its user program has been left, if it is not running. -/
structure Programs where
  crt : Nat
  left : Nat → Option Left

/-- What concerns no user program. -/
def Internal : Event → Prop
  | .silent | .enter _ _ | .ret _ | .switched _ _ | .destroy _ => True
  | .trap _ _ x _ => x.user = false
  | .resume x _ => x.user = false
  | .switch _ _ _ | .startKernel _ _ _ _ | .startUser _ _ _ _ _ | .fork _ _ _ => False

inductive PStep : Programs → Event → Programs → Prop
  | internal (p : Programs) (e : Event) (h : Internal e) : PStep p e p
  | leave (p : Programs) (v : Vector) (err : Option Dword) (x : Cpu) (m : Memory)
    (huser : x.user = true)
      (hleft : p.left p.crt = none) :
      PStep p (.trap v err x m) { p with left := Function.update p.left p.crt (some ⟨.trap v err, x⟩) }
  | back (p : Programs) (l : Left) (x : Cpu) (m : Memory) (huser : x.user =
    true) (hleft : p.left p.crt = some l)
      (hback : l.Back x) : PStep p (.resume x m) { p with left := Function.update p.left p.crt none }
  | switch (p : Programs) (next : Nat) (x : Cpu) (m : Memory) : PStep p (.switch next x m) { p with
    crt := next }
  | startKernel (p : Programs) (t top : Nat) (function : Dword) (m : Memory) :
      PStep p (.startKernel t top function m) { p with left := Function.update p.left t none }
  | startUser (p : Programs) (t top : Nat) (function userEsp : Dword) (m : Memory) :
      PStep p (.startUser t top function userEsp m)
        { p with left := Function.update p.left t (some ⟨.fresh, userStart function userEsp⟩) }
  | fork (p : Programs) (l : Left) (t top : Nat) (m : Memory) (hleft : p.left p.crt = some l) :
      PStep p (.fork t top m) { p with left := Function.update p.left t (some ⟨.fork, l.cpu⟩) }

/-- The user program of a thread has been left in the outermost context. -/
def userLeft (fs : List Frame) : Option Left :=
  fs.getLast?.bind fun f => if f.cpu.user then some ⟨f.origin, f.cpu⟩ else none

/-- Only the outermost context can be that of a user program. -/
structure Shows (c : Contexts) (p : Programs) : Prop where
  crt : p.crt = c.crt
  left : ∀ t, p.left t = userLeft (c.frames t)
  inner : ∀ t, ∀ f ∈ (c.frames t).dropLast, f.cpu.user = false

variable {p : Programs} {f g : Frame} {fs : List Frame} {x : Cpu}

theorem back_of_resumed (h : f.resumed = some x) : Left.Back ⟨f.origin, f.cpu⟩ x := by
  obtain ⟨origin, cpu, mem, result⟩ := f
  cases origin with
  | trap v err =>
    cases v with
    | isr num => exact (Option.some.inj h).symm
    | syscall =>
      obtain ⟨v, -, hv⟩ := Option.map_eq_some_iff.mp h
      exact ⟨v, hv.symm⟩
  | fresh => exact (Option.some.inj h).symm
  | fork => exact (Option.some.inj h).symm

theorem userLeft_cons (hne : fs ≠ []) : userLeft (f :: fs) = userLeft fs := by
  cases fs with
  | nil => exact absurd rfl hne
  | cons g gs => rw [userLeft, userLeft, List.getLast?_cons_cons]

theorem userLeft_congr (horigin : f.origin = g.origin) (hcpu : f.cpu = g.cpu) :
    userLeft (f :: fs) = userLeft (g :: fs) := by
  cases fs with
  | nil => simp [userLeft, horigin, hcpu]
  | cons h gs =>
    have hne := List.cons_ne_nil h gs
    exact (userLeft_cons hne).trans (userLeft_cons hne).symm

/-- A kernel context on the top changes nothing. -/
theorem userLeft_kernel (hu : f.cpu.user = false) : userLeft (f :: fs) = userLeft fs := by
  cases fs with
  | nil => simp [userLeft, hu]
  | cons g gs => exact userLeft_cons (by simp)

theorem inner_cons (h : ∀ g ∈ fs.dropLast, g.cpu.user = false) (hu : fs ≠ [] → f.cpu.user = false) :
    ∀ g ∈ (f :: fs).dropLast, g.cpu.user = false := by
  cases fs with
  | nil => simp
  | cons h' gs =>
    intro g hg
    rw [List.dropLast_cons_cons] at hg
    rcases List.mem_cons.mp hg with rfl | hg
    · exact hu (by simp)
    · exact h g hg

theorem inner_tail (h : ∀ g ∈ (f :: fs).dropLast, g.cpu.user = false) :
    ∀ g ∈ fs.dropLast, g.cpu.user = false := by
  cases fs with
  | nil => simp
  | cons h' gs =>
    intro g hg
    refine h g ?_
    rw [List.dropLast_cons_cons]
    exact List.mem_cons_of_mem f hg

/-- A context of a user program is the only one. -/
theorem nil_of_user (h : ∀ g ∈ (f :: fs).dropLast, g.cpu.user = false) (hu : f.cpu.user = true) :
    fs = [] := by
  cases fs with
  | nil => rfl
  | cons g gs =>
    have hf := h f (by rw [List.dropLast_cons_cons]; exact List.mem_cons_self)
    rw [hu] at hf
    cases hf

theorem apply_frames {frames : Nat → List Frame} {left : Nat → Option Left} {t : Nat} {l : Option Left}
    (h : ∀ u, left u = userLeft (frames u)) (hl : l = userLeft fs) (u : Nat) :
    Function.update left t l u = userLeft (Function.update frames t fs u) := by
  by_cases hu : u = t
  · rw [hu, Function.update_self, Function.update_self, hl]
  · rw [Function.update_of_ne hu, Function.update_of_ne hu, h]

theorem apply_inner {frames : Nat → List Frame} {t : Nat}
    (h : ∀ u, ∀ f ∈ (frames u).dropLast, f.cpu.user = false)
    (hfs : ∀ f ∈ fs.dropLast, f.cpu.user = false) (u : Nat) :
    ∀ f ∈ (Function.update frames t fs u).dropLast, f.cpu.user = false := by
  by_cases hu : u = t
  · rw [hu, Function.update_self]
    exact hfs
  · rw [Function.update_of_ne hu]
    exact h u

/-- Where the list of contexts of the current thread is replaced by one with the same user program. -/
theorem shows_setFrames (h : Shows c p) (hleft : userLeft (c.frames c.crt) = userLeft fs)
    (hinner : ∀ f ∈ fs.dropLast, f.cpu.user = false) : Shows (c.setFrames fs) p where
  crt := h.crt
  left := by
    intro t
    have hself : Function.update p.left c.crt (p.left c.crt) = p.left := Function.update_eq_self ..
    rw [← hself]
    exact apply_frames h.left ((h.left c.crt).trans hleft) t
  inner := apply_inner h.inner hinner

theorem shows_step (h : Shows a p) (hstep : CStep L a e b) : ∃ q, PStep p e q ∧ Shows b q := by
  have hcrt := h.crt
  cases hstep with
  | silent => exact ⟨p, .internal p _ trivial, h⟩
  | trap v err x m huser =>
    by_cases hu : x.user = true
    · have hnil := huser hu
      refine ⟨_, .leave p v err x m hu (by rw [h.left, hcrt, hnil]; rfl), hcrt, ?_, ?_⟩
      · rw [hcrt]
        exact apply_frames h.left (by rw [hnil]; simp [userLeft, hu])
      · exact apply_inner h.inner (by rw [hnil]; simp)
    · have hu' : x.user = false := by simpa using hu
      exact ⟨p, .internal p _ hu', shows_setFrames h (userLeft_kernel hu').symm
        (inner_cons (h.inner _) fun _ => hu')⟩
  | enter q f fs hframes hholds => exact ⟨p, .internal p _ trivial, h⟩
  | ret v f fs hframes =>
    have hinner := h.inner a.crt
    rw [hframes] at hinner
    refine ⟨p, .internal p _ trivial,
      shows_setFrames h ?_ (inner_cons (inner_tail hinner) fun hne => ?_)⟩
    · rw [hframes]
      exact userLeft_congr rfl rfl
    · by_contra hu
      exact hne (nil_of_user hinner (by simpa using hu))
  | resume x m f fs hframes hresumed hstack =>
    have hinner := h.inner a.crt
    rw [hframes] at hinner
    have huser := resumed_user hresumed
    by_cases hu : x.user = true
    · obtain rfl := nil_of_user hinner (huser.symm.trans hu)
      have hleft : p.left p.crt = some ⟨f.origin, f.cpu⟩ := by
        rw [h.left, hcrt, hframes]
        simp [userLeft, huser.symm.trans hu]
      refine ⟨_, .back p _ x m hu hleft (back_of_resumed hresumed), hcrt, ?_, ?_⟩
      · rw [hcrt]
        exact apply_frames h.left rfl
      · exact apply_inner h.inner (by simp)
    · have hu' : x.user = false := by simpa using hu
      refine ⟨p, .internal p _ hu', shows_setFrames h ?_ (inner_tail hinner)⟩
      rw [hframes]
      exact userLeft_kernel (huser.symm.trans hu')
  | switch next x m => exact ⟨_, .switch p next x m, rfl, h.left, h.inner⟩
  | switched q x m₀ m hparked hreturns => exact ⟨p, .internal p _ trivial, hcrt, h.left, h.inner⟩
  | startKernel t top function m hfunction =>
    exact ⟨_, .startKernel p t top function m, hcrt, apply_frames h.left rfl,
      apply_inner h.inner (by simp)⟩
  | startUser t top function userEsp q m =>
    refine ⟨_, .startUser p t top function userEsp m, hcrt, apply_frames h.left ?_,
      apply_inner h.inner (by simp)⟩
    simp [userLeft, userStart, Cpu.user, selectorUCode]
  | fork t top f q m hframes huser =>
    refine ⟨_, .fork p ⟨f.origin, f.cpu⟩ t top m ?_, hcrt, apply_frames h.left ?_,
      apply_inner h.inner (by simp)⟩
    · rw [h.left, hcrt, userLeft, hframes]
      simp [huser]
    · simp [userLeft, huser]
  | destroy t => exact ⟨p, .internal p _ trivial, h⟩

/-- A user program sees no interrupt, no switch and no other thread: it is left, and goes on in the same context (of
which `es`, `fs` and `gs` are no part), with another `eax` only after a system call. A new one starts in its function, and a forked one where its parent has
called the kernel, with zero. -/
theorem machine_refines_programs {m : Memory} {t stack : Nat} {function : Dword} {x : Cpu}
    {esp0 : Dword}
    (hword : t + 4 ≤ 2 ^ 32) (hend : stack + kernelStackSize < 2 ^ 32)
    (hown : t + 4 ≤ stack ∨ stack + kernelStackSize ≤ t)
    (h : Run (Guarded Room (Step L)) (initScheduler L m t stack function x esp0) es s) :
    ∃ p, Run PStep ⟨t, fun _ => none⟩ es p := by
  obtain ⟨c, hrun, -⟩ := run_agree h (agree_initScheduler hword hend hown)
  have hshows : Shows (initContexts L m t stack function) ⟨t, fun _ => none⟩ :=
    ⟨rfl, fun _ => rfl, fun _ f hf => by cases hf⟩
  have hsim : ∀ {a e b p}, Shows a p → CStep L a e b → ∃ q, PStep p e q ∧ Shows b q := shows_step
  obtain ⟨p, hprograms, -⟩ := hrun.simulate hsim hshows
  exact ⟨p, hprograms⟩

theorem machine_refines_programs_first :
    ∃ es p, es.length = 81 ∧ Run PStep ⟨4096, fun _ => none⟩ es p := by
  obtain ⟨es, s, hlen, hrun⟩ := exists_firstRun
  obtain ⟨p, hp⟩ := machine_refines_programs (by decide) (by decide) (by decide) hrun
  exact ⟨es, p, hlen, hp⟩

end LuckOS.TrapRefinement
