import LuckOS.ThreadContexts

/-!
# What the kernel stack of a thread holds

A thread with a list of contexts that it has left can run from given registers if it is in C code
which returns to a stub with the innermost context above the return address, or in a stub whose
remaining instructions unwind the stack to that context, and if it can run from there with the
remaining contexts. All of this depends only on the part of the stack above the stack pointer.
-/

namespace LuckOS.TrapInvariant

open ByteMemory X86 TrapCode TrapMachine ThreadContexts

variable {L : Layout} {m m' m₀ : Memory} {top a slot : Nat} {f : Frame} {fs : List Frame}
  {calls rest : List Nat}
  {x y : Cpu} {w : Dword}

/-- Compiled C code of the kernel. -/
structure CodeC (L : Layout) (x : Cpu) : Prop where
  eip : L.loc x.eip = none
  cs : x.cs = selectorKCode
  ds : x.ds = selectorKData
  ss : x.ss = selectorKData
  shadow : x.shadow = false

/-- The structure `isr_params` at `a` holds a context. For a system call the saved `esp` has to point at the word
above it, because it is popped. -/
structure Held (m : Memory) (top : Nat) (f : Frame) (a : Nat) : Prop where
  params : Holds (isrParams m a) f
  user : f.cpu.user = true → a + 64 = top
  esp : f.cpu.user = false → f.cpu.esp.toNat = a + 56
  inside : a + 56 ≤ top
  low : top + 4 ≤ a + kernelStackSize
  ss : f.cpu.user = false → f.cpu.ss = selectorKData
  shadow : f.cpu.shadow = false
  saved : ∀ err, f.origin = .trap .syscall err → load m (a + 16) = BitVec.ofNat 32 (a + 20)

/-- Where the calls of a stub return to. -/
def ReturnsTo (L : Layout) (f : Frame) (w : Dword) : Prop :=
  match f.origin with
  | .trap (.isr _) _ | .fresh => w = L.addr .isrCommonStub 9 ∨ w = L.addr .isrCommonStub 10
  | .trap .syscall _ => w = L.addr .syscallEntry 19
  | .fork => False

/-- Where unwinding code leads: to the call of `schedule`, or to an `iret` which resumes the context. -/
inductive AtExit (L : Layout) (m : Memory) (top : Nat) (f : Frame) (x : Cpu) : Prop
  | schedule (heip : x.eip = L.addr .isrCommonStub 9) (hds : x.ds = selectorKData)
      (hheld : Held m top f x.esp.toNat) (horigin : ∀ err,
        f.origin ≠ .trap .syscall err) (hfork : f.origin ≠ .fork) :
      AtExit L m top f x
  | iret (n : Dword) (hcode : L.code x.eip = some (.iret, n))
      (hresumed : f.resumed = some (exec .iret ⟨{ x with eip := n, shadow := false }, m⟩).cpu)
      (huser : f.cpu.user = true → x.esp.toNat + 20 ≤ top)
      (hkernel : f.cpu.user = false → x.esp.toNat + 12 =
        f.cpu.esp.toNat) (hroom : x.esp.toNat + 12 ≤ top) :
      AtExit L m top f x

/-- Control has not yet left the kernel for the context of `f`; `rest` are the calls that were made before it. -/
inductive Entered (L : Layout) (m : Memory) (top : Nat) (f : Frame) (rest : List Nat) (x : Cpu) :
    List Nat → Prop
  | c (slot : Nat) (hcode : CodeC L x) (hslot : x.esp.toNat ≤ slot)
    (hreturns : ReturnsTo L f (load m slot))
      (hheld : Held m top f (slot + 4)) : Entered L m top f rest x (slot :: rest)
  | exit (hcs : x.cs = selectorKCode) (hss : x.ss = selectorKData)
      (hunwinds : Unwinds L.code m top (AtExit L m top f) x) : Entered L m top f rest x rest

/-- The thread can run from the registers `x` with the contexts `fs` that it has left. -/
def Live (L : Layout) (m : Memory) (top : Nat) : List Frame → List Nat → Cpu → Prop
  | [], calls, x => calls = [] ∧ x.shadow = false ∧
  (x.user = true ∨ (CodeC L x ∧ x.esp.toNat + 72 ≤ top))
  | f :: fs, calls, x => ∃ rest, Entered L m top f rest x calls ∧
      (f.cpu.user = false → x.esp.toNat ≤ f.cpu.esp.toNat ∧ SameOn f.mem m f.cpu.esp.toNat top) ∧
      ∀ v y, Frame.resumed { f with result := some v } = some y → Live L m top fs rest y

/-- A lower bound of the stack that belongs to the running C code. -/
def callBound (top : Nat) : List Nat → Nat
  | [] => top - interruptStackSize - 8
  | slot :: _ => slot

/-! ## Only the stack above the stack pointer matters -/

theorem Held.congr (h : Held m top f a) (hsame : SameOn m m' a top) : Held m' top f a := by
  have hinside := h.inside
  have hload : ∀ k, a + k + 4 ≤ top → load m' (a + k) = load m (a + k) :=
    fun k hk => load_congr (hsame.mono (by omega) hk)
  have hload0 : load m' a = load m a := load_congr (hsame.mono (by omega) (by omega))
  have hparams := h.params
  refine ⟨⟨?_, ?_, ?_, ?_, ?_, ?_, ?_, ?_, ?_, ?_, ?_, ?_, ?_⟩, h.user, h.esp, h.inside, h.low,
    h.ss, h.shadow, ?_⟩
  · simpa only [isrParams, hload0] using hparams.ds
  · simpa only [isrParams, hload 4 (by omega)] using hparams.edi
  · simpa only [isrParams, hload 8 (by omega)] using hparams.esi
  · simpa only [isrParams, hload 12 (by omega)] using hparams.ebp
  · simpa only [isrParams, hload 20 (by omega)] using hparams.ebx
  · simpa only [isrParams, hload 24 (by omega)] using hparams.edx
  · simpa only [isrParams, hload 28 (by omega)] using hparams.ecx
  · simpa only [isrParams, hload 32 (by omega)] using hparams.eax
  · simpa only [isrParams, hload 36 (by omega), hload 40 (by omega)] using hparams.number
  · simpa only [isrParams, hload 44 (by omega)] using hparams.eip
  · simpa only [isrParams, hload 48 (by omega)] using hparams.cs
  · simpa only [isrParams, hload 52 (by omega)] using hparams.eflags
  · intro huser
    have htop := h.user huser
    simpa only [isrParams, hload 56 (by omega), hload 60 (by omega)] using hparams.user huser
  · intro err herr
    rw [hload 16 (by omega)]
    exact h.saved err herr

theorem user_of_cs (h : x.cs = selectorKCode) : x.user = false := by simp [Cpu.user, h, selectorKCode]

/-- An `iret` to the kernel reads three words, and one to user mode five. -/
theorem exec_iret_congr (hsame : SameOn m m' x.esp.toNat (x.esp.toNat + 12))
    (huser : (exec .iret ⟨x, m⟩).cpu.user = true → SameOn m m' x.esp.toNat (x.esp.toNat + 20)) :
    (exec .iret ⟨x, m'⟩).cpu = (exec .iret ⟨x, m⟩).cpu := by
  have hword : ∀ k < 3, State.word ⟨x, m'⟩ k = State.word ⟨x, m⟩ k :=
    fun k hk => load_congr (hsame.mono (Nat.le_add_right _ _) (by simp only []; omega))
  have hpopped : State.popped ⟨x, m'⟩ = State.popped ⟨x, m⟩ := by
    simp only [State.popped, State.drop, hword 0 (by omega), hword 1 (by omega), hword 2 (by omega)]
  simp only [exec] at huser ⊢
  rw [hpopped]
  by_cases hu : (State.popped ⟨x, m⟩).user = true
  · rw [if_pos hu] at huser ⊢
    have hword' : ∀ k < 5, State.word ⟨x, m'⟩ k = State.word ⟨x, m⟩ k :=
      fun k hk => load_congr ((huser hu).mono (Nat.le_add_right _ _) (by simp only []; omega))
    rw [if_pos hu, State.poppedUser, hpopped, hword' 3 (by omega), hword' 4 (by omega),
      State.poppedUser]
  · rw [if_neg hu, if_neg hu]

theorem resumed_eq (h : f.resumed = some y) : ∃ v, y = { f.cpu with eax := v } := by
  rw [Frame.resumed] at h
  split at h
  · exact ⟨f.cpu.eax, (Option.some.inj h).symm⟩
  · obtain ⟨v, -, rfl⟩ := Option.map_eq_some_iff.mp h
    exact ⟨v, rfl⟩
  · exact ⟨f.cpu.eax, (Option.some.inj h).symm⟩
  · exact ⟨0, (Option.some.inj h).symm⟩

theorem resumed_user (h : f.resumed = some y) : y.user = f.cpu.user := by
  obtain ⟨v, rfl⟩ := resumed_eq h
  rfl

theorem resumed_esp (h : f.resumed = some y) : y.esp = f.cpu.esp := by
  obtain ⟨v, rfl⟩ := resumed_eq h
  rfl

theorem AtExit.congr (h : AtExit L m top f x) (hsame : SameOn m m' x.esp.toNat top) :
    AtExit L m' top f x := by
  cases h with
  | schedule heip hds hheld horigin hfork => exact .schedule heip hds (hheld.congr hsame) horigin hfork
  | iret n hcode hresumed huser hkernel hroom =>
    have hcpu := exec_iret_congr (x := { x with eip := n, shadow := false })
      (hsame.mono (Nat.le_refl _) hroom)
      (fun hu => hsame.mono (Nat.le_refl _) (huser ((resumed_user hresumed).symm.trans hu)))
    refine .iret n hcode ?_ huser hkernel hroom
    rw [hcpu]
    exact hresumed

theorem Entered.congr (h : Entered L m top f rest x calls) (hsame : SameOn m m' x.esp.toNat top) :
    Entered L m' top f rest x calls := by
  cases h with
  | c slot hcode hslot hreturns hheld =>
    have hinside := hheld.inside
    refine .c slot hcode hslot ?_ (hheld.congr (hsame.mono (by omega) (Nat.le_refl top)))
    rwa [load_congr (hsame.mono hslot (by omega))]
  | exit hcs hss hunwinds =>
    exact .exit hcs hss (hunwinds.congr hsame fun y hy hdone =>
      hdone.congr (hsame.mono hy (Nat.le_refl top)))

theorem Entered.user (h : Entered L m top f rest x calls) : x.user = false := by
  cases h with
  | c slot hcode hslot hreturns hheld => exact user_of_cs hcode.cs
  | exit hcs hss hunwinds => exact user_of_cs hcs

theorem Live.congr (h : Live L m top fs calls x)
    (hsame : x.user = false → SameOn m m' x.esp.toNat top) :
    Live L m' top fs calls x := by
  induction fs generalizing calls x with
  | nil => exact h
  | cons f fs ih =>
    obtain ⟨rest, hentered, hstack, hlive⟩ := h
    have hsame' := hsame hentered.user
    refine ⟨rest, hentered.congr hsame', fun hu => ?_, fun v y hy => ih (hlive v y hy) fun hu => ?_⟩
    · obtain ⟨hle, hsnapshot⟩ := hstack hu
      exact ⟨hle, hsnapshot.trans (hsame'.mono hle (Nat.le_refl top))⟩
    · have hy' := resumed_esp hy
      rw [hy']
      exact hsame'.mono (hstack ((resumed_user hy).symm.trans hu)).1 (Nat.le_refl top)

/-- A thread in user mode has left no context. -/
theorem Live.user (h : Live L m top fs calls x) (hu : x.user = true) : fs = [] ∧ calls = [] := by
  cases fs with
  | nil => exact ⟨rfl, h.1⟩
  | cons f fs =>
    obtain ⟨rest, hentered, -⟩ := h
    rw [hentered.user] at hu
    cases hu

/-- In the kernel the segments are the kernel's, and the stack pointer lies on the stack. -/
theorem Live.inKernel (h : Live L m top fs calls x) (hu : x.user = false) :
    x.cs = selectorKCode ∧ x.ss = selectorKData ∧ x.esp.toNat ≤ top := by
  cases fs with
  | nil =>
    obtain ⟨-, -, huser | ⟨hcode, htop⟩⟩ := h
    · rw [hu] at huser
      cases huser
    · exact ⟨hcode.cs, hcode.ss, by omega⟩
  | cons f fs =>
    obtain ⟨rest, hentered, -⟩ := h
    cases hentered with
    | c slot hcode hslot hreturns hheld =>
      have hinside := hheld.inside
      exact ⟨hcode.cs, hcode.ss, by omega⟩
    | exit hcs hss hunwinds =>
      refine ⟨hcs, hss, ?_⟩
      cases hunwinds with
      | done hdone =>
        cases hdone with
        | schedule heip hds hheld horigin hfork =>
          have hinside := hheld.inside
          omega
        | iret n hcode hresumed huser hkernel hroom => omega
      | step hcode hpops hroom hup h => omega

/-! ## Running C code -/

theorem AtExit.loc (h : AtExit L m top f x) : L.loc x.eip ≠ none := by
  cases h with
  | schedule heip hds hheld horigin hfork =>
    rw [heip, L.loc_addr .isrCommonStub 9
      (by simp [instrs, isrCommonStub, interruptExit, loadSegments])]
    simp
  | iret n hcode hresumed huser hkernel hroom =>
    intro hnone
    rw [L.code_eq_none hnone] at hcode
    cases hcode

theorem unwinds_loc (h : Unwinds L.code m top (AtExit L m top f) x) : L.loc x.eip ≠ none := by
  cases h with
  | done h => exact h.loc
  | step hcode =>
    intro hnone
    rw [L.code_eq_none hnone] at hcode
    cases hcode

theorem Entered.slot_of_loc (h : Entered L m top f rest x calls) (hloc : L.loc x.eip = none) :
    ∃ slot, calls = slot :: rest ∧ CodeC L x ∧ x.esp.toNat ≤ slot ∧ ReturnsTo L f (load m slot) ∧
    Held m top f (slot + 4) := by
  cases h with
  | c slot hcode hslot hreturns hheld => exact ⟨slot, rfl, hcode, hslot, hreturns, hheld⟩
  | exit hcs hss hunwinds => exact absurd hloc (unwinds_loc hunwinds)

theorem Live.codeC (h : Live L m top fs calls x) (hu : x.user = false) (hloc : L.loc x.eip = none) :
    CodeC L x := by
  cases fs with
  | nil =>
    obtain ⟨-, -, huser | hcode⟩ := h
    · rw [hu] at huser
      cases huser
    · exact hcode.1
  | cons f fs =>
    obtain ⟨rest, hentered, -⟩ := h
    obtain ⟨slot, -, hcode, -⟩ := hentered.slot_of_loc hloc
    exact hcode

/-- The registers of C code do not matter. -/
theorem Live.replace (h : Live L m top fs calls x) (hx : CodeC L x) (hy : CodeC L y)
    (hesp : y.esp.toNat ≤ callBound top calls) : Live L m top fs calls y := by
  cases fs with
  | nil =>
    obtain ⟨hcalls, -, huser | ⟨-, htop⟩⟩ := h
    · rw [user_of_cs hx.cs] at huser
      cases huser
    · refine ⟨hcalls, hy.shadow, .inr ⟨hy, ?_⟩⟩
      rw [hcalls, callBound, interruptStackSize] at hesp
      omega
  | cons f fs =>
    obtain ⟨rest, hentered, hstack, hlive⟩ := h
    obtain ⟨slot, rfl, -, hslot, hreturns, hheld⟩ := hentered.slot_of_loc hx.eip
    refine ⟨rest, .c slot hy hesp hreturns hheld, fun hu => ⟨?_, (hstack hu).2⟩, hlive⟩
    rw [hheld.esp hu]
    simp only [callBound] at hesp
    omega

theorem Live.bound_lt (h : Live L m top fs calls x) (hx : CodeC L x) :
    callBound top calls < top ∧ x.esp.toNat ≤ callBound top calls := by
  cases fs with
  | nil =>
    obtain ⟨hcalls, -, huser | ⟨-, htop⟩⟩ := h
    · rw [user_of_cs hx.cs] at huser
      cases huser
    · rw [hcalls, callBound, interruptStackSize]
      omega
  | cons f fs =>
    obtain ⟨rest, hentered, -⟩ := h
    obtain ⟨slot, rfl, -, hslot, -, hheld⟩ := hentered.slot_of_loc hx.eip
    have hinside := hheld.inside
    simp only [callBound]
    omega

theorem Live.bound_low (h : Live L m top fs calls x) (hx : CodeC L x) :
    top ≤ callBound top calls + kernelStackSize := by
  cases fs with
  | nil =>
    rw [h.1, callBound, interruptStackSize, kernelStackSize]
    omega
  | cons f fs =>
    obtain ⟨rest, hentered, -⟩ := h
    obtain ⟨slot, rfl, -, -, -, hheld⟩ := hentered.slot_of_loc hx.eip
    have hlow := hheld.low
    simp only [callBound]
    omega

/-- C code that writes only below the last call of a stub. -/
theorem Live.kernel (h : Live L m top fs calls x) (hx : CodeC L x) (hy : CodeC L y)
    (hesp : y.esp.toNat ≤ callBound top calls) (htop : top < 2 ^ 32)
    (hsame : SameOn m m' (callBound top calls) top) : Live L m' top fs calls y := by
  have hbound := h.bound_lt hx
  have hz : CodeC L { y with esp := BitVec.ofNat 32 (callBound top calls) } :=
    ⟨hy.eip, hy.cs, hy.ds, hy.ss, hy.shadow⟩
  have hnat := Unwinds.toNat_ofNat (Nat.le_of_lt hbound.1) htop
  have hlive := h.replace hx hz (by simp only [hnat]; exact Nat.le_refl _)
  have hlive' : Live L m' top fs calls { y with esp := BitVec.ofNat 32 (callBound top calls) } :=
    hlive.congr fun _ => by simpa only [hnat] using hsame
  exact hlive'.replace hz hy hesp

/-! ## All threads -/

/-- The stacks and the words `kernel_esp` of the threads lie apart. -/
structure Regions (live : List Nat) (stack : Nat → Nat) : Prop where
  wordEnd : ∀ t ∈ live, t + 4 ≤ 2 ^ 32
  stackEnd : ∀ t ∈ live, stack t + kernelStackSize < 2 ^ 32
  apart : ∀ t ∈ live, ∀ u ∈ live, t ≠ u → stack u + kernelStackSize ≤ stack t ∨
    stack t + kernelStackSize ≤ stack u
  stackWord : ∀ t ∈ live, ∀ u ∈ live, u + 4 ≤ stack t ∨ stack t + kernelStackSize ≤ u
  words : ∀ t ∈ live, ∀ u ∈ live, t ≠ u → t + 4 ≤ u ∨ u + 4 ≤ t

/-- The control block `t` points at a switch stack that holds the context `p`, from which the thread can run. -/
structure Waiting (L : Layout) (m : Memory) (t stack top : Nat) (fs : List Frame)
    (calls : List Nat) (p : Cpu)
    (m₀ : Memory) : Prop where
  kernelEsp : load m t = BitVec.ofNat 32 (p.esp.toNat - 32)
  low : stack + 32 ≤ p.esp.toNat
  high : p.esp.toNat ≤ top
  words : Words m (p.esp.toNat - 32) [p.edi, p.esi, p.ebp, p.ebx, p.edx, p.ecx, p.eax, p.eip]
  cs : p.cs = selectorKCode
  ds : p.ds = selectorKData
  ss : p.ss = selectorKData
  shadow : p.shadow = false
  snapshot : SameOn m₀ m p.esp.toNat top
  live : ∀ e, Live L m top fs calls { p with eflags := e }

theorem Waiting.congr {t stack : Nat} {p : Cpu} (h : Waiting L m t stack top fs calls p m₀)
    (hstack : SameOn m m' stack top)
    (hword : SameOn m m' t (t + 4)) : Waiting L m' t stack top fs calls p m₀ := by
  have hlow := h.low
  have hhigh := h.high
  refine ⟨?_, h.low, h.high, ?_, h.cs, h.ds, h.ss, h.shadow, ?_, fun e => ?_⟩
  · rw [load_congr hword, h.kernelEsp]
  · refine h.words.congr (hstack.mono (by omega) ?_)
    simp only [List.length_cons, List.length_nil]
    omega
  · exact h.snapshot.trans (hstack.mono (by omega) (Nat.le_refl top))
  · exact (h.live e).congr fun _ => hstack.mono (by simp only []; omega) (Nat.le_refl top)

/-- A thread that will not return to user mode. -/
def KernelOnly (fs : List Frame) (x : Cpu) : Prop := x.user = false ∧ ∀ f ∈ fs, f.cpu.user = false

/-- The machine and the contexts agree, except in the middle of an entry or a switch. -/
structure Stable (L : Layout) (s : Machine) (a : Contexts) : Prop where
  crt : a.crt = s.crt
  crtLive : s.crt ∈ s.live
  tops : ∀ t ∈ s.live, a.top t = s.top t
  regions : Regions s.live s.kernelStack
  active : Live L s.mem (s.top s.crt) (a.frames s.crt) (s.calls s.crt) s.cpu
  esp0 : s.esp0.toNat = s.top s.crt ∨ KernelOnly (a.frames s.crt) s.cpu
  waiting : ∀ t ∈ s.live, t ≠ s.crt → ∃ p m₀, a.parked t = some (p, m₀) ∧
    Waiting L s.mem t (s.kernelStack t) (s.top t) (a.frames t) (s.calls t) p m₀

/-- The other threads do not notice what happens to the stack and to the control block of the current one. -/
theorem Stable.others {s : Machine} {a : Contexts} (h : Stable L s a) (m' : Memory)
    (hown : ∀ z, (z < s.kernelStack s.crt ∨ s.top s.crt ≤ z) → ¬(s.crt ≤ z ∧ z < s.crt + 4) →
      m' z = s.mem z) :
    ∀ t ∈ s.live, t ≠ s.crt → ∃ p m₀, a.parked t = some (p, m₀) ∧
      Waiting L m' t (s.kernelStack t) (s.top t) (a.frames t) (s.calls t) p m₀ := by
  intro t ht hne
  obtain ⟨p, m₀, hparked, hwaiting⟩ := h.waiting t ht hne
  have hapart := h.regions.apart t ht s.crt h.crtLive hne
  have hword := h.regions.stackWord s.crt h.crtLive t ht
  have hword' := h.regions.stackWord t ht s.crt h.crtLive
  have hwords := h.regions.words t ht s.crt h.crtLive hne
  have htop : ∀ u, s.top u = s.kernelStack u + kernelStackSize := fun _ => rfl
  have htops := htop t
  have htopc := htop s.crt
  exact ⟨p, m₀, hparked, hwaiting.congr (fun z hz hz' => hown z (by omega) (by omega))
    (fun z hz hz' => hown z (by omega) (by omega))⟩

/-- User code and C code may receive a value in `eax`. -/
theorem Live.setEax {v : Dword} (h : Live L m top fs calls x)
    (hx : x.user = true ∨ L.loc x.eip = none) :
    Live L m top fs calls { x with eax := v } := by
  by_cases hu : x.user = true
  · obtain ⟨rfl, rfl⟩ := h.user hu
    exact ⟨rfl, h.2.1, .inl hu⟩
  · have hloc := hx.resolve_left hu
    have hcode := h.codeC (by simpa using hu) hloc
    exact h.replace hcode ⟨hcode.eip, hcode.cs, hcode.ds, hcode.ss, hcode.shadow⟩ (h.bound_lt hcode).2

end LuckOS.TrapInvariant
