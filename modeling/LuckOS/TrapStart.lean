import LuckOS.TrapSwitch

/-!
# New threads

The stack that `init_thread` builds lets `resume_thread` go to `kernel_thread`, or to the code that
leaves the kernel for the function of a user thread. The stack that `fork_crt_thread` copies lets it
go to the context in which the current thread has called the kernel.
-/

namespace LuckOS.TrapStart

open ByteMemory X86 TrapCode TrapMachine ThreadContexts TrapInvariant TrapEntry TrapExit TrapSwitch Runs

variable {L : Layout} {s : Machine} {c : Contexts} {x p : Cpu} {m m' m₀ old : Memory}
  {t stack a b k lo hi top : Nat}
  {ws : List Dword} {function userEsp : Dword} {f : Frame} {fs : List Frame} {calls : List Nat}

/-! ## Stores of several words -/

theorem sameOn_storeWords (h : hi ≤ a ∨ a + 4 * ws.length ≤ lo) :
    SameOn m (storeWords m a ws) lo hi := by
  induction ws generalizing m a with
  | nil => exact fun _ _ _ => rfl
  | cons w ws ih =>
    rw [List.length_cons] at h
    exact (sameOn_store (by omega)).trans (ih (by omega))

theorem words_storeWords : Words (storeWords m a ws) a ws := by
  induction ws generalizing m a with
  | nil => trivial
  | cons w ws ih =>
    refine ⟨?_, ih⟩
    rw [storeWords, load_congr (sameOn_storeWords (.inl (Nat.le_refl _))), load_store]

theorem load_storeWords_of_ne (h : b + 4 ≤ a ∨ a + 4 * ws.length ≤ b) :
    load (storeWords m a ws) b = load m b :=
  load_congr (sameOn_storeWords (by omega))

theorem storeWords_outside {z : Nat} (h : z < a ∨ a + 4 * ws.length ≤ z) : storeWords m a ws z = m z :=
  sameOn_storeWords (by omega) z (Nat.le_refl z) (Nat.lt_succ_self z)

theorem memset_outside {v : UInt8} {n z : Nat} (h : z < a ∨ a + n ≤ z) : memset m a v n z = m z := if_neg (by omega)

theorem memcpy_outside {n src z : Nat} (h : z < a ∨ a + n ≤ z) : memcpy m old a src n z = m z := if_neg (by omega)

/-! ## Adding a thread -/

/-- Outside the new stack and the new control block nothing has changed. -/
def Outside (m m' : Memory) (t stack : Nat) : Prop :=
  ∀ z, ¬(t ≤ z ∧ z < t + 4) → ¬(stack ≤ z ∧ z < stack + kernelStackSize) → m' z = m z

theorem Fresh.ne (hfresh : s.Fresh t stack) : ∀ u ∈ s.live, u ≠ t := fun u hu heq => by
  have hwords := hfresh.words u hu
  omega

theorem regions_start (hregions : Regions s.live s.kernelStack) (hfresh : s.Fresh t stack) :
    Regions (t :: s.live) (Function.update s.kernelStack t stack) := by
  have hk : ∀ u ∈ s.live, Function.update s.kernelStack t stack u = s.kernelStack u := fun u hu =>
    Function.update_of_ne (Fresh.ne hfresh u hu) ..
  have hkt : Function.update s.kernelStack t stack t = stack := Function.update_self ..
  constructor
  · intro u hu
    rcases List.mem_cons.mp hu with rfl | hu
    · exact hfresh.wordEnd
    · exact hregions.wordEnd u hu
  · intro u hu
    rcases List.mem_cons.mp hu with rfl | hu
    · rw [hkt]
      exact hfresh.stackEnd
    · rw [hk u hu]
      exact hregions.stackEnd u hu
  · intro u hu v hv huv
    rcases List.mem_cons.mp hu with hut | hu <;> rcases List.mem_cons.mp hv with hvt | hv
    · exact absurd (hut.trans hvt.symm) huv
    · rw [hut, hkt, hk v hv]
      exact hfresh.apart v hv
    · rw [hvt, hkt, hk u hu]
      exact (hfresh.apart u hu).symm
    · rw [hk u hu, hk v hv]
      exact hregions.apart u hu v hv huv
  · intro u hu v hv
    rcases List.mem_cons.mp hu with hut | hu <;> rcases List.mem_cons.mp hv with hvt | hv
    · rw [hut, hvt, hkt]
      exact hfresh.own
    · rw [hut, hkt]
      exact hfresh.stackWord v hv
    · rw [hvt, hk u hu]
      exact hfresh.wordStack u hu
    · rw [hk u hu]
      exact hregions.stackWord u hu v hv
  · intro u hu v hv huv
    rcases List.mem_cons.mp hu with hut | hu <;> rcases List.mem_cons.mp hv with hvt | hv
    · exact absurd (hut.trans hvt.symm) huv
    · rw [hut]
      exact hfresh.words v hv
    · rw [hvt]
      exact (hfresh.words u hu).symm
    · exact hregions.words u hu v hv huv

theorem agree_start (hs : Stable L s c) (hC : s.InC L) (hfresh : s.Fresh t stack)
    (hout : Outside s.mem m t stack)
    (hwaiting : Waiting L m t stack (stack + kernelStackSize) fs [] p m) :
    Agree L (s.start t stack m) (c.start t (stack + kernelStackSize) fs p m) := by
  have hne := Fresh.ne hfresh
  have hcode := hs.active.codeC hC.1 hC.2
  have hlow := hs.active.bound_low hcode
  have htop : ∀ u, s.top u = s.kernelStack u + kernelStackSize := fun _ => rfl
  have htopc := htop s.crt
  have hcrtne := hne s.crt hs.crtLive
  -- the stacks and the control blocks of the other threads are outside
  have hstack : ∀ u ∈ s.live, SameOn s.mem m (s.kernelStack u) (s.top u) := fun u hu z hz hz' => by
    have hwordStack := hfresh.wordStack u hu
    have hapart := hfresh.apart u hu
    exact hout z (by omega) (by have := htop u; omega)
  have hword : ∀ u ∈ s.live, SameOn s.mem m u (u + 4) := fun u hu z hz hz' => by
    have hstackWord := hfresh.stackWord u hu
    have hwords := hfresh.words u hu
    exact hout z (by omega) (by omega)
  have hstart : ∀ u ∈ s.live, (s.start t stack m).top u = s.top u := fun u hu => by
    simp only [Machine.top, Machine.start, Function.update_of_ne (hne u hu)]
  have hstartt : (s.start t stack m).top t = stack + kernelStackSize := by
    simp only [Machine.top, Machine.start, Function.update_self]
  have hstartc : (s.start t stack m).top (s.start t stack m).crt = s.top s.crt :=
    hstart s.crt hs.crtLive
  refine .done ⟨hs.crt, List.mem_cons_of_mem t hs.crtLive, fun u hu => ?_,
    regions_start hs.regions hfresh, ?_, ?_,
    fun u hu hu' => ?_⟩
  · rcases List.mem_cons.mp hu with hut | hu
    · rw [hut, hstartt, Contexts.start]
      exact Function.update_self ..
    · rw [hstart u hu, ← hs.tops u hu]
      exact Function.update_of_ne (hne u hu) ..
  · rw [hstartc]
    simp only [Contexts.start, Machine.start, Function.update_of_ne hcrtne]
    exact hs.active.kernel hcode hcode (hs.active.bound_lt hcode).2
      (hs.regions.stackEnd s.crt hs.crtLive)
      ((hstack s.crt hs.crtLive).mono (by omega) (Nat.le_refl _))
  · have hesp0 := hs.esp0
    rw [hstartc]
    simp only [Contexts.start, Machine.start, Function.update_of_ne hcrtne]
    exact hesp0
  · rcases List.mem_cons.mp hu with hut | hu
    · refine ⟨p, m, ?_, ?_⟩
      · rw [hut]
        exact Function.update_self ..
      · rw [hut, hstartt]
        simp only [Contexts.start, Machine.start, Function.update_self]
        exact hwaiting
    · obtain ⟨q, m₀, hparked, hq⟩ := hs.waiting u hu hu'
      refine ⟨q, m₀, (Function.update_of_ne (hne u hu) ..).trans hparked, ?_⟩
      rw [hstart u hu]
      simp only [Contexts.start, Machine.start, Function.update_of_ne (hne u hu)]
      exact hq.congr (hstack u hu) (hword u hu)

/-! ## `init_thread` -/

theorem initialEsp_eq (stack : Nat) : initialEsp stack = stack + 8088 := by
  rw [initialEsp, kernelStackSize, interruptStackSize, switchStackSize]
  omega

/-- A new thread waits in the context of its switch stack. -/
theorem waiting_initial (hend : stack + kernelStackSize < 2 ^ 32)
    (hk : load m t = BitVec.ofNat 32 (initialEsp stack))
    (hwords : Words m (initialEsp stack) [p.edi, p.esi, p.ebp, p.ebx, p.edx, p.ecx, p.eax, p.eip])
    (hesp : p.esp = BitVec.ofNat 32 (stack + 8120)) (hcs : p.cs = selectorKCode)
    (hds : p.ds = selectorKData)
    (hss : p.ss = selectorKData) (hshadow : p.shadow = false)
    (hlive : ∀ e, Live L m (stack + kernelStackSize) fs [] { p with eflags := e }) :
    Waiting L m t stack (stack + kernelStackSize) fs [] p m := by
  have hsize : kernelStackSize = 8192 := rfl
  have hnat : p.esp.toNat = stack + 8120 := by
    rw [hesp, BitVec.toNat_ofNat, Nat.mod_eq_of_lt (by omega)]
  rw [initialEsp_eq] at hk hwords
  refine ⟨?_, ?_, ?_, ?_, hcs, hds, hss, hshadow, fun _ _ _ => rfl, hlive⟩
  · rw [hnat, hk, show stack + 8120 - 32 = stack + 8088 by omega]
  · omega
  · omega
  · rw [hnat]
    exact hwords

/-- The stack before what `init_thread` adds for a user thread. -/
theorem initThread_common (L : Layout) (m : Memory) (function : Dword) (hown : t + 4 ≤ stack ∨ stack + kernelStackSize ≤ t) :
    load (initThread L m t stack function false) t = BitVec.ofNat 32 (initialEsp stack) ∧
      Words (initThread L m t stack function false) (initialEsp stack) [0, 0, 0, 0, 0, 0, 0,
        L.kernelThread] ∧
      load (initThread L m t stack function false) (initialEsp stack + 36) = function ∧
      Outside m (initThread L m t stack function false) t stack := by
  have hsize : kernelStackSize = 8192 := rfl
  have heq := initialEsp_eq stack
  simp only [initThread, Bool.false_eq_true, if_false]
  refine ⟨?_, ?_, load_store, fun z hz hz' => ?_⟩
  · rw [load_store_of_ne (by omega),
      load_storeWords_of_ne (by simp only [List.length_cons, List.length_nil]; omega), load_store]
  · exact words_storeWords.congr (sameOn_store
      (.inl (by simp only [List.length_cons, List.length_nil]; omega)))
  · rw [store_outside (by omega), storeWords_outside
      (by simp only [List.length_cons, List.length_nil]; omega), store_outside (by omega), memset_outside (by omega)]

theorem waiting_kernelThread (hown : t + 4 ≤ stack ∨ stack + kernelStackSize ≤ t)
    (hend : stack + kernelStackSize < 2 ^ 32) :
    Waiting L (initThread L m t stack function false) t stack (stack + kernelStackSize) [] []
      (kernelStart L (stack + kernelStackSize)) (initThread L m t stack function false) := by
  obtain ⟨hk, hwords, -, -⟩ := initThread_common L m function hown
  have hsize : kernelStackSize = 8192 := rfl
  have hesp : (kernelStart L (stack + kernelStackSize)).esp = BitVec.ofNat 32 (stack + 8120) := by
    rw [kernelStart, hsize, show stack + 8192 - 72 = stack + 8120 by omega]
  refine waiting_initial hend hk hwords hesp rfl rfl rfl rfl fun e =>
    ⟨rfl, rfl, .inr ⟨⟨L.loc_kernelThread, rfl, rfl, rfl, rfl⟩, ?_⟩⟩
  simp only [hesp]
  rw [BitVec.toNat_ofNat, Nat.mod_eq_of_lt (by omega)]
  omega

theorem load_memset {n : Nat} (h : a ≤ b ∧ b + 4 ≤ a + n) : load (memset m a 0 n) b = 0 := by
  have hbyte : ∀ j < 4, memset m a 0 n (b + j) = 0 := fun j hj => if_pos (by omega)
  have h0 : memset m a 0 n b = 0 := hbyte 0 (by omega)
  rw [load, read32, h0, hbyte 1 (by omega), hbyte 2 (by omega), hbyte 3 (by omega)]
  rfl

/-- What `init_thread` and `prepare_user_stack` have stored for a user thread. -/
theorem initThread_user (L : Layout) (m : Memory) (function userEsp : Dword) (hown : t + 4 ≤ stack ∨ stack + kernelStackSize ≤ t) :
    load (setUserEsp (initThread L m t stack function true) stack userEsp) t =
    BitVec.ofNat 32 (initialEsp stack) ∧
      Words (setUserEsp (initThread L m t stack function true) stack userEsp) (initialEsp stack)
        [0, 0, 0, 0, 0, 0, 0, L.addr .switchToUserMode 0] ∧
      isrParams (setUserEsp (initThread L m t stack function true) stack userEsp) (stack + 8128) =
        { ds := selectorUData.setWidth 32, edi := 0, esi := 0, ebp := 0, esp := 0, ebx := 0, edx := 0, ecx := 0, eax := 0,
          intNum := 0, errCode := 0, eip := function, cs := selectorUCode.setWidth 32,
          eflags := initialFlags,
          userEsp := userEsp, userSs := selectorUData.setWidth 32 } ∧
      Outside m (setUserEsp (initThread L m t stack function true) stack userEsp) t stack := by
  have hsize : kernelStackSize = 8192 := rfl
  simp only [initThread, if_true, setUserEsp, initialEsp_eq, switchStackSize]
  generalize hm₁ : store (memset m stack 0 kernelStackSize) t (BitVec.ofNat 32 (stack + 8088)) = m₁
  generalize hm₂ : storeWords m₁ (stack + 8088) [0, 0, 0, 0, 0, 0, 0, L.kernelThread] = m₂
  generalize hm₃ : store (store m₂ (stack + 8088 + 36) function) (stack + 8088 + 28)
    (L.addr .switchToUserMode 0) = m₃
  generalize hm₄ : storeWords m₃ (stack + 8088 + 40) [selectorUData.setWidth 32, 0, 0, 0, 0, 0,
    0, 0, 0] = m₄
  generalize hm₅ : storeWords m₄ (stack + 8088 + 40 + 44) [function, selectorUCode.setWidth 32,
    initialFlags] = m₅
  generalize hm₆ : store (store m₅ (stack + 8088 + 40 + 60) (selectorUData.setWidth 32))
    (stack + 8088 + 40 + 56) userEsp = m₆
  -- each part of the stack is left alone by what is stored after it
  have h12 : ∀ lo hi, hi ≤ stack + 8088 ∨ stack + 8120 ≤ lo → SameOn m₁ m₂ lo hi := fun lo hi h =>
    hm₂ ▸ sameOn_storeWords (by simp only [List.length_cons, List.length_nil]; omega)
  have h23 : ∀ lo hi, hi ≤ stack + 8116 ∨ stack + 8128 ≤ lo → SameOn m₂ m₃ lo hi := fun lo hi h =>
    hm₃ ▸ (sameOn_store (by omega)).trans (sameOn_store (by omega))
  have h34 : ∀ lo hi, hi ≤ stack + 8128 ∨ stack + 8164 ≤ lo → SameOn m₃ m₄ lo hi := fun lo hi h =>
    hm₄ ▸ sameOn_storeWords (by simp only [List.length_cons, List.length_nil]; omega)
  have h45 : ∀ lo hi, hi ≤ stack + 8172 ∨ stack + 8184 ≤ lo → SameOn m₄ m₅ lo hi := fun lo hi h =>
    hm₅ ▸ sameOn_storeWords (by simp only [List.length_cons, List.length_nil]; omega)
  have h56 : ∀ lo hi, hi ≤ stack + 8184 ∨ stack + 8192 ≤ lo → SameOn m₅ m₆ lo hi := fun lo hi h =>
    hm₆ ▸ (sameOn_store (by omega)).trans (sameOn_store (by omega))
  have hlast : ∀ lo hi, hi ≤ stack + 8128 ∨ stack + 8192 ≤ lo → SameOn m₃ m₆ lo hi := fun lo hi h =>
    ((h34 lo hi (by omega)).trans (h45 lo hi (by omega))).trans (h56 lo hi (by omega))
  have hall : ∀ lo hi, hi ≤ stack + 8088 ∨ stack + 8192 ≤ lo → SameOn m₁ m₆ lo hi := fun lo hi h =>
    ((h12 lo hi (by omega)).trans (h23 lo hi (by omega))).trans (hlast lo hi (by omega))
  have hregs : Words m₆ (stack + 8128) [selectorUData.setWidth 32, 0, 0, 0, 0, 0, 0, 0, 0] := by
    have hwords : Words m₄ (stack + 8128) [selectorUData.setWidth 32, 0, 0, 0, 0, 0, 0, 0, 0] :=
      hm₄ ▸ words_storeWords
    exact hwords.congr (((h45 _ _ (by simp only [List.length_cons, List.length_nil]; omega))).trans
      (h56 _ _ (by simp only [List.length_cons, List.length_nil]; omega)))
  have hcode : Words m₆ (stack + 8172) [function, selectorUCode.setWidth 32, initialFlags] := by
    have hwords : Words m₅ (stack + 8172) [function, selectorUCode.setWidth 32, initialFlags] :=
      hm₅ ▸ words_storeWords
    exact hwords.congr (h56 _ _ (by simp only [List.length_cons, List.length_nil]; omega))
  have hzero : ∀ b, stack + 8164 ≤ b → b + 4 ≤ stack + 8172 → load m₆ b = 0 := fun b hb hb' => by
    have hsame : SameOn m₁ m₆ b (b + 4) := ((((h12 _ _ (by omega)).trans (h23 _ _ (by omega))).trans
      (h34 _ _ (by omega))).trans (h45 _ _ (by omega))).trans (h56 _ _ (by omega))
    rw [load_congr hsame, ← hm₁, load_store_of_ne (by omega), load_memset (by omega)]
  refine ⟨?_, ?_, ?_, fun z hz hz' => ?_⟩
  · rw [load_congr (hall _ _ (by omega)), ← hm₁, load_store]
  · have hpops : Words m₂ (stack + 8088) [0, 0, 0, 0, 0, 0, 0, L.kernelThread] := hm₂ ▸ words_storeWords
    obtain ⟨h1, h2, h3, h4, h5, h6, h7, -⟩ := hpops
    have hold : ∀ b w, b + 4 ≤ stack + 8116 → load m₂ b = w → load m₆ b = w := fun b w hb hw =>
      (load_congr ((h23 _ _ (by omega)).trans (hlast _ _ (by omega)))).trans hw
    have hentry : load m₆ (stack + 8088 + 28) = L.addr .switchToUserMode 0 := by
      rw [load_congr (hlast _ _ (by omega)), ← hm₃, load_store]
    exact ⟨hold _ _ (by omega) h1, hold _ _ (by omega) h2, hold _ _ (by omega) h3,
      hold _ _ (by omega) h4,
      hold _ _ (by omega) h5, hold _ _ (by omega) h6, hold _ _ (by omega) h7, hentry, trivial⟩
  · obtain ⟨h1, h2, h3, h4, h5, h6, h7, h8, h9, -⟩ := hregs
    obtain ⟨g1, g2, g3, -⟩ := hcode
    have hesp : load m₆ (stack + 8128 + 56) = userEsp := by
      rw [← hm₆, load_store]
    have hss : load m₆ (stack + 8128 + 60) = selectorUData.setWidth 32 := by
      rw [← hm₆, load_store_of_ne (by omega), load_store]
    ext1
    · exact h1
    · exact h2
    · exact h3
    · exact h4
    · exact h5
    · exact h6
    · exact h7
    · exact h8
    · exact h9
    · exact hzero _ (by omega) (by omega)
    · exact hzero _ (by omega) (by omega)
    · exact g1
    · exact g2
    · exact g3
    · exact hesp
    · exact hss
  · rw [hall z (z + 1) (by omega) z (by omega) (by omega), ← hm₁, store_outside (by omega),
      memset_outside (by omega)]

theorem waiting_userThread (hown : t + 4 ≤ stack ∨ stack + kernelStackSize ≤ t)
    (hend : stack + kernelStackSize < 2 ^ 32) :
    Waiting L (setUserEsp (initThread L m t stack function true) stack userEsp) t stack (stack +
      kernelStackSize)
      [⟨.fresh, userStart function userEsp, m₀, none⟩] []
      { kernelStart L (stack + kernelStackSize) with eip := L.addr .switchToUserMode 0 }
      (setUserEsp (initThread L m t stack function true) stack userEsp) := by
  obtain ⟨hk, hwords, hparams, -⟩ :=
    initThread_user L m function userEsp hown
  have hsize : kernelStackSize = 8192 := rfl
  have hesp : (kernelStart L (stack + kernelStackSize)).esp = BitVec.ofNat 32 (stack + 8120) := by
    rw [kernelStart, hsize, show stack + 8192 - 72 = stack + 8120 by omega]
  have hheld : Held (setUserEsp (initThread L m t stack function true) stack userEsp)
    (stack + kernelStackSize)
      ⟨.fresh, userStart function userEsp, m₀, none⟩ (stack + 8120 + 8) := by
    have hu : (userStart function userEsp).user = true := by
      simp [userStart, Cpu.user, selectorUCode]
    refine ⟨?_, fun _ => by omega, fun hu' => ?_, by omega, by omega, fun hu' => ?_, rfl,
      fun err herr => by simp at herr⟩
    · rw [show stack + 8120 + 8 = stack + 8128 by omega, hparams]
      exact ⟨rfl, rfl, rfl, rfl, rfl, rfl, rfl, rfl, fun v err h => by simp at h, rfl, rfl, rfl,
        fun _ => ⟨rfl, rfl⟩⟩
    · rw [hu] at hu'
      cases hu'
    · rw [hu] at hu'
      cases hu'
  refine waiting_initial hend hk hwords hesp rfl rfl rfl rfl fun e =>
    ⟨[], .exit rfl rfl ?_, fun hu' => ?_, fun v y hy => ?_⟩
  · exact unwinds_switchToUserMode hheld hend rfl hesp rfl rfl
  · simp [userStart, Cpu.user, selectorUCode] at hu'
  · obtain rfl := Option.some.inj hy
    exact ⟨rfl, rfl, .inl (by simp [userStart, Cpu.user, selectorUCode])⟩

/-! ## `fork_crt_thread` -/

theorem unwinds_room (h : Unwinds L.code m top (AtExit L m top f) x) : x.esp.toNat + 12 ≤ top := by
  induction h with
  | done h =>
    cases h with
    | schedule heip hds hheld horigin hfork =>
      have hinside := hheld.inside
      omega
    | iret n hcode hresumed huser hkernel hroom => exact hroom
  | step hcode hpops hroom hup h ih => omega

theorem resumed_some (f : Frame) : ∃ y, Frame.resumed { f with result := some 0 } = some y := by
  obtain ⟨origin, cpu, mem, result⟩ := f
  cases origin with
  | trap v err => cases v <;> exact ⟨_, rfl⟩
  | fresh => exact ⟨_, rfl⟩
  | fork => exact ⟨_, rfl⟩

/-- If the outermost call of a stub has been made at the top of the stack, then on the way in from user mode. -/
theorem outermost (h : Live L m top fs calls x)
    (hcalls : calls.getLast? = some (top - interruptStackSize - 4))
    (htop : kernelStackSize ≤ top) :
    ∃ f, fs.getLast? = some f ∧ f.cpu.user = true ∧ Held m top f (top - interruptStackSize) := by
  have hsize : kernelStackSize = 8192 := rfl
  have hsize' : interruptStackSize = 64 := rfl
  induction fs generalizing calls x with
  | nil =>
    rw [h.1] at hcalls
    cases hcalls
  | cons f fs ih =>
    obtain ⟨rest, hentered, hstack, hlive⟩ := h
    obtain ⟨y, hy⟩ := resumed_some f
    have htail := hlive 0 y hy
    have hinner : rest.getLast? = some (top - interruptStackSize - 4) →
        ∃ g, (f :: fs).getLast? = some g ∧ g.cpu.user = true ∧
        Held m top g (top - interruptStackSize) := by
      intro hrest
      obtain ⟨g, hg, hresult⟩ := ih htail hrest
      refine ⟨g, ?_, hresult⟩
      rw [List.getLast?_cons, hg]
      rfl
    cases hentered with
    | exit hcs hss hunwinds => exact hinner hcalls
    | c slot hcode hslot hreturns hheld =>
      cases rest with
      | cons slot' rest =>
        refine hinner ?_
        rwa [List.getLast?_cons_cons] at hcalls
      | nil =>
        obtain rfl : slot = top - interruptStackSize - 4 := by simpa using hcalls
        have haddr : top - interruptStackSize - 4 + 4 = top - interruptStackSize := by omega
        rw [haddr] at hheld
        have hfu : f.cpu.user = true := by
          by_contra hfu
          have hfu' : f.cpu.user = false := by simpa using hfu
          have hfesp := hheld.esp hfu'
          have hyesp := resumed_esp hy
          have hyu : y.user = false := (resumed_user hy).trans hfu'
          -- no context lies so close to the top
          cases fs with
          | nil =>
            obtain ⟨-, -, huser | ⟨-, hroom⟩⟩ := htail
            · rw [hyu] at huser
              cases huser
            · rw [hyesp] at hroom
              simp only [] at hroom
              omega
          | cons g gs =>
            obtain ⟨rest', hentered', -⟩ := htail
            generalize hcalls' : ([] : List Nat) = calls' at hentered'
            cases hentered' with
            | c => cases hcalls'
            | exit hcs hss hunwinds =>
              have hroom := unwinds_room hunwinds
              rw [hyesp] at hroom
              simp only [] at hroom
              omega
        obtain ⟨rfl, -⟩ := htail.user ((resumed_user hy).trans hfu)
        exact ⟨f, rfl, hfu, hheld⟩

theorem load_memcpy {n src j : Nat} (h : j + 4 ≤ n) :
    load (memcpy m old a src n) (a + j) = load old (src + j) := by
  have hbyte : ∀ i < 4, memcpy m old a src n (a + j + i) = old (src + j + i) := fun i hi => by
    rw [memcpy, if_pos (by omega), show src + (a + j + i - a) = src + j + i by omega]
  have h0 : memcpy m old a src n (a + j) = old (src + j) := hbyte 0 (by omega)
  rw [load, read32, h0, hbyte 1 (by omega), hbyte 2 (by omega), hbyte 3 (by omega), load, read32]

theorem outside_fork {crtStack : Nat} : Outside m (forkCrtThread L m old crtStack t stack) t stack := by
  have hsize : kernelStackSize = 8192 := rfl
  intro z hz hz'
  simp only [forkCrtThread, initialEsp_eq]
  rw [store_outside (by omega), store_outside (by omega), memcpy_outside (by omega)]

/-- The forked thread waits in a context from which it goes on like its parent, but with zero. -/
theorem waiting_fork {crtStack : Nat} (hown : t + 4 ≤ stack ∨ stack + kernelStackSize ≤ t)
    (hend : stack + kernelStackSize < 2 ^ 32) (hu : f.cpu.user = true)
    (hheld : Held m (crtStack + kernelStackSize) f (crtStack + kernelStackSize - interruptStackSize))
    (hold : SameOn m old (crtStack + kernelStackSize - interruptStackSize) (crtStack +
      kernelStackSize)) :
    Waiting L (forkCrtThread L m old crtStack t stack) t stack (stack + kernelStackSize) [⟨.fork,
      f.cpu, m₀, none⟩] []
      (switchStack (forkCrtThread L m old crtStack t stack) (stack +
        8088)) (forkCrtThread L m old crtStack t stack) := by
  have hsize : kernelStackSize = 8192 := rfl
  have hsize' : interruptStackSize = 64 := rfl
  have hshadow := hheld.shadow
  have hk : load (forkCrtThread L m old crtStack t stack) t = BitVec.ofNat 32 (initialEsp stack) := by
    simp only [forkCrtThread]
    rw [load_store_of_ne (by rw [initialEsp_eq]; omega), load_store]
  have hentry : load (forkCrtThread L m old crtStack t stack) (stack + 8088 + 28) =
    L.addr .syscallForkExit 0 := by
    simp only [forkCrtThread, initialEsp_eq]
    rw [load_store]
  -- the saved context has been copied
  have hcopy : ∀ j, j + 4 ≤ 64 → load (forkCrtThread L m old crtStack t stack) (stack + 8128 + j) =
      load m (crtStack + 8128 + j) := fun j hj => by
    simp only [forkCrtThread, initialEsp_eq]
    rw [load_store_of_ne (by omega), load_store_of_ne (by omega), Nat.add_assoc,
      load_memcpy (by omega), ← Nat.add_assoc,
      load_congr (hold.mono (by omega) (by omega))]
  have hparams : isrParams (forkCrtThread L m old crtStack t stack) (stack + 8128) =
    isrParams m (crtStack + 8128) := by
    have hcopy0 : load (forkCrtThread L m old crtStack t stack) (stack + 8128) =
      load m (crtStack + 8128) :=
      hcopy 0 (by omega)
    simp only [isrParams, hcopy0, hcopy 4 (by omega), hcopy 8 (by omega), hcopy 12 (by omega),
      hcopy 16 (by omega),
      hcopy 20 (by omega), hcopy 24 (by omega), hcopy 28 (by omega), hcopy 32 (by omega),
      hcopy 36 (by omega),
      hcopy 40 (by omega), hcopy 44 (by omega), hcopy 48 (by omega), hcopy 52 (by omega),
      hcopy 56 (by omega),
      hcopy 60 (by omega)]
  have hheld' : Held (forkCrtThread L m old crtStack t stack) (stack + kernelStackSize) ⟨.fork,
    f.cpu, m₀, none⟩
      (stack + 8120 + 8) := by
    have hholds := hheld.params
    rw [show crtStack + kernelStackSize - interruptStackSize = crtStack + 8128 by omega] at hholds
    refine ⟨?_, fun _ => by omega, fun hu' => ?_, by omega, by omega, fun hu' => ?_, hshadow,
      fun err herr => by simp at herr⟩
    · rw [show stack + 8120 + 8 = stack + 8128 by omega, hparams]
      exact ⟨hholds.ds, hholds.edi, hholds.esi, hholds.ebp, hholds.ebx, hholds.edx,
        hholds.ecx, hholds.eax,
        fun v err h => by simp at h, hholds.eip, hholds.cs, hholds.eflags, hholds.user⟩
    · rw [hu] at hu'
      cases hu'
    · rw [hu] at hu'
      cases hu'
  refine waiting_initial hend hk ?_ ?_ rfl rfl rfl rfl fun e =>
    ⟨[], .exit rfl rfl ?_, fun hu' => ?_, fun v y hy => ?_⟩
  · rw [initialEsp_eq]
    exact ⟨rfl, rfl, rfl, rfl, rfl, rfl, rfl, rfl, trivial⟩
  · rw [switchStack, show stack + 8088 + 32 = stack + 8120 by omega]
  · exact unwinds_syscallForkExit hheld' hend hentry (by simp only [switchStack]) rfl rfl
  · rw [hu] at hu'
    cases hu'
  · obtain rfl := Option.some.inj hy
    exact ⟨rfl, hshadow, .inl hu⟩

/-! ## The steps that start a thread -/

theorem agree_startKernel (hs : Stable L s c) (hC : s.InC L) (hfresh : s.Fresh t stack) :
    ∃ b, CStep L c
        (.startKernel t (stack +
          kernelStackSize) function (initThread L s.mem t stack function false)) b ∧
      Agree L (s.start t stack (initThread L s.mem t stack function false)) b := by
  obtain ⟨-, -, hfunction, hout⟩ :=
    initThread_common L s.mem function hfresh.own
  refine ⟨_, .startKernel c t _ function _ ?_,
    agree_start hs hC hfresh hout (waiting_kernelThread hfresh.own hfresh.stackEnd)⟩
  rw [initialEsp_eq] at hfunction
  exact hfunction

theorem agree_startUser (hs : Stable L s c) (hC : s.InC L) (hfresh : s.Fresh t stack) :
    ∃ b, CStep L c
        (.startUser t (stack + kernelStackSize) function userEsp
          (setUserEsp (initThread L s.mem t stack function true) stack userEsp)) b ∧
      Agree L (s.start t stack (setUserEsp (initThread L s.mem t stack function true) stack userEsp)) b := by
  obtain ⟨-, -, -, hout⟩ :=
    initThread_user L s.mem function userEsp hfresh.own
  exact ⟨_, .startUser c t _ function userEsp _ _,
    agree_start hs hC hfresh hout (waiting_userThread hfresh.own hfresh.stackEnd)⟩

theorem agree_fork (hs : Stable L s c) (hC : s.InC L) (hfresh : s.Fresh t stack)
    (hcall : (s.calls s.crt).getLast? = some (s.top s.crt - interruptStackSize - 4))
    (hold : SameOn s.mem old (s.top s.crt - interruptStackSize) (s.top s.crt)) :
    ∃ b, CStep L c
        (.fork t (stack +
          kernelStackSize) (forkCrtThread L s.mem old (s.kernelStack s.crt) t stack)) b ∧
      Agree L (s.start t stack (forkCrtThread L s.mem old (s.kernelStack s.crt) t stack)) b := by
  obtain ⟨f, hlast, hu, hheld⟩ := outermost hs.active hcall (Nat.le_add_left _ _)
  exact ⟨_, .fork c t _ f _ _ (by rw [hs.crt]; exact hlast) hu,
    agree_start hs hC hfresh outside_fork (waiting_fork hfresh.own hfresh.stackEnd hu hheld hold)⟩

end LuckOS.TrapStart
