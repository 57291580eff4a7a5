import LuckOS.TrapExit

/-!
# C code and context switches

C code keeps what the threads need. `context_switch` saves the context of its caller, and
`resume_thread` goes on with the context that the next thread has left.
-/

namespace LuckOS.TrapSwitch

open ByteMemory X86 TrapCode TrapMachine ThreadContexts TrapInvariant TrapEntry TrapExit Runs

variable {L : Layout} {s : Machine} {c : Contexts} {x p : Cpu} {m m₀ : Memory} {t next : Nat}
  {n ra : Dword}

/-! ## User code and C code -/

theorem agree_user (hs : Stable L s c) (hu : s.cpu.user = true) (hcs : x.cs = s.cpu.cs)
    (hshadow : x.shadow = false) :
    Agree L { s with cpu := x } c := by
  have hxu : x.user = true := by rw [Cpu.user, hcs]; exact hu
  obtain ⟨hframes, hcalls⟩ := hs.active.user hu
  refine .done ⟨hs.crt, hs.crtLive, hs.tops, hs.regions, ?_, ?_, hs.waiting⟩
  · rw [hframes, hcalls]
    exact ⟨rfl, hshadow, .inl hxu⟩
  · refine hs.esp0.imp id fun honly => ?_
    rw [honly.1] at hu
    cases hu

theorem bound_eq : s.bound = callBound (s.top s.crt) (s.calls s.crt) := by
  rw [Machine.bound]
  cases s.calls s.crt <;> rfl

theorem agree_kernel (hs : Stable L s c) (hC : s.InC L) (h : s.CEffect L x m) :
    Agree L { s with cpu := x, mem := m } c := by
  have hcode := hs.active.codeC hC.1 hC.2
  have hx : CodeC L x := ⟨h.eip, h.cs.trans hcode.cs, h.ds.trans hcode.ds,
    h.ss.trans hcode.ss, h.shadow⟩
  have hstackEnd : s.top s.crt < 2 ^ 32 := hs.regions.stackEnd s.crt hs.crtLive
  have htop : ∀ u, s.top u = s.kernelStack u + kernelStackSize := fun _ => rfl
  have hbound := (hs.active.bound_lt hcode).1
  -- a byte of another stack or of a control block belongs to a thread and does not lie in the part of the current one
  have hkept : ∀ t ∈ s.live, ∀ z, (s.kernelStack t ≤ z ∧ z < s.top t) ∨ (t ≤ z ∧ z < t + 4) →
      ¬(s.kernelStack s.crt ≤ z ∧ z < s.bound) → m z = s.mem z := by
    intro t ht z hz hown
    refine h.memory z fun hwritable => ?_
    rcases hwritable with hlow | hother
    · exact hown hlow
    · exact hz.elim (hother t ht).1 (hother t ht).2
  refine .done ⟨hs.crt, hs.crtLive, hs.tops, hs.regions, ?_, ?_, fun t ht hne => ?_⟩
  · refine hs.active.kernel hcode hx (by rw [← bound_eq]; exact h.high) hstackEnd fun z hz hz' => ?_
    rw [← bound_eq] at hz hbound
    have hlow := h.low
    have hhigh := h.high
    exact hkept s.crt hs.crtLive z (.inl ⟨by omega, hz'⟩) (by omega)
  · exact hs.esp0.imp id fun honly => ⟨user_of_cs hx.cs, honly.2⟩
  · obtain ⟨p, m₀, hparked, hwaiting⟩ := hs.waiting t ht hne
    have hapart := hs.regions.apart t ht s.crt hs.crtLive hne
    have hword := hs.regions.stackWord s.crt hs.crtLive t ht
    have htopt := htop t
    have htopc := htop s.crt
    rw [← bound_eq] at hbound
    exact ⟨p, m₀, hparked, hwaiting.congr
      (fun z hz hz' => hkept t ht z (.inl ⟨hz, hz'⟩) (by omega))
      (fun z hz hz' => hkept t ht z (.inr ⟨hz, hz'⟩) (by omega))⟩

theorem agree_destroy (hs : Stable L s c) (ht : t ≠ s.crt) :
    Agree L { s with live := s.live.erase t } c := by
  have hmem : ∀ u ∈ s.live.erase t, u ∈ s.live := fun u hu => List.mem_of_mem_erase hu
  refine .done ⟨hs.crt, (List.mem_erase_of_ne ht.symm).mpr hs.crtLive,
    fun u hu => hs.tops u (hmem u hu), ?_, hs.active, hs.esp0,
    fun u hu => hs.waiting u (hmem u hu)⟩
  have hregions := hs.regions
  exact ⟨fun u hu => hregions.wordEnd u (hmem u hu), fun u hu => hregions.stackEnd u (hmem u hu),
    fun u hu v hv => hregions.apart u (hmem u hu) v (hmem v hv),
    fun u hu v hv => hregions.stackWord u (hmem u hu) v (hmem v hv),
    fun u hu v hv => hregions.words u (hmem u hu) v (hmem v hv)⟩

/-! ## Resuming a thread -/

/-- The instructions of `resume_thread` before `sti`. -/
def popAll : List Instr := [.pop .edi, .pop .esi, .pop .ebp, .pop .ebx, .pop .edx, .pop .ecx, .pop .eax]

theorem straight_popAll : ∀ i ∈ popAll, i.straight = true := by decide

/-- The registers of `p` in the place of those of `x`. -/
def withRegs (x p : Cpu) (esp : Nat) : Cpu :=
  { x with
    edi := p.edi, esi := p.esi, ebp := p.ebp, ebx := p.ebx, edx := p.edx, ecx := p.ecx, eax := p.eax
    esp := BitVec.ofNat 32 esp }

theorem execs_popAll {st : State} {k : Nat} (hesp : st.cpu.esp = BitVec.ofNat 32 k)
    (hk : k + 28 < 2 ^ 32)
    (hwords : Words st.mem k [p.edi, p.esi, p.ebp, p.ebx, p.edx, p.ecx, p.eax, p.eip]) :
    execs popAll st = ⟨withRegs st.cpu p (k + 28), st.mem⟩ := by
  obtain ⟨hedi, hesi, hebp, hebx, hedx, hecx, heax, -⟩ := hwords
  have hnat : ∀ j, j ≤ 28 → (BitVec.ofNat 32 (k + j)).toNat = k + j := fun j hj => by
    rw [BitVec.toNat_ofNat, Nat.mod_eq_of_lt (by omega)]
  have hnat0 : (BitVec.ofNat 32 k).toNat = k := hnat 0 (Nat.zero_le 28)
  simp only [Nat.add_assoc, Nat.reduceAdd] at hedi hesi hebp hebx hedx hecx heax
  simp only [popAll, execs, List.foldl_cons, List.foldl_nil, exec, State.word, State.drop, Cpu.set,
    withRegs, hesp,
    BitVec.ofNat_add_ofNat, Nat.mul_zero, Nat.mul_one, Nat.add_zero, Nat.add_assoc, Nat.reduceAdd,
    hnat0, hnat 4 (by omega),
    hnat 8 (by omega), hnat 12 (by omega), hnat 16 (by omega), hnat 20 (by omega),
    hnat 24 (by omega), hedi, hesi, hebp, hebx,
    hedx, hecx, heax]

/-- The return of `resume_thread` loads the rest of the context. -/
theorem after_ret {st : State} {k : Nat} {fl : Dword} {b : Bool}
    (hcpu : st.cpu = { withRegs x p (k + 28) with eip := ra, eflags := fl, shadow := b })
    (hk : p.esp.toNat = k + 32)
    (heip : load st.mem (k + 28) = p.eip) (hcs : x.cs = p.cs) (hds : x.ds = p.ds) (hss : x.ss = p.ss)
    (hshadow : p.shadow = false) : after st .ret n = ⟨{ p with eflags := fl }, st.mem⟩ := by
  have hlt := p.esp.isLt
  have hnat : (BitVec.ofNat 32 (k + 28)).toNat =
    k + 28 := by rw [BitVec.toNat_ofNat, Nat.mod_eq_of_lt (by omega)]
  have hesp : BitVec.ofNat 32 (k + 28 + 4) = p.esp := by
    rw [show k + 28 + 4 = p.esp.toNat by omega, BitVec.ofNat_toNat, BitVec.setWidth_eq]
  simp only [after, exec, State.drop, State.word, hcpu, withRegs, hnat, Nat.mul_zero, Nat.add_zero,
    heip, Nat.mul_one,
    BitVec.ofNat_add_ofNat, hesp, hcs, hds, hss, hshadow]

/-- The thread whose `kernel_esp` has been loaded goes on where it has left. -/
theorem agree_resume (hcrt : c.crt = s.crt) (hcrtLive : s.crt ∈ s.live)
    (htops : ∀ t ∈ s.live, c.top t = s.top t)
    (hregions : Regions s.live s.kernelStack)
    (hall : ∀ t ∈ s.live, ∃ p m₀, c.parked t = some (p, m₀) ∧
      Waiting L s.mem t (s.kernelStack t) (s.top t) (c.frames t) (s.calls t) p m₀)
    (hesp0 : s.esp0.toNat = s.top s.crt ∨ ∀ f ∈ c.frames s.crt, f.cpu.user = false)
    (heip : s.cpu.eip = L.addr .contextSwitch 11) (hesp : s.cpu.esp = load s.mem s.crt)
    (hcs : s.cpu.cs = selectorKCode) (hds : s.cpu.ds = selectorKData) (hss : s.cpu.ss = selectorKData)
    (hoff : s.cpu.iflag = false) (hshadow : s.cpu.shadow = false) : Agree L s c := by
  obtain ⟨p, m₀, hparked, hwaiting⟩ := hall s.crt hcrtLive
  have hstackEnd : s.top s.crt < 2 ^ 32 := hregions.stackEnd s.crt hcrtLive
  have hlow := hwaiting.low
  have hhigh := hwaiting.high
  have hblock : instrs L.toLabels .contextSwitch = contextSwitch ++ (popAll ++ [.sti, .ret]) := rfl
  refine agree_block (L.block hblock) heip hshadow straight_popAll (user_of_cs hcs) hoff ?_
  rw [execs_popAll (hesp.trans hwaiting.kernelEsp) (by omega) hwaiting.words]
  have hsti : L.code (L.addr .contextSwitch 18) = some (.sti, L.addr .contextSwitch 19) :=
    L.code_addr rfl
  have hret : L.code (L.addr .contextSwitch 19) = some (.ret, L.addr .contextSwitch 20) :=
    L.code_addr rfl
  refine agree_silent (user_of_cs hcs) (interruptible_of_off hoff) hsti (by simp) (by simp) (by simp) ?_
  -- the instruction after `sti` is not interrupted either
  let y : Cpu := { withRegs s.cpu p (p.esp.toNat - 32 + 28) with
    eip := L.addr .contextSwitch 19, eflags := s.cpu.eflags ||| 0x200#32, shadow := !s.cpu.iflag }
  have hint : y.interruptible = false := by
    simp only [y, Cpu.interruptible, hoff, Bool.not_false, Bool.not_true, Bool.and_false]
  have hafter : after ⟨y, s.mem⟩ .ret (L.addr .contextSwitch 20) =
    ⟨{ p with eflags := s.cpu.eflags ||| 0x200#32 }, s.mem⟩ :=
    after_ret (k := p.esp.toNat - 32) rfl (by omega) (hwaiting.words.get (k := 7) (by simp))
      (hcs.trans hwaiting.cs.symm)
      (hds.trans hwaiting.ds.symm) (hss.trans hwaiting.ss.symm) hwaiting.shadow
  have hstep := stubStep_eq (L := L) (s := { s with cpu := y }) (user_of_cs hcs) hret
  rw [hafter, calling_same (by simp), Function.update_eq_self] at hstep
  refine .force (forced_stub hstep hint)
    (.switched c p _ m₀ s.mem (by rw [hcrt]; exact hparked) ⟨rfl, ?_, ?_⟩) (.done ?_)
  · simp [Cpu.iflag]
  · rw [hcrt, htops s.crt hcrtLive]
    exact hwaiting.snapshot
  · refine ⟨hcrt, hcrtLive, htops, hregions, hwaiting.live _, ?_, fun t ht hne => ?_⟩
    · exact hesp0.imp id fun hkernel => ⟨user_of_cs hwaiting.cs, hkernel⟩
    · rw [hcrt]
      simp only [Function.update_of_ne hne]
      exact hall t ht

/-! ## Leaving a thread -/

/-- The registers which `context_switch` pushes. -/
def switchPushes : List Instr := [.push .eax, .push .ecx, .push .edx, .push .ebx, .push .ebp,
      .push .esi, .push .edi]

theorem execs_switchPushes (st : State) (hroom : 28 ≤ st.cpu.esp.toNat) :
    Pushed st.mem st.cpu.esp.toNat [st.cpu.edi, st.cpu.esi, st.cpu.ebp, st.cpu.ebx, st.cpu.edx,
      st.cpu.ecx, st.cpu.eax]
        (st.cpu.esp - 28) (execs switchPushes st).mem ∧
      (execs switchPushes st).cpu = { st.cpu with esp := st.cpu.esp - 28 } := by
  have h0 : Pushed st.mem st.cpu.esp.toNat [] st.cpu.esp st.mem := .nil rfl
  have hregs : Pushed st.mem st.cpu.esp.toNat ([st.cpu.edi, st.cpu.esi, st.cpu.ebp, st.cpu.ebx, st.cpu.edx, st.cpu.ecx,
      st.cpu.eax] ++ []) _ _ :=
    h0.pushes [st.cpu.eax, st.cpu.ecx, st.cpu.edx, st.cpu.ebx, st.cpu.ebp, st.cpu.esi, st.cpu.edi]
      (by simp only [List.length_cons, List.length_nil]; omega)
  have hesp : st.cpu.esp - 4 - 4 - 4 - 4 - 4 - 4 - 4 = st.cpu.esp - 28 := by bv_omega
  have hexecs : execs switchPushes st = ⟨{ st.cpu with esp := st.cpu.esp - 4 - 4 - 4 - 4 - 4 - 4 - 4 },
      (execs switchPushes st).mem⟩ := by
    simp only [execs, switchPushes, List.foldl_cons, List.foldl_nil, exec, State.push, Cpu.get]
  constructor
  · rw [← hesp]
    simpa only [execs, switchPushes, List.foldl_cons, List.foldl_nil, exec, State.push, State.pushes, Cpu.get,
      List.append_nil] using hregs
  · rw [hexecs, hesp]

/-- The instructions of `context_switch` that exchange the stack pointers. -/
def exchange : List Instr := [.movLoad .eax .esp 32, .movStore .eax .esp, .movLoad .eax .esp 36,
      .movLoad .esp .eax 0]

theorem execs_exchange {st : State} {crt : Nat} {nextWord : Dword} (hcrt : crt < 2 ^ 32)
    (hfirst : load st.mem (st.cpu.esp + 32).toNat = BitVec.ofNat 32 crt)
    (hsecond : load (store st.mem crt st.cpu.esp) (st.cpu.esp + 36).toNat = nextWord) :
    execs exchange st =
      ⟨{ st.cpu with eax := nextWord, esp := load (store st.mem crt st.cpu.esp) nextWord.toNat },
        store st.mem crt st.cpu.esp⟩ := by
  have hnat : (BitVec.ofNat 32 crt).toNat = crt := by rw [BitVec.toNat_ofNat, Nat.mod_eq_of_lt hcrt]
  have hzero : nextWord + 0 = nextWord := by simp
  simp only [execs, exchange, List.foldl_cons, List.foldl_nil, exec, Cpu.get, Cpu.set, hfirst, hnat,
    hsecond, hzero]

theorem straight_switch : ∀ i ∈ switchPushes ++ exchange, i.straight = true := by decide

theorem execs_append {is js : List Instr} {st : State} :
    execs (is ++ js) st = execs js (execs is st) := by
  simp only [execs, List.foldl_append]

/-- A thread that has called `context_switch` waits in the context to which the call returns. -/
theorem waiting_switch {st : State} {m : Memory} {e : Nat} (hs : Stable L s c) (hC : s.InC L)
    (hra : L.loc ra = none)
    (he : s.cpu.esp.toNat = e) (hroom : s.kernelStack s.crt + 72 ≤ e)
    (hargs : Pushed s.mem e [ra, BitVec.ofNat 32 s.crt, BitVec.ofNat 32 next] st.cpu.esp st.mem)
    (hsaved : Pushed st.mem st.cpu.esp.toNat
      [s.cpu.edi, s.cpu.esi, s.cpu.ebp, s.cpu.ebx, s.cpu.edx, s.cpu.ecx,
        s.cpu.eax] (st.cpu.esp - 28) m) :
    Waiting L (store m s.crt (st.cpu.esp - 28)) s.crt (s.kernelStack s.crt) (s.top s.crt) (c.frames s.crt)
      (s.calls s.crt) { s.cpu with eip := ra, esp := s.cpu.esp - 8 } st.mem := by
  have hcode := hs.active.codeC hC.1 hC.2
  have hbound := hs.active.bound_lt hcode
  have hstackEnd : s.top s.crt < 2 ^ 32 := hs.regions.stackEnd s.crt hs.crtLive
  have hword := hs.regions.stackWord s.crt hs.crtLive s.crt hs.crtLive
  have htop : s.top s.crt = s.kernelStack s.crt + kernelStackSize := rfl
  have hextent := hargs.extent
  have hextent' := hsaved.extent
  simp only [List.length_cons, List.length_nil] at hextent hextent'
  have hesp8 : (s.cpu.esp - 8).toNat = e - 8 := by bv_omega
  have hall := hargs.append hsaved
  -- the word `kernel_esp` does not lie on the stack
  have hout : ∀ lo hi, s.kernelStack s.crt ≤ lo → hi ≤ s.top s.crt →
    SameOn m (store m s.crt (st.cpu.esp - 28)) lo hi :=
    fun lo hi hlo hhi => sameOn_store (by omega)
  refine ⟨?_, ?_, ?_, ?_, hcode.cs, hcode.ds, hcode.ss, hcode.shadow, ?_, fun fl => ?_⟩
  · rw [load_store]
    apply BitVec.eq_of_toNat_eq
    rw [BitVec.toNat_ofNat, hesp8, Nat.mod_eq_of_lt (by omega)]
    omega
  · rw [hesp8]
    omega
  · rw [hesp8]
    omega
  · have hwords : Words m (st.cpu.esp - 28).toNat
        [s.cpu.edi, s.cpu.esi, s.cpu.ebp, s.cpu.ebx, s.cpu.edx, s.cpu.ecx, s.cpu.eax, ra] := by
      obtain ⟨h1, h2, h3, h4, h5, h6, h7, h8, -⟩ := hall.words
      exact ⟨h1, h2, h3, h4, h5, h6, h7, h8, trivial⟩
    rw [hesp8, show e - 8 - 32 = (st.cpu.esp - 28).toNat by omega]
    exact hwords.congr (hout _ _ (by omega) (by simp only [List.length_cons, List.length_nil]; omega))
  · rw [hesp8]
    exact ((hsaved.above _).mono (by omega) (Nat.le_refl _)).trans (hout _ _ (by omega) (Nat.le_refl _))
  · refine hs.active.kernel hcode ⟨hra, hcode.cs, hcode.ds, hcode.ss, hcode.shadow⟩ ?_ hstackEnd ?_
    · simp only [hesp8]
      omega
    · exact ((hall.above _).mono (by omega) (Nat.le_refl _)).trans (hout _ _ (by omega) (Nat.le_refl _))

theorem agree_switch (hs : Stable L s c) (hC : s.InC L) (hoff : s.cpu.iflag = false)
    (hnext : next ∈ s.live)
    (hra : L.loc ra = none) (hroom : s.kernelStack s.crt + 72 ≤ s.cpu.esp.toNat) :
    ∃ b, CStep L c (.switch next { s.cpu with
      eip := ra, esp := s.cpu.esp - 8 } (s.callContextSwitch L next ra).mem) b ∧
      Agree L (s.callContextSwitch L next ra) b := by
  have hcrt := hs.crt
  have hcode := hs.active.codeC hC.1 hC.2
  have hbound := hs.active.bound_lt hcode
  have hstackEnd : s.top s.crt < 2 ^ 32 := hs.regions.stackEnd s.crt hs.crtLive
  have hwordEnd := hs.regions.wordEnd s.crt hs.crtLive
  have hword := hs.regions.stackWord s.crt hs.crtLive s.crt hs.crtLive
  have htop : ∀ t, s.top t = s.kernelStack t + kernelStackSize := fun _ => rfl
  have htopc := htop s.crt
  refine ⟨_, .switch c next _ _, ?_⟩
  let st : State := (s.callContextSwitch L next ra).toState
  have hargs : Pushed s.mem s.cpu.esp.toNat [ra, BitVec.ofNat 32 s.crt,
    BitVec.ofNat 32 next] st.cpu.esp st.mem :=
    (((Pushed.nil rfl).push (by simp only [List.length_nil]; omega) (BitVec.ofNat 32 next)).push
      (by simp only [List.length_cons, List.length_nil]; omega) (BitVec.ofNat 32 s.crt)).push
      (by simp only [List.length_cons, List.length_nil]; omega) ra
  have hextent := hargs.extent
  simp only [List.length_cons, List.length_nil] at hextent
  obtain ⟨hsaved, hcpu⟩ := execs_switchPushes st (by omega)
  generalize hst' : execs switchPushes st = st' at hsaved hcpu
  have hall := hargs.append hsaved
  have hextent' := hall.extent
  simp only [List.length_append, List.length_cons, List.length_nil] at hextent'
  have hfirst : load st'.mem (st'.cpu.esp + 32).toNat = BitVec.ofNat 32 s.crt := by
    have haddr : (st'.cpu.esp + 32).toNat = (st.cpu.esp - 28).toNat + 4 * 8 := by
      rw [hcpu]
      bv_omega
    rw [haddr]
    exact hall.words.get (k := 8) (by simp)
  have hsecond : load (store st'.mem s.crt st'.cpu.esp) (st'.cpu.esp + 36).toNat =
    BitVec.ofNat 32 next := by
    have haddr : (st'.cpu.esp + 36).toNat = (st.cpu.esp - 28).toNat + 4 * 9 := by
      rw [hcpu]
      bv_omega
    rw [haddr, load_store_of_ne (by omega)]
    exact hall.words.get (k := 9) (by simp)
  have hexecs : execs (switchPushes ++ exchange) st = ⟨{ st'.cpu with
      eax := BitVec.ofNat 32 next, esp := load (store st'.mem s.crt st'.cpu.esp) next },
        store st'.mem s.crt st'.cpu.esp⟩ := by
    have hnat : (BitVec.ofNat 32 next).toNat = next := by
      rw [BitVec.toNat_ofNat, Nat.mod_eq_of_lt (by have := hs.regions.wordEnd next hnext; omega)]
    rw [execs_append, hst', execs_exchange (by omega) hfirst hsecond, hnat]
  have hblock : instrs L.toLabels .contextSwitch =
    [] ++ ((switchPushes ++ exchange) ++ resumeThread) := rfl
  refine agree_block (L.block hblock) rfl hcode.shadow straight_switch (user_of_cs hcode.cs) hoff ?_
  have hesp' : st'.cpu.esp = st.cpu.esp - 28 := by rw [hcpu]
  rw [hexecs, hesp']
  have hsegs : st'.cpu.cs = selectorKCode ∧ st'.cpu.ds = selectorKData ∧
    st'.cpu.ss = selectorKData ∧ st'.cpu.iflag = false := by
    rw [hcpu]
    exact ⟨hcode.cs, hcode.ds, hcode.ss, hoff⟩
  refine agree_resume rfl hnext hs.tops hs.regions (fun t ht => ?_)
    (.inl ?_) rfl rfl hsegs.1 hsegs.2.1 hsegs.2.2.1
    hsegs.2.2.2 rfl
  · by_cases ht' : t = s.crt
    · subst ht'
      have hwaiting := waiting_switch hs hC hra rfl hroom hargs hsaved
      rw [hcrt]
      exact ⟨_, _, Function.update_self .., hwaiting⟩
    · rw [hcrt]
      simp only [Function.update_of_ne ht']
      refine hs.others _ (fun z hz hz' => ?_) t ht ht'
      rw [store, write32_of_ne (by omega)]
      by_cases hlow : z < (st.cpu.esp - 28).toNat
      · exact hall.below z (Nat.zero_le z) hlow
      · exact hall.above (z + 1) z (by omega) (by omega)
  · have htopn : s.top next < 2 ^ 32 := hs.regions.stackEnd next hnext
    have hnat : (BitVec.ofNat 32 (s.top next)).toNat = s.top next := by
      rw [BitVec.toNat_ofNat, Nat.mod_eq_of_lt htopn]
    exact hnat

end LuckOS.TrapSwitch
