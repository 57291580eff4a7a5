import LuckOS.TrapInvariant

/-!
# The way into the kernel

With interrupts disabled the instructions of a stub are forced. The entry stubs save the context
below the stack pointer, or below `esp0` on the way in from user mode, and call the handler.
-/

namespace LuckOS.TrapEntry

open ByteMemory X86 TrapCode TrapMachine ThreadContexts TrapInvariant Runs

variable {L : Layout} {s s' : Machine} {a b : Contexts} {e : Event} {i : Instr} {is : List Instr}
  {n w w' : Dword}
  {x y : Cpu} {m m' m₀ : Memory} {top base : Nat} {ws : List Dword} {f : Frame} {fs : List Frame}
    {calls : List Nat}

/-- The machine and the contexts agree, if need be after forced instructions. -/
def Agree (L : Layout) (s : Machine) (a : Contexts) : Prop :=
  Settles (Guarded Room (Step L)) (CStep L) (Stable L) s a

/-! ## Forced instructions -/

/-- The state after the instruction `i`. -/
def after (s : State) (i : Instr) (n : Dword) : State :=
  exec i { s with cpu := { s.cpu with eip := n, shadow := false } }

theorem stubStep_eq (hu : s.cpu.user = false) (hcode : L.code s.cpu.eip = some (i, n)) :
    stubStep L s = some (observe L s.toState (after s.toState i n) i,
      { s with
        toState := after s.toState i n
        calls := Function.update s.calls s.crt
          (calling (after s.toState i n) i (s.calls s.crt)) }) := by
  simp [stubStep, hu, fetch, hcode, after]

theorem stubStep_inv (h : stubStep L s = some (e, s')) :
    s.cpu.user = false ∧ ∃ i n, L.code s.cpu.eip = some (i, n) ∧
    e = observe L s.toState (after s.toState i n) i ∧
      s' = { s with
        toState := after s.toState i n
        calls := Function.update s.calls s.crt (calling (after s.toState i n) i (s.calls s.crt)) } := by
  by_cases hu : s.cpu.user = true
  · simp [stubStep, hu] at h
  · have hu' : s.cpu.user = false := by simpa using hu
    rw [stubStep, if_neg hu, Option.map_eq_some_iff] at h
    obtain ⟨p, hp, hpair⟩ := h
    rw [fetch, Option.map_eq_some_iff] at hp
    obtain ⟨q, hcode, rfl⟩ := hp
    obtain ⟨rfl, rfl⟩ := Prod.mk.inj hpair
    exact ⟨hu', q.1, q.2, hcode, rfl, rfl⟩

theorem loc_of_code (h : L.code w = some (i, n)) : L.loc w ≠ none := by
  intro hnone
  rw [L.code_eq_none hnone] at h
  cases h

theorem forced_stub (h : stubStep L s = some (e, s')) (hoff : s.cpu.interruptible = false) :
    Forced (Guarded Room (Step L)) s e s' := by
  obtain ⟨hu, i, n, hcode, -, -⟩ := stubStep_inv h
  have hloc := loc_of_code hcode
  intro e' t hstep
  obtain ⟨-, hstep⟩ := hstep
  cases hstep with
  | user x huser => rw [hu] at huser; cases huser
  | stub _ _ hstep =>
    rw [h] at hstep
    obtain ⟨rfl, rfl⟩ := Prod.mk.inj (Option.some.inj hstep)
    exact ⟨rfl, rfl⟩
  | trap v err hpossible =>
    obtain ⟨hshadow, ⟨hiflag, -⟩ | huser | hnone⟩ := hpossible
    · rw [Cpu.interruptible, hiflag, hshadow] at hoff
      cases hoff
    · rw [hu] at huser
      cases huser
    · exact absurd hnone hloc
  | kernel x m hC => exact absurd hC.2 hloc
  | ret slot slots hC => exact absurd hC.2 hloc
  | switch next ra hC => exact absurd hC.2 hloc
  | startKernel t stack function hC => exact absurd hC.2 hloc
  | startUser t stack function userEsp hC => exact absurd hC.2 hloc
  | fork t stack old hC => exact absurd hC.2 hloc
  | destroy t hC => exact absurd hC.2 hloc

theorem observe_silent {st st' : State} (hi : ∀ target, i ≠ .call target) (hret : i ≠ .ret)
    (hiret : i ≠ .iret) :
    observe L st st' i = .silent := by
  cases i with
  | call target => exact absurd rfl (hi target)
  | ret => exact absurd rfl hret
  | iret => exact absurd rfl hiret
  | push | pushImm | pop | pusha | popa | movImm | movLow | movLoad | movStore | movFromDs | movToSeg | add | jmp | cli |
    sti => rfl

theorem calling_same {st : State} (hi : ∀ target, i ≠ .call target) : calling st i calls = calls := by
  cases i with
  | call target => exact absurd rfl (hi target)
  | push | pushImm | pop | pusha | popa | movImm | movLow | movLoad | movStore | movFromDs | movToSeg | add | jmp | cli |
    sti | ret | iret => rfl

theorem interruptible_of_off (h : x.iflag = false) :
    x.interruptible = false := by rw [Cpu.interruptible, h, Bool.false_and]

/-- One instruction that is neither a call nor a return. -/
theorem agree_silent (hu : s.cpu.user = false) (hoff : s.cpu.interruptible = false)
    (hcode : L.code s.cpu.eip = some (i, n)) (hi : ∀ target, i ≠ .call target) (hret : i ≠ .ret)
    (hiret : i ≠ .iret)
    (h : Agree L { s with toState := after s.toState i n } a) : Agree L s a := by
  have hstep := stubStep_eq hu hcode
  rw [observe_silent hi hret hiret, calling_same hi, Function.update_eq_self] at hstep
  exact .force (forced_stub hstep hoff) (.silent a) h

theorem straight_ne (hi : i.straight = true) : (∀ target, i ≠ .call target) ∧ i ≠ .ret ∧ i ≠ .iret := by
  cases i with
  | add | jmp | call | ret | sti | iret => simp [Instr.straight] at hi
  | push | pushImm | pop | pusha | popa | movImm | movLow | movLoad | movStore | movFromDs | movToSeg | cli => simp

theorem execs_straight (st : State) (his : ∀ i ∈ is, i.straight = true) :
    execs is { st with cpu := { st.cpu with eip := n, shadow := false } } =
      { execs is st with cpu := { (execs is st).cpu with eip := n, shadow := false } } := by
  induction is generalizing st with
  | nil => rfl
  | cons i is ih =>
    simp only [execs, List.foldl_cons]
    rw [exec_straight (his i List.mem_cons_self)]
    exact ih _ fun j hj => his j (List.mem_cons_of_mem i hj)

/-- Straight code with interrupts disabled is executed as a whole. -/
theorem agree_block (hb : CodeAt L.code w is w') (hw : s.cpu.eip = w) (hshadow : s.cpu.shadow = false)
    (his : ∀ i ∈ is, i.straight = true) (hu : s.cpu.user = false) (hoff : s.cpu.iflag = false)
    (h : Agree L { s with
      toState := { execs is s.toState with
        cpu := { (execs is s.toState).cpu with eip := w', shadow := false } } } a) :
    Agree L s a := by
  induction hb generalizing s with
  | nil w =>
    have hself : { s.cpu with eip := w, shadow := false } = s.cpu := by rw [← hw, ← hshadow]
    simpa only [execs, List.foldl_nil, hself] using h
  | @cons w n w' i is hcode htail ih =>
    have hi := his i List.mem_cons_self
    obtain ⟨hcall, hret, hiret⟩ := straight_ne hi
    have hafter : after s.toState i n =
        { exec i s.toState with cpu := { (exec i s.toState).cpu with eip := n, shadow := false } } :=
      exec_straight hi false
    refine agree_silent hu (interruptible_of_off hoff) (by rw [hw]; exact hcode) hcall hret hiret ?_
    refine ih ?_ ?_ (fun j hj => his j (List.mem_cons_of_mem i hj)) ?_ ?_ ?_
    · rw [hafter]
    · rw [hafter]
    · rw [hafter]
      simpa only [Cpu.user, exec_straight_cs hi] using hu
    · rw [hafter]
      exact exec_straight_iflag hi hoff
    · simp only [execs, List.foldl_cons] at h
      rw [hafter]
      have hexecs := execs_straight (n := n) (exec i s.toState) fun j hj =>
        his j (List.mem_cons_of_mem i hj)
      simp only [execs] at hexecs ⊢
      rw [hexecs]
      exact h

/-! ## The saved context -/

/-- The words of a saved context, for a gate that has been passed with the error code `err`. -/
def contextWords (x : Cpu) (ds esp num err : Dword) : List Dword :=
  [ds, x.edi, x.esi, x.ebp, esp, x.ebx, x.edx, x.ecx, x.eax, num, err, x.eip, x.cs.setWidth 32,
    x.eflags] ++
    if x.user then [x.esp, x.ss.setWidth 32] else []

theorem setLow_setWidth {v : Selector} : (setLow w v).setWidth 16 = v := by
  apply BitVec.eq_of_getLsbD_eq
  intro i hi
  simp [setLow, hi]

theorem setWidth_setWidth {v : Selector} : (v.setWidth 32).setWidth 16 = v := by
  rw [BitVec.setWidth_setWidth_of_le _ (by decide), BitVec.setWidth_eq]

theorem holds_of_words {ds esp num err : Dword} {a : Nat} {v : Vector} {err' : Option Dword}
    (h : Words m a (contextWords x ds esp num err)) (hds : ds.setWidth 16 = x.ds)
    (hnum : num = v.number)
    (herr : err = err'.getD 0) : Holds (isrParams m a) ⟨.trap v err', x, m₀, none⟩ := by
  have hget : ∀ k (hk : k < (contextWords x ds esp num err).length),
    load m (a + 4 * k) = (contextWords x ds esp num err)[k] :=
    fun k hk => h.get hk
  have hlen : 14 ≤ (contextWords x ds esp num err).length := by simp [contextWords]
  have h0 : load m a = ds := h.1
  constructor
  · simp only [isrParams, h0, hds]
  · exact hget 1 (by omega)
  · exact hget 2 (by omega)
  · exact hget 3 (by omega)
  · exact hget 5 (by omega)
  · exact hget 6 (by omega)
  · exact hget 7 (by omega)
  · exact hget 8 (by omega)
  · intro v₁ err₁ horigin
    obtain ⟨rfl, rfl⟩ := Origin.trap.inj horigin
    exact ⟨(hget 9 (by omega)).trans hnum, (hget 10 (by omega)).trans herr⟩
  · exact hget 11 (by omega)
  · have hcs : load m (a + 48) = x.cs.setWidth 32 := hget 12 (by omega)
    simp only [isrParams, hcs, setWidth_setWidth]
  · exact hget 13 (by omega)
  · intro hu
    have hwords : contextWords x ds esp num err =
        [ds, x.edi, x.esi, x.ebp, esp, x.ebx, x.edx, x.ecx, x.eax, num, err, x.eip,
          x.cs.setWidth 32, x.eflags, x.esp,
          x.ss.setWidth 32] := by
      simp only [contextWords]
      rw [if_pos hu]
      rfl
    rw [hwords] at h
    have hesp : load m (a + 56) = x.esp := h.get (k := 14) (by simp)
    have hss : load m (a + 60) = x.ss.setWidth 32 := h.get (k := 15) (by simp)
    simp only [isrParams, hesp, hss, setWidth_setWidth, and_self]

/-- In the course of saving the context `x`: the general registers are still its, and the words `ws` are saved. -/
structure Saving (x : Cpu) (m₀ : Memory) (base : Nat) (ws : List Dword) (st : State) : Prop where
  cpu : st.cpu = { x with
    esp := st.cpu.esp, eip := st.cpu.eip, eflags := st.cpu.eflags, cs := selectorKCode,
      ss := selectorKData, shadow := false }
  off : st.cpu.iflag = false
  pushed : Pushed m₀ base ws st.cpu.esp st.mem

namespace Saving

variable {st : State}

theorem push (h : Saving x m₀ base ws st) (hroom : 4 * (ws.length + 1) ≤ base) (w : Dword) :
    Saving x m₀ base (w :: ws) (st.push w) where
  cpu := by
    have hcpu := h.cpu
    simp only [State.push]
    rw [hcpu]
  off := h.off
  pushed := h.pushed.push hroom w

theorem pushes (h : Saving x m₀ base ws st) (ws' : List Dword) (hroom : 4 * (ws'.length + ws.length) ≤ base) :
    Saving x m₀ base (ws'.reverse ++ ws) (st.pushes ws') := by
  induction ws' generalizing st ws with
  | nil => exact h
  | cons w ws' ih =>
    rw [List.length_cons] at hroom
    have hrest := ih (h.push (by omega) w) (by rw [List.length_cons]; omega)
    rw [List.reverse_cons, List.append_assoc]
    exact hrest

theorem goto (h : Saving x m₀ base ws st) :
    Saving x m₀ base ws { st with cpu := { st.cpu with eip := n, shadow := false } } where
  cpu := by
    have hcpu := h.cpu
    simp only []
    rw [hcpu]
  off := h.off
  pushed := h.pushed

theorem cli (h : Saving x m₀ base ws st) : Saving x m₀ base ws (exec .cli st) where
  cpu := by
    have hcpu := h.cpu
    simp only [exec]
    rw [hcpu]
  off := exec_straight_iflag rfl h.off
  pushed := h.pushed

theorem user (h : Saving x m₀ base ws st) : st.cpu.user = false := by
  rw [h.cpu]
  exact user_of_cs rfl

theorem shadow (h : Saving x m₀ base ws st) : st.cpu.shadow = false := by rw [h.cpu]

end Saving

/-- The words which the gate pushes. -/
def gateWords (x : Cpu) (err : Option Dword) : List Dword :=
  err.toList ++ [x.eip, x.cs.setWidth 32, x.eflags] ++ if x.user then [x.esp, x.ss.setWidth 32] else []

/-- A gate leaves the context at `base`, which is `esp0` on the way in from user mode. -/
theorem saving_interrupt (gate : Gate) (err : Option Dword) (st : State) (base : Nat) (hcs : gate.cs = selectorKCode)
    (hss0 : gate.ss0 = selectorKData) (huser : st.cpu.user = true → gate.esp0.toNat = base)
    (hkernel : st.cpu.user = false → st.cpu.esp.toNat = base ∧ st.cpu.ss = selectorKData)
    (hroom : 24 ≤ base) :
    Saving st.cpu st.mem base (gateWords st.cpu err) (interrupt gate err st) ∧
    (interrupt gate err st).cpu.eip = gate.entry := by
  have hoff : (st.cpu.eflags &&& ~~~0x34300#32).getLsbD 9 = false := by simp
  by_cases hu : st.cpu.user = true
  · have h0 : Pushed st.mem base [] gate.esp0 st.mem := .nil (huser hu)
    have h5 := ((((h0.push (by simp; omega) (st.cpu.ss.setWidth 32)).push (by simp; omega) st.cpu.esp).push (by simp; omega)
      st.cpu.eflags).push (by simp; omega) (st.cpu.cs.setWidth 32)).push (by simp; omega) st.cpu.eip
    cases err with
    | none =>
      simp only [interrupt, hu, if_true, State.push, hcs, hss0, gateWords, Option.toList, and_true]
      exact ⟨rfl, hoff, h5⟩
    | some e =>
      simp only [interrupt, hu, if_true, State.push, hcs, hss0, gateWords, Option.toList, and_true]
      exact ⟨rfl, hoff, h5.push (by simp; omega) e⟩
  · obtain ⟨hesp, hss⟩ := hkernel (by simpa using hu)
    have h0 : Pushed st.mem base [] st.cpu.esp st.mem := .nil hesp
    have h3 := ((h0.push (by simp; omega) st.cpu.eflags).push (by simp; omega)
      (st.cpu.cs.setWidth 32)).push
      (by simp; omega) st.cpu.eip
    cases err with
    | none =>
      simp only [interrupt, hu, State.push, hcs, gateWords, Option.toList, and_true]
      exact ⟨by simp [hss], hoff, h3⟩
    | some e =>
      simp only [interrupt, hu, State.push, hcs, gateWords, Option.toList, and_true]
      exact ⟨by simp [hss], hoff, h3.push (by simp; omega) e⟩

theorem execs_cs {st : State} (his : ∀ i ∈ is, i.straight = true) :
    (execs is st).cpu.cs = st.cpu.cs := by
  induction is generalizing st with
  | nil => rfl
  | cons i is ih => exact (ih fun j hj =>
    his j (List.mem_cons_of_mem i hj)).trans (exec_straight_cs (his i List.mem_cons_self))

theorem execs_iflag {st : State} (his : ∀ i ∈ is, i.straight = true) (h : st.cpu.iflag = false) :
    (execs is st).cpu.iflag = false := by
  induction is generalizing st with
  | nil => exact h
  | cons i is ih =>
    exact ih (fun j hj => his j (List.mem_cons_of_mem i hj))
      (exec_straight_iflag (his i List.mem_cons_self) h)

/-- The context has been saved, and the kernel's data segment is loaded. -/
structure Saved (m₀ : Memory) (base : Nat) (ws : List Dword) (st : State) : Prop where
  cs : st.cpu.cs = selectorKCode
  ds : st.cpu.ds = selectorKData
  ss : st.cpu.ss = selectorKData
  off : st.cpu.iflag = false
  pushed : Pushed m₀ base ws st.cpu.esp st.mem

theorem contextWords_eq {ds esp num err : Dword} : contextWords x ds esp num err =
    [ds, x.edi, x.esi, x.ebp, esp, x.ebx, x.edx, x.ecx, x.eax] ++ (num :: err :: gateWords x none) := by
  simp [contextWords, gateWords]

theorem length_gateWords (x : Cpu) (err : Option Dword) : (gateWords x err).length ≤ 6 := by
  simp only [gateWords, List.length_append, List.length_cons, List.length_nil]
  have herr : err.toList.length ≤ 1 := by cases err <;> simp
  split
  · simp only [List.length_cons, List.length_nil]
    omega
  · simp only [List.length_nil]
    omega

/-- The pushes of `isr%1`. -/
def isrPushes (num : Fin 48) (err : Option Dword) : List Instr :=
  if err.isSome then [.cli, .pushImm (BitVec.ofNat 32 num)]
    else [.cli, .pushImm 0, .pushImm (BitVec.ofNat 32 num)]

theorem isr_eq {num : Fin 48} {err : Option Dword} (herr : err.isSome = hasErrorCode num) :
    isr L.toLabels num = isrPushes num err ++ [.jmp L.isrCommonStub] := by
  rw [isr, isrPushes, herr]
  cases hasErrorCode num <;> rfl

theorem saving_isr (num : Fin 48) {err : Option Dword} {st : State}
    (h : Saving x m₀ base (gateWords x err) st)
    (hroom : 72 ≤ base) :
    Saving x m₀ base (BitVec.ofNat 32 num :: err.getD 0 :: gateWords x none) (execs (isrPushes num err) st) := by
  have hlen := length_gateWords x none
  cases err with
  | none =>
    exact (h.cli.push (by omega) 0).push (by rw [List.length_cons]; omega) (BitVec.ofNat 32 num)
  | some e =>
    exact h.cli.push
      (by simp only [gateWords, Option.toList, List.length_append, List.length_cons] at hlen ⊢; omega)
      (BitVec.ofNat 32 num)

/-- The instructions of `isr_common_stub` before the call. -/
def isrSave : List Instr := [.pusha, .movFromDs .eax, .push .eax,
      .movLow .eax selectorKData] ++ loadSegments .eax

theorem straight_isrSave : ∀ i ∈ isrSave, i.straight = true := by decide

theorem saved_isr {st : State} {num err : Dword}
    (h : Saving x m₀ base (num :: err :: gateWords x none) st)
    (hroom : 72 ≤ base) :
    ∃ ds esp, ds.setWidth 16 = x.ds ∧
    Saved m₀ base (contextWords x ds esp num err) (execs isrSave st) := by
  have hlen := length_gateWords x none
  have hcpu := h.cpu
  have hregs := h.pushes [st.cpu.eax, st.cpu.ecx, st.cpu.edx, st.cpu.ebx, st.cpu.esp, st.cpu.ebp, st.cpu.esi, st.cpu.edi]
    (by simp only [List.length_cons, List.length_nil]; omega)
  have hds := hregs.pushed.push (by simp only [List.length_append, List.length_reverse, List.length_cons, List.length_nil]; omega)
    (setLow st.cpu.eax st.cpu.ds)
  have hwords : contextWords x (setLow st.cpu.eax st.cpu.ds) st.cpu.esp num err =
      setLow st.cpu.eax st.cpu.ds :: st.cpu.edi :: st.cpu.esi :: st.cpu.ebp :: st.cpu.esp :: st.cpu.ebx :: st.cpu.edx ::
        st.cpu.ecx :: st.cpu.eax :: num :: err :: gateWords x none := by
    rw [contextWords_eq, hcpu]
    rfl
  refine ⟨setLow st.cpu.eax st.cpu.ds, st.cpu.esp, by rw [setLow_setWidth, hcpu], ?_, ?_, ?_, ?_, ?_⟩
  · rw [execs_cs straight_isrSave, hcpu]
  · simp only [execs, isrSave, loadSegments, List.cons_append, List.nil_append, List.foldl_cons,
      List.foldl_nil, exec,
      Cpu.get, Cpu.set, State.push]
    exact setLow_setWidth
  · simp only [execs, isrSave, loadSegments, List.cons_append, List.nil_append, List.foldl_cons,
      List.foldl_nil, exec,
      Cpu.set, State.push]
    rw [hcpu]
  · exact execs_iflag straight_isrSave h.off
  · rw [hwords]
    simp only [execs, isrSave, loadSegments, List.cons_append, List.nil_append, List.foldl_cons,
      List.foldl_nil, exec,
      Cpu.get, Cpu.set, State.pushes, State.push] at hds ⊢
    exact hds

/-- The instructions of `syscall_entry` before `sti`. -/
def syscallSave : List Instr :=
  [.pushImm 0, .pushImm 0, .push .eax, .push .ecx, .push .edx, .push .ebx, .push .esp,
    .push .ebp, .push .esi,
    .push .edi, .movFromDs .ecx, .push .ecx, .movLow .ecx selectorKData] ++ loadSegments .ecx

theorem straight_syscallSave : ∀ i ∈ syscallSave, i.straight = true := by decide

theorem saved_syscall {st : State} (h : Saving x m₀ base (gateWords x none) st) (hroom : 72 ≤ base) :
    ∃ ds, ds.setWidth 16 = x.ds ∧
      Saved m₀ base (contextWords x ds ((execs syscallSave st).cpu.esp +
        20) 0 0) (execs syscallSave st) := by
  have hlen := length_gateWords x none
  have hcpu := h.cpu
  have hregs := h.pushes [0, 0, st.cpu.eax, st.cpu.ecx, st.cpu.edx, st.cpu.ebx, st.cpu.esp - 4 - 4 - 4 - 4 - 4 - 4,
    st.cpu.ebp, st.cpu.esi, st.cpu.edi] (by simp only [List.length_cons, List.length_nil]; omega)
  have hds := hregs.pushed.push (by simp only [List.length_append, List.length_reverse, List.length_cons, List.length_nil]; omega)
    (setLow st.cpu.ecx st.cpu.ds)
  have hesp : (execs syscallSave st).cpu.esp =
    st.cpu.esp - 4 - 4 - 4 - 4 - 4 - 4 - 4 - 4 - 4 - 4 - 4 := by
    simp only [execs, syscallSave, loadSegments, List.cons_append, List.nil_append, List.foldl_cons,
      List.foldl_nil, exec,
      Cpu.set, State.push]
  have hsaved : (execs syscallSave st).cpu.esp + 20 = st.cpu.esp - 4 - 4 - 4 - 4 - 4 - 4 := by
    rw [hesp]
    bv_omega
  have hwords : contextWords x (setLow st.cpu.ecx st.cpu.ds) (st.cpu.esp - 4 - 4 - 4 - 4 - 4 - 4) 0 0 =
      setLow st.cpu.ecx st.cpu.ds :: st.cpu.edi :: st.cpu.esi :: st.cpu.ebp ::
      (st.cpu.esp - 4 - 4 - 4 - 4 - 4 - 4) ::
        st.cpu.ebx :: st.cpu.edx :: st.cpu.ecx :: st.cpu.eax :: 0 :: 0 :: gateWords x none := by
    rw [contextWords_eq, hcpu]
    rfl
  refine ⟨setLow st.cpu.ecx st.cpu.ds, by rw [setLow_setWidth, hcpu], ?_, ?_, ?_, ?_, ?_⟩
  · rw [execs_cs straight_syscallSave, hcpu]
  · simp only [execs, syscallSave, loadSegments, List.cons_append, List.nil_append, List.foldl_cons,
      List.foldl_nil, exec,
      Cpu.get, Cpu.set, State.push]
    exact setLow_setWidth
  · simp only [execs, syscallSave, loadSegments, List.cons_append, List.nil_append, List.foldl_cons,
      List.foldl_nil, exec,
      Cpu.set, State.push]
    rw [hcpu]
  · exact execs_iflag straight_syscallSave h.off
  · rw [hsaved, hwords]
    simp only [execs, syscallSave, loadSegments, List.cons_append, List.nil_append, List.foldl_cons,
      List.foldl_nil, exec,
      Cpu.get, Cpu.set, State.pushes, State.push] at hds ⊢
    exact hds

/-! ## Calling the handler -/

theorem observe_call {st st' : State} {target : Dword} (hne : target ≠ L.schedule) :
    observe L st st' (.call target) =
    .enter (isrParams st.mem st.cpu.esp.toNat) st'.cpu.ds := if_neg hne

theorem after_call {st : State} {target : Dword} : after st (.call target) n =
    ⟨{ st.cpu with esp := st.cpu.esp - 4, eip := target, shadow := false },
      store st.mem (st.cpu.esp - 4).toNat n⟩ := rfl

/-- The handler is called with the saved context as its argument, and the thread can run from there. -/
theorem agree_call {st : State} (v : Vector) (err : Option Dword) {ds target : Dword} (esp : Dword)
    (hs : Stable L s a)
    (hcode : L.code st.cpu.eip = some (.call target, n)) (htarget : L.loc target = none)
    (hne : target ≠ L.schedule)
    (hreturns : ∀ m₀ r, ReturnsTo L ⟨.trap v err, s.cpu, m₀, r⟩ n)
    (hint : st.cpu.interruptible = false)
    (hcs : st.cpu.cs = selectorKCode) (hds : st.cpu.ds = selectorKData)
    (hss : st.cpu.ss = selectorKData)
    (hpushed : Pushed s.mem base (contextWords s.cpu ds esp v.number (err.getD 0)) st.cpu.esp st.mem)
    (hlow : ds.setWidth 16 = s.cpu.ds) (hsaved : v = .syscall → esp = st.cpu.esp + 20)
    (hshadow : s.cpu.shadow = false)
    (huser : s.cpu.user = true → base = s.top s.crt)
    (hkernel : s.cpu.user = false → s.cpu.esp.toNat = base ∧ base ≤ s.top s.crt ∧
      s.cpu.ss = selectorKData)
    (hroom : s.kernelStack s.crt + 72 ≤ base)
    (hsys : v = .syscall → s.cpu.user = true ∨ L.loc s.cpu.eip = none) :
    Agree L { s with toState := st } (a.setFrames (⟨.trap v err, s.cpu, s.mem,
      none⟩ :: a.frames a.crt)) := by
  have hu : st.cpu.user = false := user_of_cs hcs
  have hextent := hpushed.extent
  have hlen : (contextWords s.cpu ds esp v.number (err.getD 0)).length = if s.cpu.user then 16
    else 14 := by
    simp only [contextWords]
    split <;> simp
  have hcall := hpushed.push (by rw [hlen]; split <;> omega) n
  have hextent' := hcall.extent
  rw [List.length_cons] at hextent'
  have hslot : (st.cpu.esp - 4).toNat + 4 = st.cpu.esp.toNat := by omega
  have hparams : Holds (isrParams st.mem st.cpu.esp.toNat) ⟨.trap v err, s.cpu, s.mem, none⟩ :=
    holds_of_words hpushed.words hlow rfl rfl
  have hstep := stubStep_eq (s := { s with toState := st }) hu hcode
  rw [observe_call hne, after_call] at hstep
  simp only [hds] at hstep
  have hcrt := hs.crt
  refine .force (forced_stub hstep hint)
    (.enter _ _ _ _ (by rw [Contexts.setFrames]; exact Function.update_self ..) hparams) ?_
  have htop : s.top s.crt = s.kernelStack s.crt + kernelStackSize := rfl
  have hstackEnd := hs.regions.stackEnd s.crt hs.crtLive
  have hbase : base ≤ s.top s.crt := by
    by_cases hsu : s.cpu.user = true
    · exact Nat.le_of_eq (huser hsu)
    · exact (hkernel (by simpa using hsu)).2.1
  have hlive : ∀ v' y, Frame.resumed ⟨.trap v err, s.cpu, s.mem, some v'⟩ = some y →
      Live L (store st.mem (st.cpu.esp - 4).toNat n) (s.top s.crt) (a.frames s.crt)
      (s.calls s.crt) y := by
    intro v' y hy
    have hold : Live L s.mem (s.top s.crt) (a.frames s.crt) (s.calls s.crt) y := by
      cases v with
      | isr num =>
        obtain rfl := Option.some.inj hy
        exact hs.active
      | syscall =>
        obtain rfl := Option.some.inj hy
        exact hs.active.setEax (hsys rfl)
    refine hold.congr fun hyu => ?_
    have hyesp := resumed_esp hy
    have hsu : s.cpu.user = false := (resumed_user hy).symm.trans hyu
    rw [hyesp, (hkernel hsu).1]
    exact hcall.above _
  have hframes : (a.setFrames (⟨.trap v err, s.cpu, s.mem, none⟩ :: a.frames a.crt)).frames s.crt =
      ⟨.trap v err, s.cpu, s.mem, none⟩ :: a.frames s.crt := by
    rw [Contexts.setFrames, hcrt]
    exact Function.update_self ..
  refine .done ⟨hs.crt, hs.crtLive, hs.tops, hs.regions, ?_, ?_, ?_⟩
  · simp only [calling, Function.update_self, hframes]
    refine ⟨s.calls s.crt, .c _ ⟨htarget, hcs, rfl, hss, rfl⟩ (Nat.le_refl _) ?_ ?_,
      fun hsu => ?_, hlive⟩
    · rw [load_store]
      exact hreturns s.mem none
    · rw [hslot]
      have hheld : Held st.mem (s.top s.crt) ⟨.trap v err, s.cpu, s.mem, none⟩ st.cpu.esp.toNat := by
        refine ⟨hparams, fun hsu => ?_, fun hsu => ?_, ?_, ?_, fun hsu => (hkernel hsu).2.2,
          hshadow, fun err' horigin => ?_⟩
        · have hbase' := huser hsu
          rw [hlen, if_pos hsu] at hextent
          omega
        · have hbase' := (hkernel hsu).1
          rw [hlen, if_neg (by simpa using hsu)] at hextent
          simp only []
          omega
        · rw [hlen] at hextent
          split at hextent <;> omega
        · rw [hlen] at hextent
          split at hextent <;> omega
        · obtain ⟨rfl, -⟩ := Origin.trap.inj horigin
          have hesp : load st.mem (st.cpu.esp.toNat + 16) = esp :=
            hpushed.words.get (k := 4) (by rw [hlen]; split <;> omega)
          rw [hesp, hsaved rfl]
          bv_omega
      refine hheld.congr (sameOn_store (.inr ?_))
      omega
    · have hbase' := (hkernel hsu).1
      simp only []
      rw [hbase']
      exact ⟨by omega, hcall.above _⟩
  · refine hs.esp0.imp id fun honly => ⟨hu, fun f hf => ?_⟩
    rw [hframes] at hf
    rcases List.mem_cons.mp hf with rfl | hf
    · exact honly.1
    · exact honly.2 f hf
  · intro t ht hne'
    have hother := hs.others (store st.mem (st.cpu.esp - 4).toNat n) (fun z hz _ => by
      by_cases hzlow : z < (st.cpu.esp - 4).toNat
      · exact hcall.below z (Nat.zero_le z) hzlow
      · refine hcall.above (z + 1) z ?_ (by omega)
        rcases hz with hz | hz
        · rw [hlen] at hextent'
          split at hextent' <;> omega
        · omega) t ht hne'
    simp only [Contexts.setFrames, hcrt, Function.update_of_ne hne']
    exact hother

/-! ## The entry stubs -/

theorem agree_isrCommonStub {st : State} {num : Fin 48} {err : Option Dword} (hs : Stable L s a)
    (hst : Saving s.cpu s.mem base (BitVec.ofNat 32 num :: err.getD 0 :: gateWords s.cpu none) st)
    (heip : st.cpu.eip = L.isrCommonStub) (hshadow : s.cpu.shadow = false)
    (huser : s.cpu.user = true → base = s.top s.crt)
    (hkernel : s.cpu.user = false → s.cpu.esp.toNat = base ∧ base ≤ s.top s.crt ∧
      s.cpu.ss = selectorKData)
    (hroom : s.kernelStack s.crt + 72 ≤ base) :
    Agree L { s with toState := st }
      (a.setFrames (⟨.trap (.isr num) err, s.cpu, s.mem, none⟩ :: a.frames a.crt)) := by
  have hcommon : instrs L.toLabels .isrCommonStub =
    [] ++ (isrSave ++ (.call L.isrHandler :: interruptExit L.toLabels)) := rfl
  refine agree_block (L.block hcommon)
    (heip.trans L.isrCommonStub_eq) hst.shadow straight_isrSave hst.user hst.off ?_
  obtain ⟨ds, esp, hds, hsaved⟩ := saved_isr hst (by omega)
  have hcall : L.code (L.addr .isrCommonStub 8) = some (.call L.isrHandler, L.addr .isrCommonStub 9) :=
    L.code_addr (by rw [hcommon]; rfl)
  exact agree_call (.isr num) err esp hs hcall L.loc_isrHandler L.isrHandler_ne
    (fun _ _ => .inl rfl)
      (interruptible_of_off hsaved.off) hsaved.cs hsaved.ds hsaved.ss hsaved.pushed hds (by simp)
    hshadow huser hkernel hroom (by simp)

theorem agree_isr {st : State} {num : Fin 48} {err : Option Dword} (hs : Stable L s a)
    (hst : Saving s.cpu s.mem base (gateWords s.cpu err) st) (heip : st.cpu.eip = L.addr (.isr num) 0)
    (herr : err.isSome = hasErrorCode num) (hshadow : s.cpu.shadow = false)
    (huser : s.cpu.user = true → base = s.top s.crt)
    (hkernel : s.cpu.user = false → s.cpu.esp.toNat = base ∧ base ≤ s.top s.crt ∧
      s.cpu.ss = selectorKData)
    (hroom : s.kernelStack s.crt + 72 ≤ base) :
    Agree L { s with toState := st }
      (a.setFrames (⟨.trap (.isr num) err, s.cpu, s.mem, none⟩ :: a.frames a.crt)) := by
  have hisr : instrs L.toLabels (.isr num) =
    [] ++ (isrPushes num err ++ [.jmp L.isrCommonStub]) := isr_eq herr
  have hstraight : ∀ i ∈ isrPushes num err, i.straight = true := by
    rw [isrPushes]
    split <;> simp [Instr.straight]
  have hpushes := saving_isr num hst (by omega)
  refine agree_block (L.block hisr) heip hst.shadow hstraight hst.user hst.off ?_
  have hjmp : L.code (L.addr (.isr num) (isrPushes num err).length) =
      some (.jmp L.isrCommonStub, L.addr (.isr num) ((isrPushes num err).length + 1)) :=
    L.code_addr (by rw [hisr]; simp)
  rw [List.length_nil, Nat.zero_add]
  have hgoto := hpushes.goto (n := L.addr (.isr num) (isrPushes num err).length)
  refine agree_silent hgoto.user (interruptible_of_off hgoto.off) hjmp (by simp) (by simp) (by simp) ?_
  exact agree_isrCommonStub hs (hgoto.goto (n := L.isrCommonStub)) rfl hshadow huser hkernel hroom

theorem agree_syscallEntry {st : State} (hs : Stable L s a)
    (hst : Saving s.cpu s.mem base (gateWords s.cpu none) st)
    (heip : st.cpu.eip = L.addr .syscallEntry 0)
    (hshadow : s.cpu.shadow = false) (huser : s.cpu.user = true → base = s.top s.crt)
    (hkernel : s.cpu.user = false → s.cpu.esp.toNat = base ∧ base ≤ s.top s.crt ∧
      s.cpu.ss = selectorKData)
    (hroom : s.kernelStack s.crt + 72 ≤ base) (hsys : s.cpu.user = true ∨ L.loc s.cpu.eip = none) :
    Agree L { s with toState := st }
      (a.setFrames (⟨.trap .syscall none, s.cpu, s.mem, none⟩ :: a.frames a.crt)) := by
  have hentry : instrs L.toLabels .syscallEntry =
      [] ++ (syscallSave ++ ([.sti, .call L.syscallHandler] ++ syscallExit)) := rfl
  refine agree_block (L.block hentry) heip hst.shadow straight_syscallSave hst.user hst.off ?_
  obtain ⟨ds, hds, hsaved⟩ := saved_syscall hst (by omega)
  have hsti : L.code (L.addr .syscallEntry 17) = some (.sti, L.addr .syscallEntry 18) :=
    L.code_addr (by rw [hentry]; rfl)
  have hcall : L.code (L.addr .syscallEntry 18) =
    some (.call L.syscallHandler, L.addr .syscallEntry 19) :=
    L.code_addr (by rw [hentry]; rfl)
  refine agree_silent (user_of_cs hsaved.cs) (interruptible_of_off hsaved.off) hsti (by simp)
    (by simp) (by simp) ?_
  -- the instruction after `sti` is not interrupted
  have hint : (exec .sti (execs syscallSave st)).cpu.interruptible = false := by
    have hoff := hsaved.off
    simp only [exec, Cpu.interruptible, hoff, Bool.not_false, Bool.not_true, Bool.and_false]
  exact agree_call .syscall none _ hs hcall L.loc_syscallHandler L.syscallHandler_ne
    (fun _ _ => rfl) hint
    hsaved.cs hsaved.ds hsaved.ss hsaved.pushed hds (fun _ => rfl) hshadow huser hkernel hroom
      (fun _ => hsys)

/-- A trap saves the context and calls the handler. -/
theorem agree_trap {v : Vector} {err : Option Dword} (hs : Stable L s a)
    (hroom : Room s (.trap v err s.cpu s.mem))
    (hpossible : TrapPossible L s v) (herr : err.isSome = v.hasErrorCode) :
    ∃ b, CStep L a (.trap v err s.cpu s.mem) b ∧
      Agree L { s with toState := interrupt (L.gate v s.esp0) err s.toState } b := by
  obtain ⟨hshadow, hwhen⟩ := hpossible
  have htop : s.top s.crt = s.kernelStack s.crt + 8192 := rfl
  have hcrt := hs.crt
  refine ⟨_, .trap a v err s.cpu s.mem fun hu => by rw [hcrt]; exact (hs.active.user hu).1, ?_⟩
  let base := if s.cpu.user then s.top s.crt else s.cpu.esp.toNat
  have hesp0 : s.cpu.user = true → s.esp0.toNat = s.top s.crt := by
    intro hu
    refine hs.esp0.resolve_right fun honly => ?_
    rw [honly.1] at hu
    cases hu
  have huser : s.cpu.user = true → base = s.top s.crt := fun hu => if_pos hu
  have hkernel : s.cpu.user = false → s.cpu.esp.toNat = base ∧ base ≤ s.top s.crt ∧
    s.cpu.ss = selectorKData := by
    intro hu
    have hbase : base = s.cpu.esp.toNat := by simp only [base, hu]; rfl
    obtain ⟨-, hss, hle⟩ := hs.active.inKernel hu
    exact ⟨hbase.symm, hbase ▸ hle, hss⟩
  have hlow : s.kernelStack s.crt + 72 ≤ base := by
    by_cases hu : s.cpu.user = true
    · rw [huser hu]
      omega
    · have hu' : s.cpu.user = false := by simpa using hu
      have hesp := hroom hu'
      have hbase := (hkernel hu').1
      omega
  obtain ⟨hsaving, heip⟩ := saving_interrupt (L.gate v s.esp0) err s.toState base rfl rfl
    (fun hu => (hesp0 hu).trans (huser hu).symm) (fun hu =>
      ⟨(hkernel hu).1, (hkernel hu).2.2⟩) (by omega)
  cases v with
  | isr num => exact agree_isr hs hsaving heip herr hshadow huser hkernel hlow
  | syscall =>
    obtain rfl : err = none := by simpa [Vector.hasErrorCode] using herr
    refine agree_syscallEntry hs hsaving heip hshadow huser hkernel hlow (hwhen.resolve_left ?_)
    rintro ⟨-, num, hnum, -⟩
    cases hnum

end LuckOS.TrapEntry
