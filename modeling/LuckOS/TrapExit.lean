import LuckOS.TrapEntry

/-!
# The way out of the kernel

From each label at which a stub goes on after a call, the remaining instructions restore the saved
context, wherever they are interrupted.
-/

namespace LuckOS.TrapExit

open ByteMemory X86 TrapCode TrapMachine ThreadContexts TrapInvariant TrapEntry Runs

variable {L : Layout} {s s' : Machine} {c : Contexts} {e : Event} {n w v : Dword}
  {x y z : Cpu} {m m' m₀ : Memory} {top a : Nat} {f : Frame} {fs : List Frame} {calls : List Nat}
  {frames : List Frame}

/-- The registers that an `iret` does not load. -/
structure Loaded (y z : Cpu) : Prop where
  eax : y.eax = z.eax
  ecx : y.ecx = z.ecx
  edx : y.edx = z.edx
  ebx : y.ebx = z.ebx
  ebp : y.ebp = z.ebp
  esi : y.esi = z.esi
  edi : y.edi = z.edi
  ds : y.ds = z.ds

theorem exec_iret (hregs : Loaded y z) (hesp : y.esp.toNat = a) (hshadow : y.shadow = z.shadow)
    (heip : load m a = z.eip) (hcs : (load m (a + 4)).setWidth 16 = z.cs)
    (heflags : load m (a + 8) = z.eflags)
    (huser : z.user = true → load m (a + 12) = z.esp ∧ (load m (a + 16)).setWidth 16 = z.ss)
    (hkernel : z.user = false → y.esp + 12 = z.esp ∧ y.ss = z.ss) : (exec .iret ⟨y, m⟩).cpu = z := by
  have hword : ∀ k, State.word ⟨y, m⟩ k = load m (a + 4 * k) := fun k => by rw [State.word, hesp]
  have hpopped : (State.popped ⟨y, m⟩).user = z.user := by
    simp only [Cpu.user, State.popped, hword, Nat.mul_one, hcs]
  simp only [exec, hpopped]
  by_cases hu : z.user = true
  · obtain ⟨hesp', hss⟩ := huser hu
    rw [if_pos hu]
    ext1
    · exact hregs.eax
    · exact hregs.ecx
    · exact hregs.edx
    · exact hregs.ebx
    · exact (hword 3).trans hesp'
    · exact hregs.ebp
    · exact hregs.esi
    · exact hregs.edi
    · exact (hword 0).trans heip
    · exact (hword 2).trans heflags
    · exact (congrArg (BitVec.setWidth 16) (hword 1)).trans hcs
    · exact hregs.ds
    · exact (congrArg (BitVec.setWidth 16) (hword 4)).trans hss
    · exact hshadow
  · obtain ⟨hesp', hss⟩ := hkernel (by simpa using hu)
    rw [if_neg hu]
    ext1
    · exact hregs.eax
    · exact hregs.ecx
    · exact hregs.edx
    · exact hregs.ebx
    · exact hesp'
    · exact hregs.ebp
    · exact hregs.esi
    · exact hregs.edi
    · exact (hword 0).trans heip
    · exact (hword 2).trans heflags
    · exact (congrArg (BitVec.setWidth 16) (hword 1)).trans hcs
    · exact hregs.ds
    · exact hss
    · exact hshadow

/-- At the `iret` all that is not yet loaded lies on the stack. -/
theorem atExit_iret (hheld : Held m top f a) (htop : top < 2 ^ 32)
    (hcode : L.code y.eip = some (.iret, n))
    (hesp : y.esp = BitVec.ofNat 32 (a + 44)) (hss : y.ss = selectorKData)
    (hresumed : f.resumed = some { f.cpu with eax := v }) (hregs : Loaded y { f.cpu with eax := v }) :
    AtExit L m top f y := by
  have hinside := hheld.inside
  have hparams := hheld.params
  have hnat : y.esp.toNat = a + 44 := by rw [hesp, Unwinds.toNat_ofNat (by omega) htop]
  have hcpu : (exec .iret ⟨{ y with eip := n, shadow := false }, m⟩).cpu = { f.cpu with eax := v } := by
    refine exec_iret (a := a + 44)
      ⟨hregs.eax, hregs.ecx, hregs.edx, hregs.ebx, hregs.ebp, hregs.esi, hregs.edi,
        hregs.ds⟩ hnat hheld.shadow.symm
      hparams.eip hparams.cs hparams.eflags hparams.user fun hu => ⟨?_, hss.trans (hheld.ss hu).symm⟩
    have hfesp := hheld.esp hu
    simp only []
    bv_omega
  refine .iret n hcode (by rw [hresumed, hcpu]) (fun hu => ?_) (fun hu => ?_) (by omega)
  · have htop' := hheld.user hu
    omega
  · rw [hnat, hheld.esp hu]

/-- From the return of `schedule` on. -/
theorem unwinds_interruptExit (hheld : Held m top f a) (htop : top < 2 ^ 32)
    (heip : x.eip = L.addr .isrCommonStub 10)
    (hesp : x.esp = BitVec.ofNat 32 a) (hss : x.ss = selectorKData)
    (hresumed : f.resumed = some f.cpu) :
    Unwinds L.code m top (AtExit L m top f) x := by
  have hinside := hheld.inside
  have hparams := hheld.params
  have hcode : ∀ k i, (instrs L.toLabels .isrCommonStub)[k]? = some i →
      L.code (L.addr .isrCommonStub k) = some (i, L.addr .isrCommonStub (k + 1)) :=
      fun k i hi => L.code_addr hi
  refine .pop (heip ▸ hcode 10 (.pop .eax) rfl) (by simp) hesp (by omega) htop ?_
  refine .move (hcode 11 (.movToSeg .ds .eax) rfl) rfl rfl (by omega) htop rfl ?_
  refine .move (hcode 12 (.movToSeg .es .eax) rfl) rfl rfl (by omega) htop rfl ?_
  refine .move (hcode 13 (.movToSeg .fs .eax) rfl) rfl rfl (by omega) htop rfl ?_
  refine .move (hcode 14 (.movToSeg .gs .eax) rfl) rfl rfl (by omega) htop rfl ?_
  refine .popa (hcode 15 .popa rfl) rfl (by omega) htop ?_
  refine .addEsp (k := 8) (hcode 16 (.add .esp 8) rfl) rfl (by omega) htop fun e => ?_
  refine .move (hcode 17 .sti rfl) rfl rfl (by omega) htop rfl ?_
  refine .done (atExit_iret (v := f.cpu.eax) hheld htop (hcode 18 .iret rfl) rfl hss hresumed ?_)
  exact ⟨hparams.eax, hparams.ecx, hparams.edx, hparams.ebx, hparams.ebp, hparams.esi,
    hparams.edi, hparams.ds⟩

/-- From the return of `syscall_handler` on. The value in `eax` is kept. -/
theorem unwinds_syscallExit {err : Option Dword} (hheld : Held m top f a) (htop : top < 2 ^ 32)
    (heip : x.eip = L.addr .syscallEntry 19) (hesp : x.esp = BitVec.ofNat 32 a)
    (hss : x.ss = selectorKData)
    (horigin : f.origin = .trap .syscall err)
    (hresumed : f.resumed = some { f.cpu with eax := x.eax }) :
    Unwinds L.code m top (AtExit L m top f) x := by
  have hinside := hheld.inside
  have hparams := hheld.params
  have hcode : ∀ k i, (instrs L.toLabels .syscallEntry)[k]? = some i →
      L.code (L.addr .syscallEntry k) = some (i, L.addr .syscallEntry (k + 1)) :=
      fun k i hi => L.code_addr hi
  refine .pop (heip ▸ hcode 19 (.pop .ecx) rfl) (by simp) hesp (by omega) htop ?_
  refine .move (hcode 20 (.movToSeg .ds .ecx) rfl) rfl rfl (by omega) htop rfl ?_
  refine .move (hcode 21 (.movToSeg .es .ecx) rfl) rfl rfl (by omega) htop rfl ?_
  refine .move (hcode 22 (.movToSeg .fs .ecx) rfl) rfl rfl (by omega) htop rfl ?_
  refine .move (hcode 23 (.movToSeg .gs .ecx) rfl) rfl rfl (by omega) htop rfl ?_
  refine .pop (hcode 24 (.pop .edi) rfl) (by simp) rfl (by omega) htop ?_
  refine .pop (hcode 25 (.pop .esi) rfl) (by simp) rfl (by omega) htop ?_
  refine .pop (hcode 26 (.pop .ebp) rfl) (by simp) rfl (by omega) htop ?_
  refine .popEsp (hcode 27 (.pop .esp) rfl) rfl (by omega) htop (hheld.saved err horigin) ?_
  refine .pop (hcode 28 (.pop .ebx) rfl) (by simp) rfl (by omega) htop ?_
  refine .pop (hcode 29 (.pop .edx) rfl) (by simp) rfl (by omega) htop ?_
  refine .pop (hcode 30 (.pop .ecx) rfl) (by simp) rfl (by omega) htop ?_
  refine .addEsp (k := 4) (hcode 31 (.add .esp 4) rfl) rfl (by omega) htop fun e => ?_
  refine .addEsp (k := 8) (hcode 32 (.add .esp 8) rfl) rfl (by omega) htop fun e => ?_
  refine .done (atExit_iret (v := x.eax) hheld htop (hcode 33 .iret rfl) rfl hss hresumed ?_)
  exact ⟨rfl, hparams.ecx, hparams.edx, hparams.ebx, hparams.ebp, hparams.esi, hparams.edi, hparams.ds⟩

/-- The first instructions of a forked thread, which skips the saved `esp` and returns zero. -/
theorem unwinds_syscallForkExit (hheld : Held m top f (a + 8)) (htop : top < 2 ^ 32)
    (heip : x.eip = L.addr .syscallForkExit 0) (hesp : x.esp = BitVec.ofNat 32 a)
    (hss : x.ss = selectorKData)
    (hresumed : f.resumed = some { f.cpu with eax := 0 }) :
    Unwinds L.code m top (AtExit L m top f) x := by
  have hinside := hheld.inside
  have hparams := hheld.params
  have hcode : ∀ k i, (instrs L.toLabels .syscallForkExit)[k]? = some i →
      L.code (L.addr .syscallForkExit k) = some (i, L.addr .syscallForkExit (k + 1)) :=
      fun k i hi => L.code_addr hi
  refine .addEsp (k := 8) (heip ▸ hcode 0 (.add .esp 8) rfl) hesp (by omega) htop fun e => ?_
  refine .pop (hcode 1 (.pop .ecx) rfl) (by simp) rfl (by omega) htop ?_
  refine .move (hcode 2 (.movToSeg .ds .ecx) rfl) rfl rfl (by omega) htop rfl ?_
  refine .move (hcode 3 (.movToSeg .es .ecx) rfl) rfl rfl (by omega) htop rfl ?_
  refine .move (hcode 4 (.movToSeg .fs .ecx) rfl) rfl rfl (by omega) htop rfl ?_
  refine .move (hcode 5 (.movToSeg .gs .ecx) rfl) rfl rfl (by omega) htop rfl ?_
  refine .pop (hcode 6 (.pop .edi) rfl) (by simp) rfl (by omega) htop ?_
  refine .pop (hcode 7 (.pop .esi) rfl) (by simp) rfl (by omega) htop ?_
  refine .pop (hcode 8 (.pop .ebp) rfl) (by simp) rfl (by omega) htop ?_
  refine .addEsp (k := 4) (hcode 9 (.add .esp 4) rfl) rfl (by omega) htop fun e => ?_
  refine .pop (hcode 10 (.pop .ebx) rfl) (by simp) rfl (by omega) htop ?_
  refine .pop (hcode 11 (.pop .edx) rfl) (by simp) rfl (by omega) htop ?_
  refine .pop (hcode 12 (.pop .ecx) rfl) (by simp) rfl (by omega) htop ?_
  refine .move (hcode 13 (.movImm .eax 0) rfl) rfl rfl (by omega) htop rfl ?_
  refine .addEsp (k := 4) (hcode 14 (.add .esp 4) rfl) rfl (by omega) htop fun e => ?_
  refine .addEsp (k := 8) (hcode 15 (.add .esp 8) rfl) rfl (by omega) htop fun e => ?_
  refine .done (atExit_iret (v := 0) hheld htop (hcode 16 .iret rfl) rfl hss hresumed ?_)
  exact ⟨rfl, hparams.ecx, hparams.edx, hparams.ebx, hparams.ebp, hparams.esi, hparams.edi, hparams.ds⟩

/-- The first instructions of a user thread lead to the call of `schedule`. -/
theorem unwinds_switchToUserMode (hheld : Held m top f (a + 8)) (htop : top < 2 ^ 32)
    (heip : x.eip = L.addr .switchToUserMode 0) (hesp : x.esp = BitVec.ofNat 32 a)
    (hds : x.ds = selectorKData)
    (horigin : f.origin = .fresh) : Unwinds L.code m top (AtExit L m top f) x := by
  have hinside := hheld.inside
  have hcode : ∀ k i, (instrs L.toLabels .switchToUserMode)[k]? = some i →
      L.code (L.addr .switchToUserMode k) = some (i, L.addr .switchToUserMode (k + 1)) :=
      fun k i hi => L.code_addr hi
  have hnat := Unwinds.toNat_ofNat (a := a + 8) (by omega) htop
  refine .addEsp (k := 8) (heip ▸ hcode 0 (.add .esp 8) rfl) hesp (by omega) htop fun e => ?_
  refine .move (hcode 1 (.jmp L.interruptExit) rfl) rfl rfl (by omega) htop rfl ?_
  refine .done (.schedule L.interruptExit_eq hds ?_ (by simp [horigin]) (by simp [horigin]))
  simpa only [exec, hnat] using hheld

/-! ## Instructions of the exit stubs -/

theorem unwinds_le (h : Unwinds L.code m top (AtExit L m top f) x) (hu : f.cpu.user = false) :
    x.esp.toNat ≤ f.cpu.esp.toNat := by
  induction h with
  | done h =>
    cases h with
    | schedule heip hds hheld horigin hfork =>
      rw [hheld.esp hu]
      omega
    | iret n hcode hresumed huser hkernel hroom =>
      have hesp := hkernel hu
      omega
  | step hcode hpops hroom hup h ih => omega

theorem cs_of_pops {i : Instr} {k : Nat} (st : State) (hi : i.pops = some k) :
    (exec i st).cpu.cs = st.cpu.cs ∧ (exec i st).cpu.ss = st.cpu.ss := by
  cases i with
  | pop r => cases r <;> exact ⟨rfl, rfl⟩
  | movImm r v => cases r <;> exact ⟨rfl, rfl⟩
  | movLow r v => cases r <;> exact ⟨rfl, rfl⟩
  | movFromDs r => cases r <;> exact ⟨rfl, rfl⟩
  | movToSeg seg r => cases seg <;> exact ⟨rfl, rfl⟩
  | add r v => cases r <;> exact ⟨rfl, rfl⟩
  | popa | jmp | cli | sti => exact ⟨rfl, rfl⟩
  | push | pushImm | pusha | movLoad | movStore | call | ret | iret => simp [Instr.pops] at hi

theorem pops_ne {i : Instr} {k : Nat} (hi : i.pops = some k) :
    (∀ target, i ≠ .call target) ∧ i ≠ .ret ∧ i ≠ .iret := by
  cases i with
  | push | pushImm | pusha | movLoad | movStore | call | ret | iret => simp [Instr.pops] at hi
  | pop | popa | movImm | movLow | movFromDs | movToSeg | add | jmp | cli | sti => simp

theorem resumed_result (h : f.resumed = some y) :
    ∃ v, Frame.resumed { f with result := some v } = some y := by
  obtain ⟨origin, cpu, mem, result⟩ := f
  cases origin with
  | trap v err =>
    cases v with
    | isr num => exact ⟨0, h⟩
    | syscall =>
      obtain ⟨v, rfl, hy⟩ := Option.map_eq_some_iff.mp h
      exact ⟨v, congrArg some hy⟩
  | fresh => exact ⟨0, h⟩
  | fork => exact ⟨0, h⟩

/-- The current thread goes on with the contexts `frames`, and nothing outside its stack has changed. -/
theorem stable_of_live (st : State) (hs : Stable L s c)
    (hlive : Live L st.mem (s.top s.crt) frames calls st.cpu)
    (honly : KernelOnly (c.frames s.crt) s.cpu → KernelOnly frames st.cpu)
    (hown : ∀ z, z < s.kernelStack s.crt ∨ s.top s.crt ≤ z → st.mem z = s.mem z) :
    Stable L { s with toState := st, calls := Function.update s.calls s.crt calls } (c.setFrames frames) := by
  have hcrt := hs.crt
  have hframes : (c.setFrames frames).frames s.crt = frames := by
    rw [Contexts.setFrames, hcrt]
    exact Function.update_self ..
  refine ⟨hs.crt, hs.crtLive, hs.tops, hs.regions, ?_, ?_, fun t ht hne => ?_⟩
  · simp only [Function.update_self, hframes]
    exact hlive
  · rw [hframes]
    exact hs.esp0.imp id honly
  · have hother := hs.others st.mem (fun z hz _ => hown z hz) t ht hne
    simp only [Contexts.setFrames, hcrt, Function.update_of_ne hne]
    exact hother

theorem setFrames_self (h : c.frames c.crt = frames) : c.setFrames frames = c := by
  rw [Contexts.setFrames, ← h, Function.update_eq_self]

/-- The instruction of an exit stub which is performed next. -/
theorem agree_unwinds {rest : List Nat} (hs : Stable L s c) (hframes : c.frames s.crt = f :: fs)
    (hcalls : s.calls s.crt = rest) (hcs : s.cpu.cs = selectorKCode) (hss : s.cpu.ss = selectorKData)
    (hunwinds : Unwinds L.code s.mem (s.top s.crt) (AtExit L s.mem (s.top s.crt) f) s.cpu)
    (hsnapshot : f.cpu.user = false → SameOn f.mem s.mem f.cpu.esp.toNat (s.top s.crt))
    (hlive : ∀ v y, Frame.resumed { f with result := some v } = some y →
      Live L s.mem (s.top s.crt) fs rest y)
    (h : stubStep L s = some (e, s')) : ∃ b, CStep L c e b ∧ Agree L s' b := by
  have hcrt := hs.crt
  have htops := hs.tops s.crt hs.crtLive
  obtain ⟨hu, i, n, hcode, rfl, rfl⟩ := stubStep_inv h
  cases hunwinds with
  | done hdone =>
    cases hdone with
    | schedule heip hds hheld horigin hfork =>
      -- the call of `schedule`
      have hcall : L.code s.cpu.eip = some (.call L.schedule, L.addr .isrCommonStub 10) := by
        rw [heip]
        exact L.code_addr rfl
      obtain ⟨rfl, rfl⟩ := Prod.mk.inj (Option.some.inj (hcode.symm.trans hcall))
      have hlow := hheld.low
      have hinside := hheld.inside
      have htop : s.top s.crt = s.kernelStack s.crt + kernelStackSize := rfl
      have hslot : (s.cpu.esp - 4).toNat + 4 = s.cpu.esp.toNat := by
        have hsub : (s.cpu.esp - 4).toNat = s.cpu.esp.toNat - 4 := Pushed.toNat_sub_four (by omega)
        omega
      rw [after_call]
      have hsilent : observe L s.toState
        ⟨{ s.cpu with esp := s.cpu.esp - 4, eip := L.schedule, shadow := false },
          store s.mem (s.cpu.esp - 4).toNat (L.addr .isrCommonStub 10)⟩ (.call L.schedule) =
          .silent := if_pos rfl
      rw [hsilent]
      refine ⟨c, .silent c, .done ?_⟩
      have hself : c.setFrames (f :: fs) = c := setFrames_self (by rw [hcrt]; exact hframes)
      rw [← hself]
      have hsame : ∀ hi, SameOn s.mem (store s.mem (s.cpu.esp - 4).toNat
        (L.addr .isrCommonStub 10)) s.cpu.esp.toNat hi :=
        fun hi => sameOn_store (.inr (by omega))
      refine stable_of_live _ hs ?_ ?_ fun z hz => ?_
      · refine ⟨rest, ?_, fun hfu => ?_, fun v y hy => (hlive v y hy).congr fun hyu => ?_⟩
        · simp only [calling]
          rw [hcalls]
          refine .c _ ⟨L.loc_schedule, hcs, hds, hss, rfl⟩ (Nat.le_refl _) ?_ ?_
          · rw [load_store, ReturnsTo]
            split
            · exact .inr rfl
            · exact .inr rfl
            · rename_i err heq
              exact absurd heq (horigin err)
            · rename_i heq
              exact absurd heq hfork
          · rw [hslot]
            exact hheld.congr (hsame _)
        · have hfesp := hheld.esp hfu
          simp only []
          exact ⟨by omega, (hsnapshot hfu).trans ((hsame _).mono (by omega) (Nat.le_refl _))⟩
        · have hfesp := hheld.esp ((resumed_user hy).symm.trans hyu)
          rw [resumed_esp hy]
          exact (hsame _).mono (by simp only []; omega) (Nat.le_refl _)
      · intro honly
        exact ⟨hu, by rw [← hframes]; exact honly.2⟩
      · by_cases hz' : z < s.cpu.esp.toNat
        · exact store_outside (by omega)
        · exact hsame (z + 1) z (by omega) (by omega)
    | iret n' hcode' hresumed huser hkernel hroom =>
      -- the context is resumed
      obtain ⟨rfl, rfl⟩ := Prod.mk.inj (Option.some.inj (hcode.symm.trans hcode'))
      obtain ⟨v, hv⟩ := resumed_result hresumed
      refine ⟨_, .resume c _ _ f fs (by rw [hcrt]; exact hframes) hresumed fun hxu => ?_, .done ?_⟩
      · have hfu : f.cpu.user = false := (resumed_user hresumed).symm.trans hxu
        have hesp : (after s.toState .iret n).cpu.esp = f.cpu.esp := resumed_esp hresumed
        rw [hesp, hcrt, htops]
        exact hsnapshot hfu
      · refine stable_of_live _ hs ?_ (fun honly => ?_) fun z hz => rfl
        · simp only [calling]
          rw [hcalls]
          exact hlive v _ hv
        · rw [hframes] at honly
          exact ⟨(resumed_user hresumed).trans (honly.2 f List.mem_cons_self),
            fun g hg => honly.2 g (List.mem_cons_of_mem f hg)⟩
  | @step _ i' n' k hcode' hpops hroom hup hnext =>
    obtain ⟨rfl, rfl⟩ := Prod.mk.inj (Option.some.inj (hcode.symm.trans hcode'))
    obtain ⟨hcall, hret, hiret⟩ := pops_ne hpops
    rw [observe_silent hcall hret hiret, calling_same hcall]
    refine ⟨c, .silent c, .done ?_⟩
    have hmem : (after s.toState i n).mem = s.mem := mem_of_pops hpops
    have hsegs := cs_of_pops { s.toState with cpu := { s.cpu with eip := n, shadow := false } } hpops
    have hself : c.setFrames (f :: fs) = c := setFrames_self (by rw [hcrt]; exact hframes)
    rw [← hself]
    refine stable_of_live _ hs ?_ (fun honly => ?_) fun z hz => by rw [hmem]
    · rw [hmem]
      refine ⟨rest, ?_, fun hfu => ⟨unwinds_le hnext hfu, hsnapshot hfu⟩, hlive⟩
      rw [hcalls]
      exact .exit (hsegs.1.trans hcs) (hsegs.2.trans hss) hnext
    · exact ⟨user_of_cs (hsegs.1.trans hcs), by rw [← hframes]; exact honly.2⟩

theorem agree_stub (hs : Stable L s c) (h : stubStep L s = some (e, s')) :
    ∃ b, CStep L c e b ∧ Agree L s' b := by
  obtain ⟨hu, i, n, hcode, -, -⟩ := stubStep_inv h
  have hloc := loc_of_code hcode
  have hactive := hs.active
  cases hframes : c.frames s.crt with
  | nil =>
    rw [hframes] at hactive
    obtain ⟨-, -, huser | ⟨hC, -⟩⟩ := hactive
    · rw [hu] at huser
      cases huser
    · exact absurd hC.eip hloc
  | cons f fs =>
    rw [hframes] at hactive
    obtain ⟨rest, hentered, hstack, hlive⟩ := hactive
    generalize hcalls : s.calls s.crt = calls at hentered
    cases hentered with
    | c slot hC => exact absurd hC.eip hloc
    | exit hcs hss hunwinds =>
      exact agree_unwinds hs hframes hcalls hcs hss hunwinds (fun hfu => (hstack hfu).2) hlive h

/-! ## Returns of C code -/

/-- Where a call returns to, the rest of the stub restores the context. -/
theorem entered_returned {slot : Nat} {rest : List Nat} (hC : CodeC L x)
    (hreturns : ReturnsTo L f (load m slot))
    (hheld : Held m top f (slot + 4)) (htop : top < 2 ^ 32) :
    Entered L m top { f with result := some x.eax } rest
      { x with eip := load m slot, esp := BitVec.ofNat 32 (slot + 4) } rest := by
  have hinside := hheld.inside
  have hnat := Unwinds.toNat_ofNat (a := slot + 4) (by omega) htop
  have hheld' : Held m top { f with result := some x.eax } (slot + 4) :=
    ⟨⟨hheld.params.ds, hheld.params.edi, hheld.params.esi, hheld.params.ebp, hheld.params.ebx,
      hheld.params.edx,
      hheld.params.ecx, hheld.params.eax, hheld.params.number, hheld.params.eip, hheld.params.cs,
      hheld.params.eflags,
      hheld.params.user⟩, hheld.user, hheld.esp, hheld.inside, hheld.low, hheld.ss, hheld.shadow,
      hheld.saved⟩
  refine .exit hC.cs hC.ss ?_
  obtain ⟨origin, cpu, mem, result⟩ := f
  have hisr : ∀ (horigin : ∀ err, origin ≠ .trap .syscall err) (hfork : origin ≠ .fork)
      (hresumed : Frame.resumed ⟨origin, cpu, mem, some x.eax⟩ = some cpu)
      (hwhere : load m slot = L.addr .isrCommonStub 9 ∨ load m slot = L.addr .isrCommonStub 10),
      Unwinds L.code m top (AtExit L m top ⟨origin, cpu, mem, some x.eax⟩)
        { x with eip := load m slot, esp := BitVec.ofNat 32 (slot + 4) } := by
    intro horigin hfork hresumed hwhere
    rcases hwhere with hwhere | hwhere
    · exact .done (.schedule hwhere hC.ds (by simpa only [hnat] using hheld') horigin hfork)
    · exact unwinds_interruptExit hheld' htop hwhere rfl hC.ss hresumed
  cases origin with
  | trap v err =>
    cases v with
    | isr num => exact hisr (by simp) (by simp) rfl hreturns
    | syscall => exact unwinds_syscallExit hheld' htop hreturns rfl hC.ss rfl rfl
  | fresh => exact hisr (by simp) (by simp) rfl hreturns
  | fork => exact hreturns.elim

theorem agree_ret {slot : Nat} {slots : List Nat} (hs : Stable L s c) (hC : s.InC L)
    (hcalls : s.calls s.crt = slot :: slots) :
    ∃ b, CStep L c (.ret s.cpu.eax) b ∧
      Agree L { s with cpu := s.returned slot, calls := Function.update s.calls s.crt slots } b := by
  have hcrt := hs.crt
  have hactive := hs.active
  have hstackEnd : s.top s.crt < 2 ^ 32 := hs.regions.stackEnd s.crt hs.crtLive
  cases hframes : c.frames s.crt with
  | nil =>
    rw [hframes, hcalls] at hactive
    cases hactive.1
  | cons f fs =>
    rw [hframes, hcalls] at hactive
    obtain ⟨rest, hentered, hstack, hlive⟩ := hactive
    obtain ⟨slot', hslots, hcode, -, hreturns, hheld⟩ := hentered.slot_of_loc hC.2
    obtain ⟨rfl, rfl⟩ := List.cons.inj hslots
    refine ⟨_, .ret c s.cpu.eax f fs (by rw [hcrt]; exact hframes), .done ?_⟩
    refine stable_of_live (s := s) ⟨s.returned slot, s.mem⟩ hs ?_ (fun honly => ?_) fun z hz => rfl
    · have hinside := hheld.inside
      have hnat := Unwinds.toNat_ofNat (a := slot + 4) (by omega) hstackEnd
      refine ⟨slots, entered_returned hcode hreturns hheld hstackEnd, fun hfu => ?_, hlive⟩
      have hfesp := hheld.esp hfu
      refine ⟨?_, (hstack hfu).2⟩
      simp only [Machine.returned, hnat]
      omega
    · rw [hframes] at honly
      refine ⟨honly.1, fun g hg => ?_⟩
      rcases List.mem_cons.mp hg with rfl | hg
      · exact honly.2 f List.mem_cons_self
      · exact honly.2 g (List.mem_cons_of_mem f hg)

end LuckOS.TrapExit
