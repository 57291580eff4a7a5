import LuckOS.CowProcessSteps

/-!
# Isolation of copy-on-write faults

As long as nobody takes over or gives back a frame that is still to be copied, every fault ends with the right bytes.
-/

namespace LuckOS.Paging

open CopyOnWrite Outcome Runs

namespace Interleaving

variable {st st' : Interleaving} {d : Nat} {c : CowFault}

/-- One step of a handler. -/
theorem Inv.serve (h : st.Inv) (hfault : st.fault d = some c) {r : Paging × Option CowFault}
    (hr : serveFault (st.running d) c = some r) :
    (st.LastUseApart (.serve d) → Inv ⟨r.1, Function.update st.fault d r.2⟩) ∧
      Isolated st ⟨r.1, Function.update st.fault d r.2⟩ d := by
  have hpending := h.pending d c hfault
  have hwf := h.settledAt hpending.lt
  have hpte := hpending.getPte
  have hframe : ((st.running d).getPte c.page).frame = st.sharedFrame d c := by
    rw [hpte]
    rfl
  have hopen : ∀ {t : Paging} {c' : CowFault}, Isolated st ⟨t, Function.update st.fault d (some c')⟩ d := by
    intro t c' _ _ hdone
    simp at hdone
  cases hphase : c.phase with
  | raised =>
    simp only [serveFault, hphase, hframe] at hr
    obtain ⟨counts, hchange, hpos, hcounts⟩ :=
      changeCowFrameRefcount_spec (s := st.running d) hwf.ready hwf.counts_pos (st.sharedFrame d c) (-1)
    rcases Nat.eq_zero_or_pos ((st.running d).cowCount (st.sharedFrame d c)) with hzero | hcount
    · rw [changeCowFrameRefcount_zero (e := st.running d) hwf.ready hwf.counts_pos hzero] at hr
      obtain rfl := Option.some.inj hr
      refine ⟨fun hapart => h.takeOver hfault hphase hzero (hapart _ ?_), hopen⟩
      simp only [lastUse, hfault]
      exact if_pos ⟨hphase, hzero⟩
    · rw [hchange] at hr
      simp only [Int.natCast_pos, hcount, if_true] at hr
      obtain rfl := Option.some.inj hr
      refine ⟨fun _ => h.decrement hfault hphase hcount hpos fun f => ?_, hopen⟩
      rw [hcounts f]
      change Function.update st.paging.cowCount _ ((st.paging.cowCount (st.sharedFrame d c) : Int) + -1).toNat f = _
      congr 1
      omega
  | decremented =>
    simp only [serveFault, hphase] at hr
    obtain ⟨⟨g, t⟩, halloc, rfl⟩ := Option.map_eq_some_iff.mp hr
    exact ⟨fun _ => h.allocate hfault hphase halloc, hopen⟩
  | allocated g =>
    have hpos : 0 < g := by
      refine Nat.pos_of_ne_zero ?_
      rintro rfl
      exact (hpending.target 0 (by rw [hphase]; rfl)).owner _ h.wf.owner_zero
    have hwindow : ((st.running d).getPde (copiedPageVaddr / pageSize / 1024)).present := by
      have hpde := hwf.kernelReady.pde_present isKernelPage_copiedPage
      change ((settledDir (st.paging.dirs d) (st.fault d)).pde _).present at hpde
      rw [settledDir_pde] at hpde
      exact hpde
    simp only [serveFault, hphase, mapPageWithFrameImpl_frame hwindow 0 hpos] at hr
    obtain rfl := Option.some.inj hr
    refine ⟨fun _ => ?_, hopen⟩
    have hcopy : ((st.running d).setPte (copiedPageVaddr / pageSize) (.mapTo g)).memcpyPage copiedPageVaddr
        (c.page * pageSize) = st.afterCopy d c g := by
      have hdiv : c.page * pageSize / pageSize = c.page := by
        simp [pageSize]
      rw [afterCopy, memcpyPage, hdiv, getPte_kernel isKernelPage_copiedPage, getPte_user hpending.user,
        setPte_kernel isKernelPage_copiedPage]
      simp only [Function.update_self]
      rfl
    rw [hcopy]
    exact h.copy hfault hphase
  | copied g =>
    simp only [serveFault, hphase] at hr
    obtain rfl := Option.some.inj hr
    exact ⟨fun _ => (h.update hfault hphase).1, (h.update hfault hphase).2⟩
  | owning =>
    simp only [serveFault, hphase] at hr
    obtain rfl := Option.some.inj hr
    exact ⟨fun _ => (h.upgrade hfault hphase).1, (h.upgrade hfault hphase).2⟩

/-- A step at which no frame is used up that another process is about to copy keeps the
invariant. -/
theorem Inv.preserved (h : st.Inv) {a : CowAction} (hapart : st.LastUseApart a) (hstep : st.step a = some st') :
    st'.Inv := by
  cases a with
  | raise d addr =>
    simp only [Interleaving.step, getPte_user addr.2, crtDir] at hstep
    split_ifs at hstep with hcond
    obtain rfl := Option.some.inj hstep
    obtain ⟨hd, hnone, hpresent, hrw⟩ := hcond
    exact h.raise hd hnone addr.2 hpresent (by simpa [running] using hrw)
  | serve d =>
    cases hfault : st.fault d with
    | none => simp [Interleaving.step, hfault] at hstep
    | some c =>
      simp only [Interleaving.step, hfault] at hstep
      obtain ⟨r, hr, rfl⟩ := Option.map_eq_some_iff.mp hstep
      exact (h.serve hfault hr).1 hapart
  | write d addr value =>
    simp only [Interleaving.step, getPte_user addr.2, crtDir] at hstep
    split_ifs at hstep with hcond
    obtain rfl := Option.some.inj hstep
    exact h.write hcond.1 addr value hcond.2.1 hcond.2.2
  | touch d addr =>
    simp only [Interleaving.step, getPte_user addr.2, crtDir] at hstep
    split_ifs at hstep with hcond
    cases ht : (st.running d).pageFaultHandler addr.1 with
    | error e => simp [ht] at hstep
    | ok t =>
      simp only [ht] at hstep
      obtain rfl := Option.some.inj hstep
      exact h.touch hcond.1 hcond.2.1 addr (by simpa [running] using hcond.2.2) ht
  | releasePage d page =>
    simp only [Interleaving.step] at hstep
    split_ifs at hstep with hcond
    obtain rfl := Option.some.inj hstep
    exact h.releasePage hcond.1 hcond.2.1 hcond.2.2 hapart
  | releaseTable d pdeIndex =>
    simp only [Interleaving.step] at hstep
    split_ifs at hstep with hcond
    obtain rfl := Option.some.inj hstep
    obtain ⟨hd, hnone, hi, hpresent, hempty⟩ := hcond
    exact h.releaseTable hd hnone hi hpresent hempty

theorem inv_of_wf {s : Paging} (hs : s.Wf) : Inv ⟨s, fun _ => none⟩ where
  wf := hs
  pending _ _ hc := by simp at hc
  apart _ _ _ _ hc := by simp at hc
  targets _ _ _ _ _ hc := by simp at hc

end Interleaving

open Interleaving

/-- In a run in which no frame is taken over or given back while another process is about
to copy it, every copy-on-write fault ends with the bytes of the moment at which it was
raised. -/
theorem cow_fault_isolated {s : Paging} (hs : s.Reachable) {as : List CowAction} {st st' : Interleaving} {d : Nat}
    (hrun : Run (Guarded LastUseApart (Steps Interleaving.step)) ⟨s, fun _ => none⟩ as st)
    (hstep : st.step (.serve d) = some st') : Isolated st st' d := by
  have hinv : st.Inv := hrun.invariant (fun h hstep => h.preserved hstep.1 hstep.2) (inv_of_wf hs.wf)
  cases hfault : st.fault d with
  | none => simp [Interleaving.step, hfault] at hstep
  | some c =>
    simp only [Interleaving.step, hfault] at hstep
    obtain ⟨r, hr, rfl⟩ := Option.map_eq_some_iff.mp hstep
    exact (hinv.serve hfault hr).2

/-- Two processes that share the page at 4 MB. -/
def sampleFork : Except Panic Paging :=
  boot (fun _ _ => 0) [] >>= fun s => [SystemOp.fault sampleAddr, .user (.fork sampleHeap)].foldlM systemStep s

theorem exists_sampleFork : ∃ s, sampleFork = .ok s ∧ s.Reachable := by
  have hok : sampleFork.isOk = true := by
    rw [sampleFork, boot, initPaging_eq]
    decide +kernel
  cases h : sampleFork with
  | error e => simp [h, Except.isOk, Except.toBool] at hok
  | ok s => exact ⟨s, rfl, fun _ _ => 0, ⟨[], by simp⟩, _, h⟩

/-- The states before and after the last step of a fault of the first process. -/
def sampleEnd (step : Interleaving → CowAction → Option Interleaving) (as : List CowAction) :
    Option (Interleaving × Interleaving) := do
  let s ← sampleFork.toOption
  let st ← execute step ⟨s, fun _ => none⟩ as
  let st' ← st.step (.serve 0)
  some (st, st')

theorem sampleEnd_eq_some {step : Interleaving → CowAction → Option Interleaving} {as : List CowAction}
    {r : Interleaving × Interleaving} (h : sampleEnd step as = some r) : ∃ s : Paging, s.Reachable ∧
      Run (Steps step) ⟨s, fun _ => none⟩ as r.1 ∧ r.1.step (.serve 0) = some r.2 := by
  obtain ⟨s, hs, hreach⟩ := exists_sampleFork
  simp only [sampleEnd, hs, Except.toOption, Option.bind_eq_bind, Option.bind_eq_some_iff, Option.some.injEq] at h
  obtain ⟨_, rfl, st, hst, st', hst', rfl⟩ := h
  exact ⟨s, hreach, run_of_execute hst, hst'⟩

/-- The steps that find no count at zero. -/
def quietStep (st : Interleaving) (a : CowAction) : Option Interleaving :=
  if (st.lastUse a).isNone then st.step a else none

theorem guarded_of_quietStep {st st' : Interleaving} {a : CowAction} (h : Steps quietStep st a st') :
    Guarded LastUseApart (Steps Interleaving.step) st a st' := by
  rw [Steps, quietStep] at h
  split_ifs at h with hquiet
  rw [Option.isNone_iff_eq_none] at hquiet
  refine ⟨fun f hf => ?_, h⟩
  simp [hquiet] at hf

/-- Both processes write to the shared page, and the first one is never interrupted between
its decrement and its copy. -/
theorem sample_fault_isolated : ∃ (s : Paging) (st st' : Interleaving) (c : CowFault), s.Reachable ∧
    Run (Guarded LastUseApart (Steps Interleaving.step)) ⟨s, fun _ => none⟩
      [.raise 0 sampleAddr, .raise 1 sampleAddr, .serve 0, .serve 0, .serve 0] st ∧
    st.step (.serve 0) = some st' ∧ st.fault 0 = some c ∧ st'.fault 0 = none ∧
    st'.paging.bytes (st'.sharedFrame 0 c) = c.snapshot := by
  have hcheck : (sampleEnd quietStep [.raise 0 sampleAddr, .raise 1 sampleAddr, .serve 0, .serve 0, .serve 0]).any
      (fun r => (r.1.fault 0).isSome && (r.2.fault 0).isNone) = true := by
    rw [sampleEnd, sampleFork, boot, initPaging_eq]
    decide +kernel
  rw [Option.any_eq_true] at hcheck
  obtain ⟨⟨st, st'⟩, hend, hfault⟩ := hcheck
  obtain ⟨s, hs, hrun, hstep⟩ := sampleEnd_eq_some hend
  simp only [Bool.and_eq_true, Option.isSome_iff_exists, Option.isNone_iff_eq_none] at hfault
  obtain ⟨⟨c, hc⟩, hdone⟩ := hfault
  have hrun' := hrun.mono guarded_of_quietStep
  exact ⟨s, st, st', c, hs, hrun', hstep, hc, hdone, (cow_fault_isolated hs hrun' hstep c hc hdone).2.2⟩

/-- Both processes fault on the shared page. The second one finds the count at zero after
the decrement of the first one, takes the frame over and writes to it, before the first
one copies it. -/
def sampleRace : List CowAction :=
  [.raise 0 sampleAddr, .raise 1 sampleAddr, .serve 0, .serve 1, .serve 1, .write 1 sampleAddr 7, .serve 0, .serve 0]

theorem sample_race_not_isolated : ∃ (s : Paging) (st st' : Interleaving), s.Reachable ∧
    Run (Steps Interleaving.step) ⟨s, fun _ => none⟩ sampleRace st ∧ st.step (.serve 0) = some st' ∧
    ¬ Isolated st st' 0 := by
  have hcheck : (sampleEnd Interleaving.step sampleRace).any (fun r => (r.2.fault 0).isNone &&
      (r.1.fault 0).any (fun c => r.2.paging.bytes (r.2.sharedFrame 0 c) 0 != c.snapshot 0)) = true := by
    rw [sampleEnd, sampleFork, boot, initPaging_eq]
    decide +kernel
  rw [Option.any_eq_true] at hcheck
  obtain ⟨⟨st, st'⟩, hend, hfault⟩ := hcheck
  obtain ⟨s, hs, hrun, hstep⟩ := sampleEnd_eq_some hend
  simp only [Bool.and_eq_true, Option.isNone_iff_eq_none, Option.any_eq_true, bne_iff_ne] at hfault
  obtain ⟨hdone, c, hc, hne⟩ := hfault
  refine ⟨s, st, st', hs, hrun, hstep, fun h => hne ?_⟩
  rw [(h c hc hdone).2.2]

end LuckOS.Paging
