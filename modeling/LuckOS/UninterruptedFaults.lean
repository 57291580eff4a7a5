import LuckOS.CowInterleaving

/-!
# Page faults that nobody interrupts

The steps of a handler that nobody interrupts are those of `page_fault_handler`. Page faults that are handled one after
the other are a run of the interleaving, so that its steps lose nothing of the sequential code.
-/

namespace LuckOS.Paging

open CopyOnWrite Outcome Runs

variable {s t : Paging} {d addr : Nat} {c : CowFault} {faults : List (Nat × UserAddr)}

/-- Handle a fault without interruption, in at most `n` steps. -/
def serveToEnd : Nat → Paging → CowFault → Option Paging
  | 0, _, _ => none
  | n + 1, s, c =>
    match serveFault s c with
    | none => none
    | some (s, none) => some s
    | some (s, some c) => serveToEnd n s c

/-- The steps of a handler that nobody interrupts are the copy-on-write branch. -/
theorem serveToEnd_eq {s : Paging} {c : CowFault} (hphase : c.phase = .raised) (hp : isUserPage c.page)
    (hpresent : (s.getPte c.page).present) (hrw : (s.getPte c.page).rw = false)
    (hpde : (s.getPde (c.page / 1024)).present) (hwindow : (s.getPde (copiedPageVaddr / pageSize / 1024)).present)
    (hsize : s.phyFramesMap.sizes = (256, 256)) (hzero : s.phyFramesMap.testBit 0 = true) :
    serveToEnd 4 s c = (s.pageFaultHandler (c.page * pageSize)).toOption := by
  have hdiv : c.page * pageSize / pageSize = c.page := by
    simp [pageSize]
  have hready : s.ensurePageTable (c.page * pageSize / 2 ^ 22) = .ok s := by
    rw [div_table, hdiv]
    exact ensurePageTable_present hpde
  rw [pageFaultHandler, mapPage, mapPageWithFrame, mapPageWithFrameImpl, hdiv, hready,
    show c.page * pageSize / 2 ^ 12 = c.page from hdiv]
  simp only [bind, Except.bind, hpresent, hrw]
  simp only [serveToEnd, serveFault, hphase]
  set r := s.changeCowFrameRefcount (s.getPte c.page).frame (-1) with hr
  have hkeep : r.2.dirs = s.dirs ∧ r.2.crt = s.crt ∧ r.2.phyFramesMap = s.phyFramesMap := by
    rw [hr, changeCowFrameRefcount]
    split_ifs <;> exact ⟨rfl, rfl, rfl⟩
  have hentry : ∀ {t : Paging}, t.dirs = s.dirs → t.crt = s.crt → t.getPte c.page = s.getPte c.page := by
    intro t hdirs hcrt
    rw [getPte_user hp, getPte_user hp, crtDir, crtDir, hdirs, hcrt]
  by_cases hshared : 0 < r.1
  · simp only [hshared]
    cases ha : r.2.allocatePhyFrame with
    | none => rfl
    | some x =>
      obtain ⟨g, t⟩ := x
      obtain ⟨hstep, hfree, -⟩ := allocatePhyFrame_spec (by rw [hkeep.2.2]; exact hsize) ha
      have hpos : 0 < g := by
        refine Nat.pos_of_ne_zero ?_
        rintro rfl
        rw [hkeep.2.2, hzero] at hfree
        simp at hfree
      have hpde' : (t.getPde (copiedPageVaddr / pageSize / 1024)).present := by
        rw [getPde, crtDir, hstep.dirs, hstep.crt, hkeep.1, hkeep.2.1]
        exact hwindow
      have hcopied : (((t.setPte (copiedPageVaddr / pageSize) (.mapTo g)).memcpyPage copiedPageVaddr
          (c.page * pageSize)).getPte c.page) = s.getPte c.page := by
        rw [setPte_kernel isKernelPage_copiedPage]
        exact hentry (hstep.dirs.trans hkeep.1) (hstep.crt.trans hkeep.2.1)
      simp [mapPageWithFrameImpl_frame hpde' 0 hpos, hcopied, hpresent, Except.toOption]
  · have hsame := hentry hkeep.1 hkeep.2.1
    simp [hshared, hsame, hpresent, Except.toOption]

/-! ## The current directory stays -/

theorem crt_setPte (i : Nat) (e : Pte) : (s.setPte i e).crt = s.crt := by
  rw [setPte]
  split_ifs <;> rfl

theorem crt_changeCowFrameRefcount (frame : Nat) (delta : Int) : (s.changeCowFrameRefcount frame delta).2.crt = s.crt := by
  rw [changeCowFrameRefcount]
  split_ifs <;> rfl

theorem crt_releasePage (addr : Nat) (freeFrame : Bool) : (s.releasePage addr freeFrame).crt = s.crt := by
  have hchange := crt_changeCowFrameRefcount (s := s) (s.getPte (addr / pageSize)).frame (-1)
  simp only [releasePage]
  split_ifs
  · rfl
  · rw [crt_setPte]
    exact hchange
  · rw [crt_setPte, hchange]
  · exact crt_setPte _ _

theorem crt_forRange {body : Paging → Nat → Paging} (hbody : ∀ s i, (body s i).crt = s.crt) (lo hi : Nat) :
    (forRange lo hi s body).crt = s.crt :=
  foldl_invariant (I := fun _ (t : Paging) => t.crt = s.crt) rfl fun _ _ _ t _ ht => (hbody t _).trans ht

theorem crt_releasePages (addr pages : Nat) (freeFrame : Bool) : (s.releasePages addr pages freeFrame).crt = s.crt := by
  apply crt_forRange
  intro t i
  split_ifs
  · rfl
  · exact crt_forRange (fun u j => crt_releasePage _ _) _ _

theorem crt_allocatePhyFrame {g : Nat} (h : s.allocatePhyFrame = some (g, t)) : t.crt = s.crt := by
  obtain ⟨r, -, heq⟩ := Option.map_eq_some_iff.mp h
  cases heq
  rfl

theorem crt_ensurePageTable {i : Nat} (h : s.ensurePageTable i = .ok t) : t.crt = s.crt := by
  rw [ensurePageTable] at h
  split_ifs at h
  · cases ha : s.allocatePhyFrame with
    | none =>
      rw [ha] at h
      cases h
    | some r =>
      rw [ha] at h
      cases h
      have hset : ((r.2.setPde i (.mapTo r.1)).clearPageTable i).crt = r.2.crt := by
        rw [clearPageTable]
        split_ifs <;> rfl
      exact hset.trans (crt_allocatePhyFrame ha)
  · cases h
    rfl

/-- The copy window is mapped by a call that does not copy itself. -/
theorem crt_mapPageWithFrameImpl {addr : Nat} {frame : Int} (h : s.mapPageWithFrameImpl 1 addr frame = .ok t) :
    t.crt = s.crt := by
  rw [mapPageWithFrameImpl] at h
  obtain ⟨u, hu, h⟩ := bind_eq_ok h
  have hcrt := crt_ensurePageTable hu
  dsimp only at h
  split_ifs at h
  · cases h
    exact (crt_setPte _ _).trans hcrt
  · cases ha : u.allocatePhyFrame with
    | none =>
      rw [ha] at h
      cases h
    | some r =>
      rw [ha] at h
      cases h
      exact (crt_setPte _ _).trans ((crt_allocatePhyFrame ha).trans hcrt)
  · cases ha : (u.changeCowFrameRefcount (u.getPte (addr / 2 ^ 12)).frame (-1)).2.allocatePhyFrame with
    | none =>
      rw [ha] at h
      cases h
    | some r =>
      rw [ha] at h
      cases h
  · cases h
    exact (crt_setPte _ _).trans ((crt_changeCowFrameRefcount _ _).trans hcrt)
  · cases h
    exact hcrt

theorem crt_serveFault {r : Paging × Option CowFault} (h : serveFault s c = some r) : r.1.crt = s.crt := by
  rw [serveFault] at h
  cases hphase : c.phase with
  | raised =>
    rw [hphase] at h
    cases h
    exact crt_changeCowFrameRefcount _ _
  | decremented =>
    rw [hphase] at h
    obtain ⟨x, hx, rfl⟩ := Option.map_eq_some_iff.mp h
    exact crt_allocatePhyFrame hx
  | allocated frame =>
    rw [hphase] at h
    cases hmap : s.mapPageWithFrameImpl 1 copiedPageVaddr frame with
    | error e => simp [hmap] at h
    | ok u =>
      simp only [hmap, Option.some.injEq] at h
      subst h
      have hcrt : u.crt = s.crt := crt_mapPageWithFrameImpl hmap
      exact hcrt
  | copied frame =>
    rw [hphase] at h
    cases h
    exact (crt_releasePages _ _ _).trans (crt_setPte _ _)
  | owning =>
    rw [hphase] at h
    cases h
    exact crt_setPte _ _

/-! ## Runs -/

namespace Interleaving

/-- The steps of a handler that nobody interrupts. -/
theorem run_serveToEnd {n : Nat} (st : Interleaving) (hcrt : s.crt = d) (hpaging : st.running d = s)
    (hfault : st.fault d = some c) (h : serveToEnd n s c = some t) :
    ∃ k, Run (Steps step) st (List.replicate k (.serve d)) ⟨t, Function.update st.fault d none⟩ ∧ t.crt = d := by
  induction n generalizing s c st with
  | zero => cases h
  | succ n ih =>
    rw [serveToEnd] at h
    cases hserve : serveFault s c with
    | none =>
      rw [hserve] at h
      cases h
    | some r =>
      obtain ⟨u, rest⟩ := r
      have hcrt' : u.crt = d := (crt_serveFault hserve).trans hcrt
      have hstep : Steps step st (.serve d) ⟨u, Function.update st.fault d rest⟩ := by
        rw [Steps, step, hfault, hpaging]
        simp only [hserve, Option.map_some]
      rw [hserve] at h
      cases rest with
      | none =>
        cases h
        exact ⟨1, .cons hstep (.nil _), hcrt'⟩
      | some c' =>
        have hrunning : (⟨u, Function.update st.fault d (some c')⟩ : Interleaving).running d = u := by
          rw [running, ← hcrt']
        obtain ⟨k, hrun, ht⟩ := ih _ hcrt' hrunning (Function.update_self ..) h
        rw [Function.update_idem] at hrun
        exact ⟨k + 1, .cons hstep hrun, ht⟩

/-- The page of a fault that has nothing to do. -/
theorem pageFaultHandler_writable (hp : isUserPage (addr / pageSize)) (hs : s.Wf)
    (hpresent : (s.getPte (addr / pageSize)).present) (hrw : (s.getPte (addr / pageSize)).rw) :
    s.pageFaultHandler addr = .ok s := by
  have hdiv : addr / pageSize * pageSize / pageSize = addr / pageSize := by simp [pageSize]
  have hpte : (s.crtDir.pte (addr / pageSize)).present := by
    rw [← getPte_user hp]
    exact hpresent
  have htable : (s.getPde (addr / pageSize / 1024)).present := hs.tables _ hs.crt_lt _ hp hpte
  rw [pageFaultHandler, mapPage, mapPageWithFrame, mapPageWithFrameImpl, div_table, hdiv, ensurePageTable_present htable,
    show addr / pageSize * pageSize / 2 ^ 12 = addr / pageSize from hdiv]
  simp [bind, Except.bind, hpresent, hrw]

/-- A page fault that nobody interrupts. -/
theorem run_fault {st : Interleaving} {addr : UserAddr} (hs : s.Wf) (hpaging : ∀ d, st.running d = { s with crt := d })
    (hfault : st.fault = fun _ => none) (h : s.pageFaultHandler addr.1 = .ok t) : ∃ as st', Run (Steps step) st as st' ∧
      (∀ d, st'.running d = { t with crt := d }) ∧ st'.fault = fun _ => none := by
  have hpage : isUserPage (addr.1 / pageSize) := addr.2
  have hrunning : st.running s.crt = s := hpaging s.crt
  have hnum : (st.running s.crt).dirsNum = s.dirsNum := congrArg Paging.dirsNum hrunning
  have hlt : s.crt < st.paging.dirsNum := hs.crt_lt.trans_eq hnum.symm
  have hnone : st.fault s.crt = none := by rw [hfault]
  by_cases hpresent : (s.getPte (addr.1 / pageSize)).present
  · by_cases hrw : (s.getPte (addr.1 / pageSize)).rw
    · obtain rfl := Except.ok.inj ((pageFaultHandler_writable hpage hs hpresent hrw).symm.trans h)
      exact ⟨[], st, .nil st, hpaging, hfault⟩
    · -- The page is shared.
      have hrw' : (s.getPte (addr.1 / pageSize)).rw = false := by simpa using hrw
      have hraise : step st (.raise s.crt addr) = some ⟨s, Function.update st.fault s.crt
          (some ⟨addr.1 / pageSize, st.paging.bytes (s.getPte (addr.1 / pageSize)).frame, .raised⟩)⟩ := by
        rw [step, hrunning]
        exact if_pos ⟨hlt, hnone, hpresent, by rw [hrw']; rfl⟩
      have htable : (s.getPde (addr.1 / pageSize / 1024)).present := by
        rw [getPte_user hpage] at hpresent
        exact hs.tables _ hs.crt_lt _ hpage hpresent
      have hround : s.pageFaultHandler (addr.1 / pageSize * pageSize) = .ok t := by
        have hdiv : addr.1 / pageSize * pageSize / pageSize = addr.1 / pageSize := by simp [pageSize]
        rw [pageFaultHandler, hdiv]
        exact h
      have hserve := serveToEnd_eq (s := s)
        (c := ⟨addr.1 / pageSize, st.paging.bytes (s.getPte (addr.1 / pageSize)).frame, .raised⟩) rfl hpage hpresent hrw'
        htable (hs.kernel_pde _ hs.crt_lt _ (by decide) (by decide)) hs.size (hs.owner_used _ _ hs.owner_zero)
      rw [hround] at hserve
      obtain ⟨k, hrun, -⟩ := run_serveToEnd ⟨s, Function.update st.fault s.crt
        (some ⟨addr.1 / pageSize, st.paging.bytes (s.getPte (addr.1 / pageSize)).frame, .raised⟩)⟩ (d := s.crt) rfl rfl
        (Function.update_self ..) hserve
      refine ⟨_, _, .cons hraise hrun, fun d => rfl, ?_⟩
      have hdone : Function.update st.fault s.crt none = st.fault := Function.update_eq_self_iff.mpr hnone.symm
      exact (Function.update_idem ..).trans (hdone.trans hfault)
  · have htouch : step st (.touch s.crt addr) = some ⟨t, st.fault⟩ := by
      rw [step, hrunning]
      simp only [hlt, hnone, hpresent, h, and_self, Bool.not_false, if_true]
    exact ⟨_, _, .cons htouch (.nil _), fun d => rfl, hfault⟩

/-- Page faults, handled one after the other by the processes that they belong to. -/
def handleFaults (s : Paging) (faults : List (Nat × UserAddr)) : Except Panic Paging :=
  faults.foldlM (fun s x => ({ s with crt := x.1 } : Paging).pageFaultHandler x.2.1) s

/-- Page faults that nobody interrupts are a run of the interleaving. -/
theorem run_handleFaults {st : Interleaving} (hs : s.Wf) (hd : ∀ x ∈ faults, x.1 < s.dirsNum)
    (hpaging : ∀ d, st.running d = { s with crt := d }) (hfault : st.fault = fun _ => none)
    (h : handleFaults s faults = .ok t) : ∃ as st', Run (Steps step) st as st' ∧
      (∀ d, st'.running d = { t with crt := d }) ∧ st'.fault = fun _ => none := by
  induction faults generalizing s st with
  | nil =>
    cases h
    exact ⟨[], st, .nil st, hpaging, hfault⟩
  | cons x faults ih =>
    rw [handleFaults, List.foldlM_cons] at h
    obtain ⟨u, hu, h⟩ := bind_eq_ok h
    have hswitched := hs.switch (hd x (List.mem_cons_self ..))
    have hmapped := (pageFaultHandler_user hswitched x.2.2).of_ok hu
    obtain ⟨as, st', hrun, hpaging', hfault'⟩ := run_fault hswitched hpaging hfault hu
    obtain ⟨as', st'', hrun', hpaging'', hfault''⟩ := ih hmapped.wf
      (fun y hy => (hd y (List.mem_cons_of_mem _ hy)).trans_eq hmapped.dirsNum.symm) hpaging' hfault' h
    exact ⟨as ++ as', st'', hrun.append hrun', hpaging'', hfault''⟩

end Interleaving

end LuckOS.Paging
