import LuckOS.CowHandler

/-!
# Steps of a process beside the handlers

A process writes to its own pages, faults on a page that is not present, or releases its pages and page tables.
-/

namespace LuckOS.Paging

open CopyOnWrite Outcome Runs

namespace Interleaving

variable {st st' : Interleaving} {d : Nat} {c : CowFault}

/-- A writable entry is counted. -/
theorem Inv.ref_writable (h : st.Inv) {p : Nat} (hd : d < st.paging.dirsNum) (hp : isUserPage p)
    (hpresent : ((st.paging.dirs d).pte p).present) (hrw : ((st.paging.dirs d).pte p).rw) :
    st.settled.refs (d, p) = some ⟨((st.paging.dirs d).pte p).frame, true⟩ := by
  have hpte : (st.settled.dirs d).pte p = (st.paging.dirs d).pte p := by
    cases hfault : st.fault d with
    | none => rw [(visible_of_none hfault).settled_dirs]
    | some c =>
      have hne : p ≠ c.page := by
        rintro rfl
        simp [(h.pending d c hfault).readOnly] at hrw
      simp only [settled, settledDir, hfault]
      split_ifs
      · exact Function.update_of_ne hne _ _
      · rfl
  rw [← hpte] at hpresent hrw ⊢
  rw [h.wf.ref_eq hd hp hpresent, hrw]

/-- A process writes to a page of its own. -/
theorem Inv.write (h : st.Inv) (hd : d < st.paging.dirsNum) (addr : UserAddr) (value : Byte)
    (hpresent : ((st.paging.dirs d).pte (addr.1 / pageSize)).present)
    (hrw : ((st.paging.dirs d).pte (addr.1 / pageSize)).rw) :
    Inv ⟨(st.running d).storeByte addr.1 value, st.fault⟩ := by
  have href := h.ref_writable hd addr.2 hpresent hrw
  have hframe : (st.running d).getPte (addr.1 / pageSize) = (st.paging.dirs d).pte (addr.1 / pageSize) :=
    getPte_user addr.2
  have hbytes : ∀ f, f ≠ ((st.paging.dirs d).pte (addr.1 / pageSize)).frame →
      (settled ⟨(st.running d).storeByte addr.1 value, st.fault⟩).bytes f = st.settled.bytes f := by
    intro f hf
    rw [← hframe] at hf
    exact Function.update_of_ne hf _ _
  refine h.step (d := st.paging.dirsNum) none ⟨rfl, fun _ _ => rfl, fun _ _ => rfl⟩ ⟨?_, ?_, ?_⟩ ?_ ?_ (by simp) ?_
  · intro k f hk
    exact hbytes f (h.wf.ne_of_reader hk href)
  · intro g _ hg
    exact ⟨⟨hg.used, hg.refs, hg.owner⟩, hbytes g (hg.refs _ _ href).symm⟩
  · intro q r hr
    exact .inl ⟨r, hr, rfl⟩
  · exact (h.settledAt hd).withBytes _
  · intro x c _ hc hcopying
    exact (h.pending x c hc).reader hcopying
  · intro c hc
    exact absurd (h.pending _ c hc).lt (Nat.lt_irrefl _)

/-- Mapping an absent page takes frames that nobody uses. -/
theorem gentle_of_mapped {s t : Paging} {p : Nat} (hs : s.Wf) (h : Mapped s p t) (hnone : s.refs (s.crt, p) = none) :
    Gentle s t s.crt none := by
  obtain ⟨g, hrefs, -, hfresh⟩ := h.ref
  have hfree := hfresh hnone
  have hold : ∀ k r, t.refs k = some r → r.frame = g ∨ s.refs k = some r := by
    intro k r hk
    rw [hrefs] at hk
    by_cases hkey : k = (s.crt, p)
    · rw [hkey, Function.update_self, Option.some.injEq] at hk
      exact .inl (by rw [← hk])
    · rw [Function.update_of_ne hkey] at hk
      exact .inr hk
  refine ⟨fun k f hk => h.kept.bytes f (hs.sound.used k _ hk), fun g' _ hg' =>
    ⟨⟨h.kept.used g' hg'.used, ?_, ?_⟩, h.kept.bytes g' hg'.used⟩, fun q r hr => ?_⟩
  · rintro k r hk rfl
    rcases hold k r hk with hg | hk
    · have hused := hg'.used
      rw [hg, hfree] at hused
      exact absurd hused (by simp)
    · exact hg'.refs k r hk rfl
  · intro x hx
    rcases h.kept.owner x g' hx with hx | hunused
    · exact hg'.owner x hx
    · simp [hg'.used] at hunused
  · rcases hold _ r hr with hg | hk
    · rw [hg]
      exact .inr (hs.free_refs hfree)
    · exact .inl ⟨r, hk, rfl⟩

/-- A process faults on a page that is not present. -/
theorem Inv.touch (h : st.Inv) (hd : d < st.paging.dirsNum) (hnone : st.fault d = none) (addr : UserAddr)
    (habsent : ((st.paging.dirs d).pte (addr.1 / pageSize)).present = false) {t : Paging}
    (ht : (st.running d).pageFaultHandler addr.1 = .ok t) : Inv ⟨t, st.fault⟩ := by
  have hvisible := visible_of_none hnone
  have hwf := h.settledAt hd
  have hself : t.withOthers st.paging.dirs = t := by
    have hlocal := pageFaultHandler_withOthers (s := st.running d) st.paging.dirs addr.1
    rw [running_withOthers, ht] at hlocal
    exact (Except.ok.inj hlocal).symm
  have hok : (st.settledAt d).pageFaultHandler addr.1 = .ok (t.withOthers st.settled.dirs) := by
    rw [← hvisible.running, pageFaultHandler_withOthers, ht]
    rfl
  have hmapped := (pageFaultHandler_user hwf addr.2).of_ok hok
  obtain ⟨hsettled, hdirs⟩ := settled_of_withOthers st st.fault (d := d) hself hmapped.crt
    (fun _ _ => rfl) hvisible
  have href : st.settled.refs (d, addr.1 / pageSize) = none := by
    apply refs_of_absent
    rw [hvisible.settled_dirs]
    exact habsent
  rw [← hsettled] at hmapped
  refine h.step (d := d) none ⟨hmapped.dirsNum, hdirs, fun _ _ => rfl⟩
    (gentle_of_mapped hwf hmapped href).of_settledAt hmapped.wf ?_ (by simp) ?_
  · intro x c _ hc hcopying
    obtain ⟨k, hk⟩ := (h.pending x c hc).reader hcopying
    obtain ⟨g, hrefs, -⟩ := hmapped.ref
    have hkey : k ≠ (d, addr.1 / pageSize) := by
      rintro rfl
      simp [href] at hk
    refine ⟨k, ?_⟩
    rw [hrefs]
    exact (Function.update_of_ne hkey _ _).trans hk
  · intro c hc
    simp [hnone] at hc

/-- A process that exits releases a page. -/
theorem Inv.releasePage (h : st.Inv) {p : Nat} (hd : d < st.paging.dirsNum) (hnone : st.fault d = none)
    (hp : isUserPage p) (hapart : st.LastUseApart (.releasePage d p)) :
    Inv ⟨(st.running d).releasePage (p * pageSize) true, st.fault⟩ := by
  have hvisible := visible_of_none hnone
  have hwf := h.settledAt hd
  have hdropped := releasePage_user hwf hp
  obtain ⟨hsettled, hdirs⟩ := hvisible.settled_local
    (f := fun s => s.releasePage (p * pageSize) true) (fun _ _ => releasePage_withOthers _ _) hdropped.crt
  rw [← hsettled] at hdropped
  refine h.step (d := d) none ⟨hdropped.dirsNum, hdirs, fun _ _ => rfl⟩
    (gentle_of_dropped hdropped).of_settledAt hdropped.wf ?_ (by simp) ?_
  · intro x c _ hc hcopying
    obtain ⟨k, hk⟩ := (h.pending x c hc).reader hcopying
    have hrefs : (settled ⟨(st.running d).releasePage (p * pageSize) true, st.fault⟩).refs =
        Function.update st.settled.refs (d, p) none := hdropped.refs
    rw [hrefs]
    by_cases hkey : k = (d, p)
    · subst hkey
      have hcount : 0 < st.settled.cowCount (st.sharedFrame x c) := by
        rcases Nat.eq_zero_or_pos (st.settled.cowCount (st.sharedFrame x c)) with hzero | hpos
        · refine absurd ⟨c, hc, hcopying, rfl⟩ (hapart (st.sharedFrame x c) ?_ x)
          have hentry := hk
          simp only [Paging.refs, PageDir.ref, hvisible.settled_dirs] at hentry
          split_ifs at hentry with hlt hcond
          simp only [Option.some.injEq, Ref.mk.injEq] at hentry
          simp only [lastUse]
          rw [if_pos ⟨hcond.2.2, by rw [hentry.1]; exact hzero⟩, hentry.1]
        · exact hpos
      obtain ⟨k', hne, hk'⟩ := h.wf.exists_reader hk hcount
      exact ⟨k', by rw [Function.update_of_ne hne]; exact hk'⟩
    · exact ⟨k, by rw [Function.update_of_ne hkey]; exact hk⟩
  · intro c hc
    simp [hnone] at hc

/-- A process that exits releases a page table. -/
theorem Inv.releaseTable (h : st.Inv) {i : Nat} (hd : d < st.paging.dirsNum) (hnone : st.fault d = none)
    (hi : isUserTable i) (hpresent : ((st.paging.dirs d).pde i).present)
    (hempty : ∀ p < 768 * 1024, ((st.paging.dirs d).ref p).isNone) :
    Inv ⟨(st.running d).dropTable i, st.fault⟩ := by
  have hvisible := visible_of_none hnone
  have hwf := h.settledAt hd
  obtain ⟨hsettled, hdirs⟩ := hvisible.settled_local
    (f := fun s => s.dropTable i) (fun _ _ => dropTable_withOthers _) rfl
  have hpde : ((st.settledAt d).getPde i).present := by
    change ((st.settled.dirs d).pde i).present
    rw [hvisible.settled_dirs]
    exact hpresent
  have href : ∀ q, (st.settledAt d).refs (d, q) = none := by
    intro q
    by_cases hq : isUserPage q
    · have hlt : q < 768 * 1024 := by
        simp only [isUserPage, decide_eq_true_eq] at hq
        exact hq.2
      have hq := hempty q hlt
      rw [Option.isNone_iff_eq_none] at hq
      change (if d < st.settled.dirsNum then (st.settled.dirs d).ref q else none) = none
      rw [hvisible.settled_dirs, hq]
      exact ite_self _
    · exact refs_of_not_user hq
  have hdrop := dropTable_spec hwf hi hpde href
  have hrefs : (settled ⟨(st.running d).dropTable i, st.fault⟩).refs = st.settled.refs := by
    rw [hsettled]
    exact hdrop.refs
  refine h.step (d := d) none ⟨rfl, hdirs, fun _ _ => rfl⟩ ⟨fun _ _ _ => rfl, ?_, ?_⟩ ?_ ?_ (by simp) ?_
  · intro g _ hg
    refine ⟨⟨?_, by rw [hrefs]; exact hg.refs, ?_⟩, rfl⟩
    · have hne : g ≠ ((st.settledAt d).getPde i).frame := by
        rintro rfl
        exact hg.owner _ (hwf.owner_table hi hpde)
      have hused : (st.settledAt d).phyFramesMap.testBit g = true := hg.used
      rw [hsettled, dropTable_testBit, hused]
      simp [hne]
    · intro x hx
      rw [hsettled] at hx
      exact hg.owner x (hdrop.owner x g hx)
  · intro q r hr
    rw [hrefs] at hr
    exact .inl ⟨r, hr, rfl⟩
  · rw [hsettled]
    exact hdrop.wf
  · intro x c _ hc hcopying
    rw [hrefs]
    exact (h.pending x c hc).reader hcopying
  · intro c hc
    simp [hnone] at hc

end Interleaving

end LuckOS.Paging
