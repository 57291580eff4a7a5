import LuckOS.PagingUser

/-!
# Cloning the current directory

`clone_crt_page_dir` builds the new directory table by table and page by page. After
each page the new directory, cut off behind this page and added to the others, gives a
state that satisfies `Wf`. A marked page is one `share` of the copy-on-write store.
-/

namespace LuckOS.Paging

open CopyOnWrite Outcome

variable {s t u : Paging} {p : Nat}

/-- The state with one more directory. -/
def install (s : Paging) (d : PageDir) : Paging :=
  { s with dirs := Function.update s.dirs s.dirsNum d, dirsNum := s.dirsNum + 1 }

theorem install_dirs_self (s : Paging) (d : PageDir) : (s.install d).dirs s.dirsNum = d := by
  simp [install]

theorem install_dirs_of_ne {d : PageDir} {n : Nat} (hn : n ≠ s.dirsNum) : (s.install d).dirs n = s.dirs n := by
  simp [install, hn]

theorem install_refs_of_ne {d : PageDir} {x : Nat × Nat} (hx : x.1 ≠ s.dirsNum) :
    (s.install d).refs x = s.refs x := by
  have hlt : x.1 < s.dirsNum + 1 ↔ x.1 < s.dirsNum := by omega
  simp only [refs, install_dirs_of_ne hx]
  simp only [install, hlt]

theorem install_refs_self (d : PageDir) (q : Nat) : (s.install d).refs (s.dirsNum, q) = d.ref q := by
  simp [refs, install]

theorem refs_dirsNum (q : Nat) : s.refs (s.dirsNum, q) = none := by
  simp [refs]

theorem KernelStep.install (h : KernelStep s t) (d : PageDir) : KernelStep (s.install d) (t.install d) where
  dirs := by simp [Paging.install, h.dirs, h.dirsNum]
  dirsNum := by simp [Paging.install, h.dirsNum]
  crt := h.crt
  ready := h.ready
  counts := h.counts
  released := h.released
  size := h.size
  used := h.used
  bytes := h.bytes
  kernel_rw := h.kernel_rw

theorem KernelReady.of_install {d : PageDir} (h : (s.install d).Wf) (hne : s.crt ≠ s.dirsNum) : s.KernelReady where
  kernel_pde i hi hk := by
    have hpde := h.kernelReady.kernel_pde i hi hk
    rw [getPde, crtDir] at hpde ⊢
    change (((s.install d).dirs s.crt).pde i).present at hpde
    rwa [install_dirs_of_ne hne] at hpde
  kernel_rw := h.kernel_rw
  size := h.size

theorem Wf.switch (hs : s.Wf) {d : Nat} (hd : d < s.dirsNum) : Wf { s with crt := d } :=
  ⟨hs.sound, hs.ready, hs.counts_pos, hd, hs.tables, hs.kernel_pde, hs.kernel_rw, hs.size, hs.owner_used,
    hs.owner_private, hs.owner_inj, hs.aligned⟩

/-- The new directory refers to no user page. -/
theorem newPageDir_ref (d : PageDir) (g q : Nat) : (newPageDir d g).ref q = none := by
  simp [PageDir.ref, newPageDir, Pte.zero]

theorem install_newPageDir_refs (d : PageDir) (g : Nat) : (s.install (newPageDir d g)).refs = s.refs := by
  funext ⟨n, q⟩
  by_cases hn : n = s.dirsNum
  · subst hn
    rw [install_refs_self, newPageDir_ref, refs_dirsNum]
  · exact install_refs_of_ne hn

theorem install_newPageDir_owner (hcrt : s.crt < s.dirsNum) (d : PageDir) (g : Nat) :
    (s.install (newPageDir d g)).owner = Function.update s.owner (s.dirsNum, 0) (some g) := by
  have hnum : (s.install (newPageDir d g)).dirsNum = s.dirsNum + 1 := rfl
  have hpos : s.dirsNum ≠ 0 := by omega
  funext ⟨n, j⟩
  by_cases hn : n = s.dirsNum
  · subst hn
    by_cases hj : j = 0
    · subst hj
      simp only [owner, hnum, install_dirs_self, hpos, if_false, if_true, Nat.lt_succ_self, Function.update_self]
      rfl
    · rw [Function.update_of_ne (by simpa using hj)]
      have huser : ¬ (isUserTable j ∧ ((newPageDir d g).pde j).present) := by
        rintro ⟨huser, hpresent⟩
        simp only [isUserTable, decide_eq_true_eq] at huser
        rw [newPageDir] at hpresent
        simp only [hj, if_false, show j ≠ 769 by omega, show ¬ (768 ≤ j ∧ j < 1024) by omega] at hpresent
        simp [Pte.zero] at hpresent
      simp [owner, hnum, install_dirs_self, hj, huser, hpos]
  · have hlt : n < s.dirsNum + 1 ↔ n < s.dirsNum := by omega
    rw [Function.update_of_ne (by simp [hn])]
    simp only [owner, hnum, hlt, install_dirs_of_ne hn]

theorem Wf.install_newPageDir {g : Nat} (hs : s.Wf) (hg : s.phyFramesMap.testBit g = true)
    (howner : ∀ x, s.owner x ≠ some g) (hrefs : ∀ k r, s.refs k = some r → r.frame ≠ g) :
    (s.install (newPageDir s.crtDir g)).Wf := by
  have hnewRefs := install_newPageDir_refs (s := s) s.crtDir g
  have hnewOwner := install_newPageDir_owner hs.crt_lt s.crtDir g
  constructor
  · exact sound_of_eq hs.sound hnewRefs rfl fun _ h => h
  · exact hs.ready
  · exact hs.counts_pos
  · exact Nat.lt_succ_of_lt hs.crt_lt
  · intro d hd q hq hpresent
    by_cases hn : d = s.dirsNum
    · subst hn
      rw [install_dirs_self] at hpresent
      simp [newPageDir, Pte.zero] at hpresent
    · rw [install_dirs_of_ne hn] at hpresent ⊢
      exact hs.tables d (by change d < s.dirsNum + 1 at hd; omega) q hq hpresent
  · intro d hd i hi hk
    by_cases hn : d = s.dirsNum
    · subst hn
      have hcrt := hs.kernel_pde s.crt hs.crt_lt i hi hk
      simp only [isUserTable, decide_eq_true_eq] at hk
      rw [install_dirs_self, newPageDir]
      by_cases h0 : i = 0
      · subst h0
        exact hcrt
      · by_cases hself : i = 769
        · simp [hself, Pte.mapTo]
        · simp only [h0, hself, if_false, show 768 ≤ i ∧ i < 1024 by omega, and_self, if_true]
          exact hcrt
    · rw [install_dirs_of_ne hn]
      exact hs.kernel_pde d (by change d < s.dirsNum + 1 at hd; omega) i hi hk
  · exact hs.kernel_rw
  · exact hs.size
  · rw [hnewOwner]
    exact owner_update_forall hs.owner_used _ hg
  · rw [hnewOwner, hnewRefs]
    exact owner_update_forall hs.owner_private _ hrefs
  · rw [hnewOwner]
    exact owner_update_inj hs.owner_inj _ howner
  · rw [hnewRefs]
    exact hs.aligned

/-- A reference without write permission. -/
def readOnly (r : Ref Nat) : Ref Nat := ⟨r.frame, false⟩

/-- The user pages `copied` of the current directory of `s` are shared with the last
directory of `u`. -/
structure Copied (s : Paging) (copied : Nat → Prop) (u : Paging) : Prop where
  wf : u.Wf
  crt : u.crt = s.crt
  dirsNum : u.dirsNum = s.dirsNum + 1
  frame : ∀ d, d < s.dirsNum → (u.dirs d).frame = (s.dirs d).frame
  copied_refs : ∀ q, copied q → u.refs (s.dirsNum, q) = (s.refs (s.crt, q)).map readOnly ∧
    u.refs (s.crt, q) = (s.refs (s.crt, q)).map readOnly
  not_copied : ∀ q, ¬ copied q → u.refs (s.dirsNum, q) = none
  refs : ∀ x, x.1 ≠ s.dirsNum → ¬ (x.1 = s.crt ∧ copied x.2) → u.refs x = s.refs x
  copied_view : ∀ q, copied q → u.pageView (s.dirsNum, q) = s.pageView (s.crt, q)
  view : ∀ x, x.1 ≠ s.dirsNum → u.pageView x = s.pageView x
  released : u.released = s.released

/-- Steps that keep references and views. -/
theorem Copied.same {copied : Nat → Prop} {v : Paging} (h : Copied s copied u) (hwf : v.Wf) (hcrt : v.crt = u.crt)
    (hnum : v.dirsNum = u.dirsNum) (hframe : ∀ d, (v.dirs d).frame = (u.dirs d).frame) (hrefs : v.refs = u.refs)
    (hview : v.pageView = u.pageView) (hreleased : v.released = u.released) : Copied s copied v where
  wf := hwf
  crt := hcrt.trans h.crt
  dirsNum := hnum.trans h.dirsNum
  frame d hd := (hframe d).trans (h.frame d hd)
  copied_refs := by
    rw [hrefs]
    exact h.copied_refs
  not_copied := by
    rw [hrefs]
    exact h.not_copied
  refs := by
    rw [hrefs]
    exact h.refs
  copied_view := by
    rw [hview]
    exact h.copied_view
  view := by
    rw [hview]
    exact h.view
  released := hreleased.trans h.released

theorem Copied.kernelStep {copied : Nat → Prop} {v : Paging} (h : Copied s copied u) (hv : KernelStep u v) :
    Copied s copied v :=
  h.same (h.wf.kernelStep hv) hv.crt hv.dirsNum (fun d => by rw [hv.dirs]) hv.refs (h.wf.pageView_kernelStep hv)
    hv.released

/-- Pages that are not mapped count as copied. -/
theorem Copied.of_none {copied copied' : Nat → Prop} (h : Copied s copied u) (hsub : ∀ q, copied q → copied' q)
    (hnone : ∀ q, copied' q → ¬ copied q → s.refs (s.crt, q) = none) (hcrt : s.crt ≠ s.dirsNum) :
    Copied s copied' u where
  wf := h.wf
  crt := h.crt
  dirsNum := h.dirsNum
  frame := h.frame
  copied_refs q hq := by
    by_cases hc : copied q
    · exact h.copied_refs q hc
    · have hs := hnone q hq hc
      rw [h.not_copied q hc, h.refs (s.crt, q) hcrt fun hx => hc hx.2, hs]
      exact ⟨rfl, rfl⟩
  not_copied q hq := h.not_copied q fun hc => hq (hsub q hc)
  refs x hx hnot := h.refs x hx fun hx' => hnot ⟨hx'.1, hsub _ hx'.2⟩
  copied_view q hq := by
    by_cases hc : copied q
    · exact h.copied_view q hc
    · have hu : u.pageView (s.dirsNum, q) = fun _ => 0 := Store.view_of_none (s := u.store) (h.not_copied q hc)
      have hs : s.pageView (s.crt, q) = fun _ => 0 := Store.view_of_none (s := s.store) (hnone q hq hc)
      rw [hu, hs]
  view := h.view
  released := h.released

/-- The page `p` becomes a copy-on-write page of two directories. -/
theorem Wf.shared {v : Paging} {d : Nat} (hs : u.Wf) (hd : d < u.dirsNum) (hne : d ≠ u.crt) (hp : isUserPage p)
    (hpresent : ((u.dirs u.crt).pte p).present) (hnone : u.refs (d, p) = none)
    (hpde : ((u.dirs d).pde (p / 1024)).present) (hkept : TablesKept u v)
    (hpte : ∀ n q, (v.dirs n).pte q = if (n = u.crt ∨ n = d) ∧ q = p then
      { (u.dirs u.crt).pte p with rw := false } else (u.dirs n).pte q)
    (hpos : ∀ f c, v.frameCowRefCounts f = some c → 0 < c)
    (hcounts : v.cowCount = Function.update u.cowCount ((u.dirs u.crt).pte p).frame
      (u.cowCount ((u.dirs u.crt).pte p).frame + 1))
    (hmap : v.phyFramesMap = u.phyFramesMap) (hbytes : v.bytes = u.bytes) :
    v.Wf ∧ v.store = u.store.share (u.crt, p) (d, p) ((u.dirs u.crt).pte p).frame := by
  have href := hs.ref_eq hs.crt_lt hp hpresent
  have hcrtPde := hs.tables _ hs.crt_lt p hp hpresent
  have hrefs : v.refs = Function.update (Function.update u.refs (u.crt, p)
      (some ⟨((u.dirs u.crt).pte p).frame, false⟩)) (d, p) (some ⟨((u.dirs u.crt).pte p).frame, false⟩) := by
    funext ⟨n, q⟩
    simp only [Paging.refs, PageDir.ref, hkept.dirsNum, hkept.pde, hpte]
    by_cases hq : q = p
    · subst hq
      by_cases hnd : n = d
      · subst hnd
        simp [hd, hp, hpde, hpresent]
      · by_cases hnc : n = u.crt
        · subst hnc
          simp [hs.crt_lt, hp, hcrtPde, hpresent, Ne.symm hne]
        · simp [hnd, hnc, Paging.refs, PageDir.ref]
    · simp [hq, Paging.refs, PageDir.ref]
  have hstore : v.store = u.store.share (u.crt, p) (d, p) ((u.dirs u.crt).pte p).frame := by
    simp only [store, Store.share, hrefs, hcounts, hbytes, usedFrames, hmap]
  refine ⟨?_, hstore⟩
  refine hs.tablesKept hkept ?_ hpos ?_ ?_ ?_ ?_
  · rw [hstore]
    exact hs.sound.share href hnone
  · intro n hn q hq hqp
    rw [hpte] at hqp
    split_ifs at hqp with hx
    · obtain ⟨rfl | rfl, rfl⟩ := hx
      · exact hcrtPde
      · exact hpde
    · exact hs.tables n hn q hq hqp
  · rw [hmap]
    exact hs.owner_used
  · intro x f hx k r hk
    have hold := hs.owner_private x f hx _ _ href
    rw [hrefs] at hk
    by_cases hkd : k = (d, p)
    · rw [hkd, Function.update_self] at hk
      cases hk
      exact hold
    · rw [Function.update_of_ne hkd] at hk
      by_cases hkc : k = (u.crt, p)
      · rw [hkc, Function.update_self] at hk
        cases hk
        exact hold
      · rw [Function.update_of_ne hkc] at hk
        exact hs.owner_private x f hx k r hk
  · have hsame : ∀ k r, u.refs k = some r → r.frame = ((u.dirs u.crt).pte p).frame → k.2 = p :=
      fun k r hk hr => hs.aligned k _ r _ hk href hr
    rw [hrefs]
    refine (hs.aligned.update_some _ hsame).update_some _ ?_
    intro k r hk hr
    by_cases hkc : k = (u.crt, p)
    · rw [hkc]
    · rw [Function.update_of_ne hkc] at hk
      exact hsame k r hk hr

/-- One more shared page. -/
theorem Copied.snoc {copied : Nat → Prop} {v : Paging} {r : Ref Nat} (h : Copied s copied u) (hcrt : s.crt ≠ s.dirsNum)
    (hp : ¬ copied p) (href : u.refs (s.crt, p) = some r) (hwf : v.Wf) (hkept : TablesKept u v)
    (hstore : v.store = u.store.share (s.crt, p) (s.dirsNum, p) r.frame) (hreleased : v.released = u.released) :
    Copied s (fun q => copied q ∨ q = p) v := by
  have hold : s.refs (s.crt, p) = some r := by
    rw [← h.refs (s.crt, p) hcrt fun hx => hp hx.2]
    exact href
  have hrefs : v.refs = Function.update (Function.update u.refs (s.crt, p) (some (readOnly r))) (s.dirsNum, p)
      (some (readOnly r)) := congrArg Store.ref hstore
  have hview : ∀ x, v.pageView x = if x = (s.dirsNum, p) then u.pageView (s.crt, p) else u.pageView x := by
    intro x
    rw [pageView, hstore]
    exact Store.view_share (s := u.store) href _ x
  refine ⟨hwf, hkept.crt.trans h.crt, hkept.dirsNum.trans h.dirsNum,
    fun d hd => (hkept.frame d).trans (h.frame d hd), ?_, ?_, ?_, ?_, ?_, hreleased.trans h.released⟩
  · intro q hq
    rw [hrefs]
    by_cases hqp : q = p
    · subst hqp
      rw [Function.update_self, Function.update_of_ne (by simpa using hcrt), Function.update_self, hold]
      exact ⟨rfl, rfl⟩
    · have hc := h.copied_refs q (hq.resolve_right hqp)
      rw [Function.update_of_ne (by simpa using hqp), Function.update_of_ne (by simpa using fun _ => hqp),
        Function.update_of_ne (by simpa using fun _ => hqp), Function.update_of_ne (by simpa using hqp)]
      exact hc
  · intro q hq
    rw [not_or] at hq
    rw [hrefs, Function.update_of_ne (by simpa using hq.2), Function.update_of_ne (by simpa using fun _ => hq.2)]
    exact h.not_copied q hq.1
  · intro x hx hnot
    have hxd : x ≠ (s.dirsNum, p) := by
      rintro rfl
      exact hx rfl
    have hxc : x ≠ (s.crt, p) := by
      rintro rfl
      exact hnot ⟨rfl, .inr rfl⟩
    rw [hrefs, Function.update_of_ne hxd, Function.update_of_ne hxc]
    exact h.refs x hx fun hx' => hnot ⟨hx'.1, .inl hx'.2⟩
  · intro q hq
    rw [hview]
    split_ifs with hqp
    · obtain rfl : q = p := by simpa using hqp
      exact h.view _ hcrt
    · exact h.copied_view q (hq.resolve_right fun hqp' => hqp (by rw [hqp']))
  · intro x hx
    rw [hview, if_neg]
    · exact h.view x hx
    · rintro rfl
      exact hx rfl

/-- The directory with the page table of frame `g` at index `i`, empty from its entry `b` on. -/
def PageDir.upTo (d : PageDir) (i g b : Nat) : PageDir :=
  { d with
    pde := Function.update d.pde i (.mapTo g)
    pte := fun q => if q / 1024 = i ∧ i * 1024 + b ≤ q then .zero else d.pte q }

/-- The loop that marks the entries of table `i` has visited `b` entries; the pages
`done` belong to earlier tables. -/
structure Marking (s : Paging) (done : Nat → Prop) (i g b : Nat) (st : Paging × PageDir) : Prop where
  copied : Copied s (fun q => done q ∨ q / 1024 = i ∧ q < i * 1024 + b) (st.1.install (st.2.upTo i g b))
  rest : ∀ q, q / 1024 = i → i * 1024 + b ≤ q → st.2.pte q = st.1.crtDir.pte q

section Mark

variable {done : Nat → Prop} {i g b : Nat} {d : PageDir}

theorem Marking.dirsNum {st : Paging × PageDir} (h : Marking s done i g b st) : st.1.dirsNum = s.dirsNum := by
  have hnum := h.copied.dirsNum
  change st.1.dirsNum + 1 = s.dirsNum + 1 at hnum
  omega

theorem Marking.crt {st : Paging × PageDir} (h : Marking s done i g b st) : st.1.crt = s.crt := h.copied.crt

theorem Marking.kernelStep (h : Marking s done i g b (t, d)) (ht : KernelStep t u) : Marking s done i g b (u, d) where
  copied := h.copied.kernelStep (ht.install _)
  rest q hq hb := by
    rw [h.rest q hq hb]
    simp only [crtDir, ht.dirs, ht.crt]

/-- An entry that is not present is passed over. -/
theorem Marking.skip (hs : s.crt ≠ s.dirsNum) (h : Marking s done i g b (t, d))
    (habsent : (d.pte (i * 1024 + b)).present = false) : Marking s done i g (b + 1) (t, d) := by
  have hnum := h.dirsNum
  have hcrt := h.crt
  have hpte : ∀ n, n ≠ t.dirsNum → (t.install (d.upTo i g (b + 1))).dirs n = (t.install (d.upTo i g b)).dirs n := by
    intro n hn
    rw [install_dirs_of_ne hn, install_dirs_of_ne hn]
  have hkept : TablesKept (t.install (d.upTo i g b)) (t.install (d.upTo i g (b + 1))) := by
    refine ⟨rfl, rfl, rfl, rfl, fun hk => hk, ?_, ?_⟩ <;>
    · intro n
      by_cases hn : n = t.dirsNum
      · subst hn
        rw [install_dirs_self, install_dirs_self]
        rfl
      · rw [hpte n hn]
  have hpresent : ∀ q, ((d.upTo i g (b + 1)).pte q).present → (d.upTo i g (b + 1)).pte q = (d.upTo i g b).pte q := by
    intro q hq
    simp only [PageDir.upTo] at hq ⊢
    by_cases hqb : q = i * 1024 + b
    · subst hqb
      rw [if_neg (by omega), habsent] at hq
      simp at hq
    · by_cases hlt : q / 1024 = i ∧ i * 1024 + b ≤ q
      · rw [if_pos hlt, if_pos (by omega)]
      · rw [if_neg hlt, if_neg (by omega)]
  have hrefs : (t.install (d.upTo i g (b + 1))).refs = (t.install (d.upTo i g b)).refs := by
    funext ⟨n, q⟩
    by_cases hn : n = t.dirsNum
    · subst hn
      rw [install_refs_self, install_refs_self]
      by_cases hq : ((d.upTo i g (b + 1)).pte q).present
      · simp only [PageDir.ref, hpresent q hq]
        rfl
      · have hq' : ((d.upTo i g b).pte q).present = false := by
          simp only [PageDir.upTo] at hq ⊢
          split_ifs with hlt
          · rfl
          · rw [if_neg (by omega)] at hq
            simpa using hq
        simp [PageDir.ref, hq, hq']
    · rw [install_refs_of_ne hn, install_refs_of_ne hn]
  have hwf : (t.install (d.upTo i g (b + 1))).Wf := by
    refine h.copied.wf.tablesKept hkept (sound_of_eq h.copied.wf.sound hrefs rfl fun _ hf => hf)
      h.copied.wf.counts_pos ?_ h.copied.wf.owner_used (by rw [hrefs]; exact h.copied.wf.owner_private)
      (by rw [hrefs]; exact h.copied.wf.aligned)
    intro n hn q hq hqp
    have htables := h.copied.wf.tables n hn q hq
    by_cases hnum' : n = t.dirsNum
    · subst hnum'
      rw [install_dirs_self] at hqp htables ⊢
      rw [hpresent q hqp] at hqp
      exact htables hqp
    · rw [hpte n hnum'] at hqp
      exact htables hqp
  have hview : (t.install (d.upTo i g (b + 1))).pageView = (t.install (d.upTo i g b)).pageView := by
    funext x
    exact Store.view_congr (s := (t.install (d.upTo i g b)).store) (t := (t.install (d.upTo i g (b + 1))).store)
      (congrFun hrefs x) fun _ _ => rfl
  refine ⟨?_, fun q hq hlt => h.rest q hq (by omega)⟩
  refine (h.copied.same hwf rfl rfl (hkept.frame) hrefs hview rfl).of_none ?_ ?_ hs
  · rintro q (hq | ⟨hq, hlt⟩)
    · exact .inl hq
    · exact .inr ⟨hq, by omega⟩
  · rintro q (hq | ⟨hq, hlt⟩) hnot
    · exact absurd (.inl hq) hnot
    · have hqb : q = i * 1024 + b := by
        by_contra hne
        exact hnot (.inr ⟨hq, by omega⟩)
      have hold : (t.install (d.upTo i g b)).refs (s.crt, q) = s.refs (s.crt, q) :=
        h.copied.refs (s.crt, q) hs fun hx => hnot hx.2
      rw [← hold, install_refs_of_ne (by rw [hnum]; exact hs)]
      apply refs_of_absent
      have hrest := h.rest q hq (by omega)
      rw [crtDir, hcrt] at hrest
      rw [← hrest, hqb]
      exact habsent

/-- A present entry is shared. -/
theorem Marking.mark {v : Paging} {e : Pte} (hs : s.crt ≠ s.dirsNum) (hi : isUserTable i)
    (hdone : ∀ q, done q → q / 1024 ≠ i) (h : Marking s done i g b (t, d)) (hb : b < 1024)
    (hpresent : (d.pte (i * 1024 + b)).present) (he : e = { d.pte (i * 1024 + b) with rw := false })
    (hdirs : v.dirs = Function.update t.dirs t.crt
      { t.dirs t.crt with pte := Function.update (t.dirs t.crt).pte (i * 1024 + b) e })
    (hnum' : v.dirsNum = t.dirsNum) (hcrv : v.crt = t.crt) (hready : v.copyOnWriteReady = t.copyOnWriteReady)
    (hmap : v.phyFramesMap = t.phyFramesMap) (hkernel : v.kernelPte = t.kernelPte) (hbytes : v.bytes = t.bytes)
    (hreleased : v.released = t.released) (hpos : ∀ f c, v.frameCowRefCounts f = some c → 0 < c)
    (hcounts : v.cowCount = Function.update t.cowCount e.frame (t.cowCount e.frame + 1)) :
    Marking s done i g (b + 1) (v, { d with pte := Function.update d.pte (i * 1024 + b) e }) := by
  have hnum : t.dirsNum = s.dirsNum := h.dirsNum
  have hcrt : t.crt = s.crt := h.crt
  have hne : t.crt ≠ t.dirsNum := by rwa [hnum, hcrt]
  have hdiv : (i * 1024 + b) / 1024 = i := by omega
  have huser : isUserPage (i * 1024 + b) := by
    rw [← isUserTable_div, hdiv]
    exact hi
  have hentry : d.pte (i * 1024 + b) = (t.dirs t.crt).pte (i * 1024 + b) := h.rest _ hdiv (le_refl _)
  have hold : (t.install (d.upTo i g b)).dirs t.crt = t.dirs t.crt := install_dirs_of_ne hne
  have hframe : e.frame = ((t.dirs t.crt).pte (i * 1024 + b)).frame := by rw [he, hentry]
  have hpresenv : (((t.install (d.upTo i g b)).dirs t.crt).pte (i * 1024 + b)).present := by
    rw [hold, ← hentry]
    exact hpresent
  have hnone : (t.install (d.upTo i g b)).refs (t.dirsNum, i * 1024 + b) = none := by
    rw [install_refs_self]
    simp [PageDir.ref, PageDir.upTo, hdiv, Pte.zero]
  have hpde : (((t.install (d.upTo i g b)).dirs t.dirsNum).pde ((i * 1024 + b) / 1024)).present := by
    rw [install_dirs_self, hdiv]
    simp [PageDir.upTo, Pte.mapTo]
  have hkept : TablesKept (t.install (d.upTo i g b))
      (v.install (PageDir.upTo { d with pte := Function.update d.pte (i * 1024 + b) e } i g (b + 1))) := by
    refine ⟨?_, hcrv, hready, ?_, ?_, ?_, ?_⟩
    · simp [install, hnum']
    · simp [install, hmap]
    · simp [install, hkernel]
    all_goals
      intro n
      simp only [install, hnum', hdirs]
      by_cases hn : n = t.dirsNum
      · subst hn
        simp [PageDir.upTo]
      · by_cases hnc : n = t.crt
        · subst hnc
          simp [hn]
        · simp [hn, hnc]
  have hpte : ∀ n q, ((v.install (PageDir.upTo { d with pte := Function.update d.pte (i * 1024 + b) e } i g
      (b + 1))).dirs n).pte q = if (n = t.crt ∨ n = t.dirsNum) ∧ q = i * 1024 + b then
        { ((t.install (d.upTo i g b)).dirs t.crt).pte (i * 1024 + b) with rw := false }
      else ((t.install (d.upTo i g b)).dirs n).pte q := by
    intro n q
    rw [hold, ← hentry, ← he]
    simp only [install, hnum', hdirs]
    by_cases hn : n = t.dirsNum
    · subst hn
      by_cases hq : q = i * 1024 + b
      · subst hq
        simp [PageDir.upTo]
      · have hiff : (q / 1024 = i ∧ i * 1024 + (b + 1) ≤ q) ↔ (q / 1024 = i ∧ i * 1024 + b ≤ q) := by omega
        simp [PageDir.upTo, hq, hiff]
    · by_cases hnc : n = t.crt
      · subst hnc
        by_cases hq : q = i * 1024 + b <;> simp [hn, hq]
      · simp [hn, hnc]
  obtain ⟨hwf, hstore⟩ := h.copied.wf.shared (d := t.dirsNum) (p := i * 1024 + b) (Nat.lt_succ_self _) (Ne.symm hne)
    huser hpresenv hnone hpde hkept hpte hpos
    (by
      change v.cowCount = Function.update t.cowCount (((t.install (d.upTo i g b)).dirs t.crt).pte _).frame
        (t.cowCount (((t.install (d.upTo i g b)).dirs t.crt).pte _).frame + 1)
      rw [hold, ← hframe]
      exact hcounts)
    hmap hbytes
  have href := h.copied.wf.ref_eq h.copied.wf.crt_lt huser hpresenv
  change (t.install (d.upTo i g b)).refs (t.crt, i * 1024 + b) =
    some ⟨(((t.install (d.upTo i g b)).dirs t.crt).pte (i * 1024 + b)).frame,
      (((t.install (d.upTo i g b)).dirs t.crt).pte (i * 1024 + b)).rw⟩ at href
  change _ = (t.install (d.upTo i g b)).store.share (t.crt, i * 1024 + b) (t.dirsNum, i * 1024 + b)
    (((t.install (d.upTo i g b)).dirs t.crt).pte (i * 1024 + b)).frame at hstore
  rw [hcrt] at href
  rw [hnum, hcrt] at hstore
  have hnext := h.copied.snoc hs (p := i * 1024 + b) (by
    rintro (hq | ⟨-, hq⟩)
    · exact hdone _ hq hdiv
    · omega) href hwf hkept hstore hreleased
  refine ⟨?_, ?_⟩
  · refine hnext.of_none ?_ ?_ hs
    · rintro q ((hq | ⟨hq, hlt⟩) | rfl)
      · exact .inl hq
      · exact .inr ⟨hq, by omega⟩
      · exact .inr ⟨hdiv, by omega⟩
    · rintro q (hq | ⟨hq, hlt⟩) hnot
      · exact absurd (.inl (.inl hq)) hnot
      · refine absurd ?_ hnot
        by_cases hqb : q = i * 1024 + b
        · exact .inr hqb
        · exact .inl (.inr ⟨hq, by omega⟩)
  · intro q hq hlt
    have hqb : q ≠ i * 1024 + b := by omega
    simp only [crtDir, hdirs, hcrv, Function.update_self, Function.update_of_ne hqb]
    exact h.rest q hq (by omega)

/-- One turn of the marking loop. -/
theorem markCopyOnWrite_spec {st : Paging × PageDir} (heap : CloneHeap) (hs : s.crt ≠ s.dirsNum) (hi : isUserTable i)
    (hdone : ∀ q, done q → q / 1024 ≠ i) (h : Marking s done i g b st) (hb : b < 1024) :
    Ensures Panic.OutOfFrames (markCopyOnWrite heap i st b)
      (fun sv => Marking s done i g (b + 1) sv ∧ sv.2.pde = st.2.pde ∧ sv.2.frame = st.2.frame) := by
  obtain ⟨t, d⟩ := st
  have hdiv : (i * 1024 + b) / 1024 = i := by omega
  have huser : isUserPage (i * 1024 + b) := by
    rw [← isUserTable_div, hdiv]
    exact hi
  rw [markCopyOnWrite]
  by_cases hpresent : (d.pte (i * 1024 + b)).present
  · rw [if_neg (by simp [hpresent])]
    have hentry : d.pte (i * 1024 + b) = (t.dirs t.crt).pte (i * 1024 + b) := h.rest _ hdiv (le_refl _)
    obtain ⟨counts, hchange, hpos, hcounts⟩ := changeCowFrameRefcount_spec
      (s := t.setPte (i * 1024 + b) { t.getPte (i * 1024 + b) with rw := false })
      (by rw [setPte_user huser]; exact h.copied.wf.ready)
      (by rw [setPte_user huser]; exact h.copied.wf.counts_pos) (d.pte (i * 1024 + b)).frame 1
    have hmark := h.mark hs hi hdone hb hpresent rfl
      (v := ((t.setPte (i * 1024 + b) { t.getPte (i * 1024 + b) with rw := false }).changeCowFrameRefcount
        (d.pte (i * 1024 + b)).frame 1).2)
      (by
        rw [hchange, setPte_user huser, getPte_user huser, hentry]
        rfl)
      (by rw [hchange, setPte_user huser]; rfl) (by rw [hchange, setPte_user huser]; rfl)
      (by rw [hchange, setPte_user huser]; rfl) (by rw [hchange, setPte_user huser]; rfl)
      (by rw [hchange, setPte_user huser]; rfl) (by rw [hchange, setPte_user huser]; rfl)
      (by rw [hchange, setPte_user huser]; rfl) (by rw [hchange]; exact hpos)
      (by
        rw [hchange]
        funext f
        have hf := hcounts f
        rw [setPte_user huser] at hf
        exact hf)
    have hready := KernelReady.of_install hmark.copied.wf (by rw [hmark.dirsNum, hmark.crt]; exact hs)
    refine (touchPages_spec hready (heap.countPages_heap _)).bind fun u hu => ?_
    exact ⟨hmark.kernelStep hu, rfl, rfl⟩
  · rw [if_pos (by simp [hpresent])]
    exact ⟨h.skip hs (by simpa using hpresent), rfl, rfl⟩

/-- The whole marking loop. -/
theorem markTable_spec {st : Paging × PageDir} (heap : CloneHeap) (hs : s.crt ≠ s.dirsNum) (hi : isUserTable i)
    (hdone : ∀ q, done q → q / 1024 ≠ i) (h : Marking s done i g 0 st) {entries : List Nat}
    (hentries : entries = List.range 1024) :
    Ensures Panic.OutOfFrames (entries.foldlM (markCopyOnWrite heap i) st)
      (fun st' => Marking s done i g 1024 st' ∧ st'.2.pde = st.2.pde ∧ st'.2.frame = st.2.frame) := by
  have hlen : entries.length = 1024 := by rw [hentries, List.length_range]
  rw [← hlen]
  refine ensures_foldlM (I := fun visited st' =>
    Marking s done i g visited.length st' ∧ st'.2.pde = st.2.pde ∧ st'.2.frame = st.2.frame) ⟨h, rfl, rfl⟩ ?_
  rintro visited b rest st' hsplit ⟨hst', hpde, hframe⟩
  obtain ⟨rfl, hlt⟩ := eq_length_of_range_eq (hentries.symm.trans hsplit)
  refine (markCopyOnWrite_spec heap hs hi hdone hst' hlt).mono ?_
  rintro st'' ⟨hst'', hpde', hframe'⟩
  refine ⟨?_, hpde'.trans hpde, hframe'.trans hframe⟩
  rw [List.length_append, List.length_singleton]
  exact hst''

end Mark

/-- The loop over the page tables has visited the tables `done`. -/
structure Cloning (s : Paging) (done : List Nat) (st : Paging × PageDir) : Prop where
  copied : Copied s (fun q => q / 1024 ∈ done) (st.1.install st.2)
  later : ∀ j, isUserTable j → j ∉ done → (st.2.pde j).present = false

section Tables

variable {done : List Nat} {i g : Nat} {d : PageDir}

theorem Cloning.dirsNum {st : Paging × PageDir} (h : Cloning s done st) : st.1.dirsNum = s.dirsNum := by
  have hnum := h.copied.dirsNum
  change st.1.dirsNum + 1 = s.dirsNum + 1 at hnum
  omega

theorem Cloning.crt {st : Paging × PageDir} (h : Cloning s done st) : st.1.crt = s.crt := h.copied.crt

theorem Cloning.kernelReady (hs : s.crt ≠ s.dirsNum) (h : Cloning s done (t, d)) : t.KernelReady :=
  .of_install h.copied.wf (by
    have hnum := h.dirsNum
    have hcrt := h.crt
    simp only at hnum hcrt
    rwa [hnum, hcrt])

theorem Cloning.kernelStep (h : Cloning s done (t, d)) (ht : KernelStep t u) : Cloning s done (u, d) :=
  ⟨h.copied.kernelStep (ht.install _), h.later⟩

/-- Pages without a page table need no copy. -/
theorem Cloning.skip (hs : s.crt ≠ s.dirsNum) (h : Cloning s done (t, d)) (habsent : (t.getPde i).present = false) :
    Cloning s (done ++ [i]) (t, d) := by
  have hnum : t.dirsNum = s.dirsNum := h.dirsNum
  have hcrt : t.crt = s.crt := h.crt
  refine ⟨h.copied.of_none (fun q hq => List.mem_append_left _ hq) ?_ hs, ?_⟩
  · intro q hq hnot
    have hqi : q / 1024 = i := by
      rcases List.mem_append.mp hq with hq | hq
      · exact absurd hq hnot
      · simpa using hq
    have hold : (t.install d).refs (s.crt, q) = s.refs (s.crt, q) :=
      h.copied.refs (s.crt, q) hs fun hx => hnot hx.2
    rw [← hold, install_refs_of_ne (by rw [hnum]; exact hs)]
    rw [getPde, crtDir, hcrt] at habsent
    simp [Paging.refs, PageDir.ref, hqi, habsent]
  · intro j hj hnot
    exact h.later j hj fun hmem => hnot (List.mem_append_left _ hmem)

/-- The new directory gets an empty page table, before its entries are marked. -/
theorem Cloning.startTable (hs : s.crt ≠ s.dirsNum) (hi : isUserTable i) (hnot : i ∉ done) (h : Cloning s done (t, d))
    (hg : t.phyFramesMap.testBit g = true) (howner : ∀ x, (t.install d).owner x ≠ some g)
    (hrefs : ∀ k r, (t.install d).refs k = some r → r.frame ≠ g) :
    Marking s (fun q => q / 1024 ∈ done) i g 0
      (t, { d with pte := fun q => if q / 1024 = i then t.crtDir.pte q else d.pte q }) := by
  have hwf := h.copied.wf.switch (d := t.dirsNum) (Nat.lt_succ_self _)
  have habsent : (({ t.install d with crt := t.dirsNum } : Paging).getPde i).present = false := by
    rw [getPde, crtDir]
    change (((t.install d).dirs t.dirsNum).pde i).present = false
    rw [install_dirs_self]
    exact h.later i hi hnot
  have htable := hwf.withTable (g := g) hi habsent hg howner hrefs
  have heq : ({ ({ t.install d with crt := t.dirsNum } : Paging).withTable i g with crt := t.crt } : Paging) =
      t.install (PageDir.upTo
        { d with pte := fun q => if q / 1024 = i then t.crtDir.pte q else d.pte q } i g 0) := by
    have hpte : (fun q => if q / 1024 = i then Pte.zero else d.pte q) = fun q =>
        if q / 1024 = i ∧ i * 1024 + 0 ≤ q then Pte.zero
        else if q / 1024 = i then t.crtDir.pte q else d.pte q := by
      funext q
      by_cases hq : q / 1024 = i
      · rw [if_pos hq, if_pos ⟨hq, by omega⟩]
      · rw [if_neg hq, if_neg (fun hx => hq hx.1), if_neg hq]
    rw [withTable_eq hi]
    simp only [setCrtDir, crtDir, install, PageDir.upTo, Function.update_self, Function.update_idem] at hpte ⊢
    rw [hpte]
  have hback := htable.switch (d := t.crt) (by
    rw [withTable_eq hi]
    exact h.copied.wf.crt_lt)
  rw [heq] at hback
  have hnewRefs : (t.install (PageDir.upTo
      { d with pte := fun q => if q / 1024 = i then t.crtDir.pte q else d.pte q } i g 0)).refs =
        (t.install d).refs := by
    rw [← heq]
    exact withTable_refs hi habsent
  refine ⟨?_, fun q hq _ => if_pos hq⟩
  have hsame := h.copied.same hback rfl rfl ?_ hnewRefs ?_ rfl
  · refine hsame.of_none (fun q hq => .inl hq) ?_ hs
    rintro q (hq | ⟨hq, hlt⟩) hnot
    · exact absurd hq hnot
    · omega
  · intro n
    by_cases hn : n = t.dirsNum
    · subst hn
      rw [install_dirs_self, install_dirs_self]
      rfl
    · rw [install_dirs_of_ne hn, install_dirs_of_ne hn]
  · funext x
    exact Store.view_congr (s := (t.install d).store) (congrFun hnewRefs x) fun _ _ => rfl

/-- After the last entry the new page table is complete. -/
theorem Marking.finish {st : Paging × PageDir} (h : Marking s (fun q => q / 1024 ∈ done) i g 1024 st)
    (hs : s.crt ≠ s.dirsNum) (hlater : ∀ j, isUserTable j → j ∉ done → (st.2.pde j).present = false) :
    Cloning s (done ++ [i]) (st.1, { st.2 with pde := Function.update st.2.pde i (.mapTo g) }) := by
  have heq : st.2.upTo i g 1024 = { st.2 with pde := Function.update st.2.pde i (.mapTo g) } := by
    have hpte : (fun q => if q / 1024 = i ∧ i * 1024 + 1024 ≤ q then Pte.zero else st.2.pte q) = st.2.pte := by
      funext q
      exact if_neg (by omega)
    simp only [PageDir.upTo, hpte]
  have hcopied := h.copied
  rw [heq] at hcopied
  refine ⟨hcopied.of_none ?_ ?_ hs, ?_⟩
  · rintro q (hq | ⟨rfl, -⟩)
    · exact List.mem_append_left _ hq
    · exact List.mem_append_right _ (List.mem_singleton_self _)
  · intro q hq hnot
    refine absurd ?_ hnot
    rcases List.mem_append.mp hq with hq | hq
    · exact .inl hq
    · rw [List.mem_singleton] at hq
      exact .inr ⟨hq, by omega⟩
  · intro j hj hnot
    have hji : j ≠ i := by
      rintro rfl
      exact hnot (List.mem_append_right _ (List.mem_singleton_self _))
    simp only [Function.update_of_ne hji]
    exact hlater j hj fun hmem => hnot (List.mem_append_left _ hmem)

theorem copyPageTable_spec {st : Paging × PageDir} (heap : CloneHeap) (hs : s.crt ≠ s.dirsNum) (hi : isUserTable i)
    (hnot : i ∉ done) (h : Cloning s done st) :
    Ensures Panic.OutOfFrames (copyPageTable heap st i) (Cloning s (done ++ [i])) := by
  obtain ⟨t, d⟩ := st
  rw [copyPageTable]
  by_cases hpresent : (t.getPde i).present
  · rw [if_neg (by simp [hpresent])]
    cases ha : t.allocatePhyFrame with
    | none => trivial
    | some r =>
      obtain ⟨g, u⟩ := r
      obtain ⟨hstep, hfree, hused, -⟩ := allocatePhyFrame_spec (s := t) h.copied.wf.size ha
      have hu := h.kernelStep hstep
      have hpos : g ≠ 0 := Nat.pos_iff_ne_zero.mp (h.copied.wf.not_zero_of_free hfree)
      refine (mapPageWithFrame_kernel (hu.kernelReady hs) heap.copiedPageTable_heap.kernel g).bind fun v hv => ?_
      rw [if_neg hpos]
      have hv' := hu.kernelStep hv
      have hinstall := (hstep.trans hv).install d
      have hstart := hv'.startTable hs hi hnot (hv.used g hused)
        (by rw [hinstall.owner]; exact h.copied.wf.free_owner hfree)
        (by rw [hinstall.refs]; exact h.copied.wf.free_refs hfree)
      generalize hentries : List.range 1024 = entries
      refine (markTable_spec heap hs hi ?_ hstart hentries.symm).bind fun st' hst' => ?_
      · rintro q hq rfl
        exact hnot hq
      · refine hst'.1.finish hs ?_
        rw [hst'.2.1]
        exact h.later
  · rw [if_pos (by simp [hpresent])]
    exact h.skip hs (by simpa using hpresent)

end Tables

theorem Wf.startCloning {g : Nat} (hs : s.Wf) (ht : KernelStep s t) (hg : t.phyFramesMap.testBit g = true)
    (hfree : s.phyFramesMap.testBit g = false) : Cloning s [] (t, newPageDir t.crtDir g) := by
  have htwf := hs.kernelStep ht
  have hrefs := install_newPageDir_refs (s := t) t.crtDir g
  have hview : (t.install (newPageDir t.crtDir g)).pageView = t.pageView := by
    funext x
    exact Store.view_congr (s := t.store) (congrFun hrefs x) fun _ _ => rfl
  refine ⟨⟨htwf.install_newPageDir hg ?_ ?_, ht.crt, ?_, ?_, by simp, ?_, ?_, by simp, ?_, ht.released⟩, ?_⟩
  · rw [ht.owner]
    exact hs.free_owner hfree
  · rw [ht.refs]
    exact hs.free_refs hfree
  · simp [install, ht.dirsNum]
  · intro n hn
    rw [install_dirs_of_ne (by rw [ht.dirsNum]; omega), ht.dirs]
  · intro q _
    rw [hrefs, ← ht.dirsNum]
    exact refs_dirsNum q
  · intro x _ _
    rw [hrefs, ht.refs]
  · intro x _
    rw [hview, hs.pageView_kernelStep ht]
  · intro j hj _
    simp only [isUserTable, decide_eq_true_eq] at hj
    simp only [newPageDir, show j ≠ 0 by omega, show j ≠ 769 by omega, show ¬ (768 ≤ j ∧ j < 1024) by omega, if_false]
    rfl

theorem cloneTables_spec {st : Paging × PageDir} (heap : CloneHeap) (hs : s.crt ≠ s.dirsNum) (h : Cloning s [] st) :
    Ensures Panic.OutOfFrames ((List.range' 1 767).foldlM (copyPageTable heap) st) (Cloning s (List.range' 1 767)) := by
  refine ensures_foldlM h ?_
  intro done i rest st' hsplit hst'
  have hi : i ∈ List.range' 1 767 := by simp [hsplit]
  have hnodup : (done ++ i :: rest).Nodup := by
    rw [← hsplit]
    exact List.nodup_range'
  rw [List.mem_range'_1] at hi
  refine copyPageTable_spec heap hs ?_ ?_ hst'
  · simp only [isUserTable, decide_eq_true_eq]
    omega
  · intro hmem
    exact (List.nodup_append.mp hnodup).2.2 i hmem i (List.mem_cons_self ..) rfl

/-- `clone_crt_page_dir` adds a directory that shares all user pages of the current one. -/
theorem cloneCrtPageDir_spec (hs : s.Wf) (heap : CloneHeap) :
    Ensures Panic.OutOfFrames (s.cloneCrtPageDir heap) (Copied s (fun _ => True)) := by
  have hcrt : s.crt ≠ s.dirsNum := Nat.ne_of_lt hs.crt_lt
  rw [cloneCrtPageDir]
  cases ha : s.allocatePhyFrame with
  | none => trivial
  | some r =>
    obtain ⟨g, t⟩ := r
    obtain ⟨hstep, hfree, hused, -⟩ := allocatePhyFrame_spec hs.size ha
    have hpos : g ≠ 0 := Nat.pos_iff_ne_zero.mp (hs.not_zero_of_free hfree)
    have ht := hs.kernelReady.kernelStep hstep
    refine (touchPages_spec ht heap.dirPages_heap).bind fun t₁ h₁ => ?_
    refine (mapPageWithFrame_kernel (ht.kernelStep h₁) heap.copiedPageDir_heap.kernel g).bind fun t₂ h₂ => ?_
    rw [if_neg hpos]
    have h₁₂ := h₁.trans h₂
    have hstart := hs.startCloning (hstep.trans h₁₂) (h₁₂.used g hused) hfree
    refine (touchPages_spec (hstart.kernelReady hcrt) heap.tablePages_heap).bind fun t₃ h₃ => ?_
    refine (cloneTables_spec heap hcrt (hstart.kernelStep h₃)).bind fun r hr => ?_
    refine (touchPages_spec (hr.kernelReady hcrt) heap.freePages_heap).bind fun t₄ h₄ => ?_
    have hr₄ := hr.kernelStep h₄
    have h₅ := releasePages_kernel (hr₄.kernelReady hcrt) heap.copiedPageDir_heap.kernel
    have hr₅ := hr₄.kernelStep h₅
    have h₆ := releasePages_kernel (hr₅.kernelReady hcrt) heap.copiedPageTable_heap.kernel
    have hr₆ := hr₅.kernelStep h₆
    refine hr₆.copied.of_none (fun _ _ => trivial) ?_ hcrt
    intro q _ hnot
    apply refs_of_not_user
    intro huser
    refine hnot ?_
    simp only [isUserPage, decide_eq_true_eq] at huser
    rw [List.mem_range'_1]
    omega

end LuckOS.Paging
