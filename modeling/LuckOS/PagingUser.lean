import LuckOS.PagingKernel

/-!
# User pages: faults and release

A page fault on a user page and the release of a user page change one entry of the
current directory. On the copy-on-write store they are compositions of its primitive
operations, so that they keep `Wf` and their effect on the views is known.
-/

namespace LuckOS.Paging

open CopyOnWrite Outcome

variable {s t : Paging} {p : Nat}

theorem getPte_user (hp : isUserPage p) : s.getPte p = s.crtDir.pte p := by
  simp [getPte, hp]

theorem setPte_user (hp : isUserPage p) (e : Pte) :
    s.setPte p e = s.setCrtDir { s.crtDir with pte := Function.update s.crtDir.pte p e } := by
  simp [setPte, hp]

/-- The same page tables exist in `t` as in `s`. -/
structure TablesKept (s t : Paging) : Prop where
  dirsNum : t.dirsNum = s.dirsNum
  crt : t.crt = s.crt
  ready : t.copyOnWriteReady = s.copyOnWriteReady
  size : t.phyFramesMap.sizes = s.phyFramesMap.sizes
  kernel_rw : (∀ q, (s.kernelPte q).present → (s.kernelPte q).rw) →
    ∀ q, (t.kernelPte q).present → (t.kernelPte q).rw
  pde : ∀ d, (t.dirs d).pde = (s.dirs d).pde
  frame : ∀ d, (t.dirs d).frame = (s.dirs d).frame

theorem TablesKept.owner (h : TablesKept s t) : t.owner = s.owner := by
  funext x
  simp [Paging.owner, h.dirsNum, h.pde, h.frame]

/-- Changed entries keep `Wf` if the new store is sound, and no frame of a page table is
given back or mapped. -/
theorem Wf.tablesKept (hs : s.Wf) (h : TablesKept s t) (hsound : t.store.Sound)
    (hcounts : ∀ f c, t.frameCowRefCounts f = some c → 0 < c)
    (htables : ∀ d, d < s.dirsNum → ∀ q, isUserPage q → ((t.dirs d).pte q).present →
      ((s.dirs d).pde (q / 1024)).present)
    (hused : ∀ x f, s.owner x = some f → t.phyFramesMap.testBit f = true)
    (hprivate : ∀ x f, s.owner x = some f → ∀ k r, t.refs k = some r → r.frame ≠ f) (haligned : Aligned t.refs) :
    t.Wf where
  sound := hsound
  ready := h.ready.trans hs.ready
  counts_pos := hcounts
  crt_lt := by
    rw [h.crt, h.dirsNum]
    exact hs.crt_lt
  tables d hd q hq hpresent := by
    rw [h.pde]
    exact htables d (by rw [← h.dirsNum]; exact hd) q hq hpresent
  kernel_pde d hd i hi hk := by
    rw [h.pde]
    exact hs.kernel_pde d (by rw [← h.dirsNum]; exact hd) i hi hk
  kernel_rw := h.kernel_rw hs.kernel_rw
  size := h.size.trans hs.size
  owner_used x f hx := hused x f (by rw [← h.owner]; exact hx)
  owner_private x f hx := hprivate x f (by rw [← h.owner]; exact hx)
  owner_inj := by
    rw [h.owner]
    exact hs.owner_inj
  aligned := haligned

/-- `t` differs from `s` in the entry `e` of the user page `p`, and otherwise in the
counts, the frames and the kernel half only. -/
structure PteStep (s : Paging) (p : Nat) (e : Pte) (t : Paging) : Prop where
  dirs : t.dirs = (s.setPte p e).dirs
  dirsNum : t.dirsNum = s.dirsNum
  crt : t.crt = s.crt
  ready : t.copyOnWriteReady = s.copyOnWriteReady
  size : t.phyFramesMap.sizes = s.phyFramesMap.sizes
  kernel_rw : (∀ q, (s.kernelPte q).present → (s.kernelPte q).rw) →
    ∀ q, (t.kernelPte q).present → (t.kernelPte q).rw

namespace PteStep

variable {e : Pte}

theorem pde (h : PteStep s p e t) (hp : isUserPage p) (d : Nat) : (t.dirs d).pde = (s.dirs d).pde := by
  rw [h.dirs, setPte_user hp, setCrtDir, crtDir]
  by_cases hd : d = s.crt
  · subst hd
    simp
  · simp [hd]

theorem frame (h : PteStep s p e t) (hp : isUserPage p) (d : Nat) : (t.dirs d).frame = (s.dirs d).frame := by
  rw [h.dirs, setPte_user hp, setCrtDir, crtDir]
  by_cases hd : d = s.crt
  · subst hd
    simp
  · simp [hd]

theorem pte (h : PteStep s p e t) (hp : isUserPage p) (d q : Nat) :
    (t.dirs d).pte q = if d = s.crt ∧ q = p then e else (s.dirs d).pte q := by
  rw [h.dirs, setPte_user hp, setCrtDir, crtDir]
  by_cases hd : d = s.crt
  · subst hd
    by_cases hq : q = p <;> simp [hq]
  · simp [hd]

theorem tablesKept (h : PteStep s p e t) (hp : isUserPage p) : TablesKept s t :=
  ⟨h.dirsNum, h.crt, h.ready, h.size, h.kernel_rw, h.pde hp, h.frame hp⟩

theorem refs (h : PteStep s p e t) (hp : isUserPage p) (hcrt : s.crt < s.dirsNum)
    (hpde : (s.getPde (p / 1024)).present) :
    t.refs = Function.update s.refs (s.crt, p) (if e.present then some ⟨e.frame, e.rw⟩ else none) := by
  rw [getPde, crtDir] at hpde
  funext x
  obtain ⟨d, q⟩ := x
  by_cases hx : d = s.crt ∧ q = p
  · obtain ⟨rfl, rfl⟩ := hx
    simp [Paging.refs, PageDir.ref, h.dirsNum, h.pde hp, h.pte hp, hcrt, hpde, hp]
  · have hne : (d, q) ≠ (s.crt, p) := by simpa using hx
    rw [Function.update_of_ne hne]
    simp only [Paging.refs, PageDir.ref, h.dirsNum, h.pde hp, h.pte hp, if_neg hx]

end PteStep

/-- One changed entry keeps `Wf` if the new store is sound, and no frame of a page table is
given back or mapped. -/
theorem Wf.pteStep {e : Pte} (hs : s.Wf) (hp : isUserPage p) (hpde : (s.getPde (p / 1024)).present)
    (h : PteStep s p e t) (hsound : t.store.Sound) (hcounts : ∀ f c, t.frameCowRefCounts f = some c → 0 < c)
    (hused : ∀ x f, s.owner x = some f → t.phyFramesMap.testBit f = true)
    (hfresh : e.present → ∀ x, s.owner x ≠ some e.frame)
    (haligned : e.present → ∀ k r, s.refs k = some r → r.frame = e.frame → k.2 = p) : t.Wf := by
  refine hs.tablesKept (h.tablesKept hp) hsound hcounts ?_ hused ?_ ?_
  · intro d hd q hq hpresent
    rw [h.pte hp] at hpresent
    split_ifs at hpresent with hx
    · obtain ⟨rfl, rfl⟩ := hx
      exact hpde
    · exact hs.tables d hd q hq hpresent
  · intro x f hx k r hk
    rw [h.refs hp hs.crt_lt hpde] at hk
    by_cases hkey : k = (s.crt, p)
    · subst hkey
      rw [Function.update_self] at hk
      split_ifs at hk with he
      cases hk
      rintro rfl
      exact hfresh he x hx
    · rw [Function.update_of_ne hkey] at hk
      exact hs.owner_private x f hx k r hk
  · rw [h.refs hp hs.crt_lt hpde]
    split_ifs with he
    · exact hs.aligned.update_some _ (haligned he)
    · exact hs.aligned.update_none _

/-- `change_cow_frame_refcount` returns the count and adds to it, down to zero. -/
theorem changeCowFrameRefcount_spec (hready : s.copyOnWriteReady = true)
    (hpos : ∀ f c, s.frameCowRefCounts f = some c → 0 < c) (f : Nat) (delta : Int) :
    ∃ counts : Nat → Option Int,
      s.changeCowFrameRefcount f delta = ((s.cowCount f : Int), { s with frameCowRefCounts := counts }) ∧
      (∀ g c, counts g = some c → 0 < c) ∧
      ∀ g, ((counts g).getD 0).toNat = Function.update s.cowCount f ((s.cowCount f : Int) + delta).toNat g := by
  have hold : (s.frameCowRefCounts f).getD 0 = (s.cowCount f : Int) := by
    cases h : s.frameCowRefCounts f with
    | none => simp [cowCount, h]
    | some c =>
      have hc := hpos f c h
      simp only [cowCount, h, Option.getD_some]
      omega
  rw [changeCowFrameRefcount, hready, hold]
  refine ⟨_, rfl, ?_, ?_⟩
  · intro g c hc
    by_cases hg : g = f
    · subst hg
      simp only [Function.update_self] at hc
      split_ifs at hc with hlt
      cases hc
      exact hlt
    · rw [Function.update_of_ne hg] at hc
      exact hpos g c hc
  · intro g
    by_cases hg : g = f
    · subst hg
      simp only [Function.update_self]
      split_ifs with hlt
      · rfl
      · simp only [Option.getD_none, Int.toNat_zero]
        omega
    · simp [hg, cowCount]

/-- The effect of a page fault on the user page `p` of the current directory: the page
has a frame of its own, which is the old one if it was not shared, and no view changes. -/
structure Mapped (s : Paging) (p : Nat) (t : Paging) : Prop where
  wf : t.Wf
  crt : t.crt = s.crt
  dirsNum : t.dirsNum = s.dirsNum
  frame : ∀ d, (t.dirs d).frame = (s.dirs d).frame
  ref : ∃ g, t.refs = Function.update s.refs (s.crt, p) (some ⟨g, true⟩) ∧
    (∀ r, s.refs (s.crt, p) = some r → s.cowCount r.frame = 0 → r.frame = g) ∧
    (s.refs (s.crt, p) = none → s.phyFramesMap.testBit g = false)
  kept : FramesKept s t
  view : t.pageView = s.pageView
  released : t.released = s.released

/-- The state with an empty page table of frame `g` at index `i` of the current directory. -/
def withTable (s : Paging) (i g : Nat) : Paging := (s.setPde i (.mapTo g)).clearPageTable i

section WithTable

variable {i g : Nat}

theorem withTable_eq (hi : isUserTable i) :
    s.withTable i g = s.setCrtDir
      { s.crtDir with
        pde := Function.update s.crtDir.pde i (.mapTo g)
        pte := fun q => if q / 1024 = i then .zero else s.crtDir.pte q } := by
  simp [withTable, clearPageTable, hi, setPde, setCrtDir, crtDir]

theorem withTable_pde (hi : isUserTable i) (d j : Nat) :
    ((s.withTable i g).dirs d).pde j = if d = s.crt ∧ j = i then .mapTo g else (s.dirs d).pde j := by
  rw [withTable_eq hi, setCrtDir, crtDir]
  by_cases hd : d = s.crt
  · subst hd
    by_cases hj : j = i <;> simp [hj]
  · simp [hd]

theorem withTable_pte (hi : isUserTable i) (d q : Nat) :
    ((s.withTable i g).dirs d).pte q = if d = s.crt ∧ q / 1024 = i then .zero else (s.dirs d).pte q := by
  rw [withTable_eq hi, setCrtDir, crtDir]
  by_cases hd : d = s.crt
  · subst hd
    by_cases hq : q / 1024 = i <;> simp [hq]
  · simp [hd]

theorem withTable_frame (hi : isUserTable i) (d : Nat) : ((s.withTable i g).dirs d).frame = (s.dirs d).frame := by
  rw [withTable_eq hi, setCrtDir, crtDir]
  by_cases hd : d = s.crt
  · subst hd
    simp
  · simp [hd]

/-- A new table is empty, as the missing one was. -/
theorem withTable_refs (hi : isUserTable i) (habsent : (s.getPde i).present = false) :
    (s.withTable i g).refs = s.refs := by
  rw [getPde, crtDir] at habsent
  have hnum : (s.withTable i g).dirsNum = s.dirsNum := by
    rw [withTable_eq hi, setCrtDir]
  funext x
  obtain ⟨d, q⟩ := x
  simp only [refs, PageDir.ref, withTable_pde hi, withTable_pte hi, hnum]
  by_cases hx : d = s.crt ∧ q / 1024 = i
  · obtain ⟨rfl, rfl⟩ := hx
    simp [habsent, Pte.zero]
  · rw [if_neg hx, if_neg hx]

theorem withTable_owner (hi : isUserTable i) (hcrt : s.crt < s.dirsNum) :
    (s.withTable i g).owner = Function.update s.owner (s.crt, i) (some g) := by
  have hnum : (s.withTable i g).dirsNum = s.dirsNum := by
    rw [withTable_eq hi, setCrtDir]
  obtain ⟨hi0, hi1⟩ := isUserTable_ne hi
  funext ⟨d, j⟩
  simp only [owner, withTable_pde hi, withTable_frame hi, hnum]
  by_cases hx : d = s.crt ∧ j = i
  · obtain ⟨rfl, rfl⟩ := hx
    simp [hcrt, hi, hi0, hi1, Pte.mapTo]
  · have hne : (d, j) ≠ (s.crt, i) := by simpa using hx
    rw [Function.update_of_ne hne]
    simp only [if_neg hx, owner]

/-- A page table with a frame of its own keeps `Wf`. -/
theorem Wf.withTable (hs : s.Wf) (hi : isUserTable i) (habsent : (s.getPde i).present = false)
    (hg : s.phyFramesMap.testBit g = true) (howner : ∀ x, s.owner x ≠ some g)
    (hrefs : ∀ k r, s.refs k = some r → r.frame ≠ g) : (s.withTable i g).Wf := by
  have heq := withTable_eq (s := s) (g := g) hi
  have hmap : (s.withTable i g).phyFramesMap = s.phyFramesMap := by rw [heq, setCrtDir]
  have hcounts : (s.withTable i g).frameCowRefCounts = s.frameCowRefCounts := by rw [heq, setCrtDir]
  have hnum : (s.withTable i g).dirsNum = s.dirsNum := by rw [heq, setCrtDir]
  constructor
  · refine sound_of_eq hs.sound (withTable_refs hi habsent) ?_ ?_
    · funext f
      rw [cowCount, hcounts, cowCount]
    · intro f hf
      rw [hmap]
      exact hf
  · rw [heq, setCrtDir]
    exact hs.ready
  · rw [hcounts]
    exact hs.counts_pos
  · rw [heq, setCrtDir]
    exact hs.crt_lt
  · intro d hd q hq hpresent
    rw [hnum] at hd
    rw [withTable_pte hi] at hpresent
    rw [withTable_pde hi]
    split_ifs at hpresent ⊢ with hx
    · rfl
    · exact hs.tables d hd q hq hpresent
  · intro d hd j hj hk
    rw [hnum] at hd
    rw [withTable_pde hi, if_neg]
    · exact hs.kernel_pde d hd j hj hk
    · rintro ⟨-, rfl⟩
      exact hk hi
  · rw [heq, setCrtDir]
    exact hs.kernel_rw
  · rw [hmap]
    exact hs.size
  · rw [withTable_owner hi hs.crt_lt, hmap]
    exact owner_update_forall hs.owner_used _ hg
  · rw [withTable_owner hi hs.crt_lt, withTable_refs hi habsent]
    exact owner_update_forall hs.owner_private _ hrefs
  · rw [withTable_owner hi hs.crt_lt]
    exact owner_update_inj hs.owner_inj _ howner
  · rw [withTable_refs hi habsent]
    exact hs.aligned

end WithTable

/-- A free frame belongs to no page and no page table. -/
theorem Wf.free_refs {g : Nat} (hs : s.Wf) (hg : s.phyFramesMap.testBit g = false) :
    ∀ k r, s.refs k = some r → r.frame ≠ g := by
  rintro k r hk rfl
  have hused : s.phyFramesMap.testBit r.frame = true := hs.sound.used k r hk
  simp [hg] at hused

theorem Wf.free_owner {g : Nat} (hs : s.Wf) (hg : s.phyFramesMap.testBit g = false) :
    ∀ x, s.owner x ≠ some g := by
  intro x hx
  have hused := hs.owner_used x g hx
  simp [hg] at hused

/-- The effect of making sure that the current directory has a page table. -/
structure TableReady (s : Paging) (i : Nat) (t : Paging) : Prop where
  wf : t.Wf
  crt : t.crt = s.crt
  dirsNum : t.dirsNum = s.dirsNum
  frame : ∀ d, (t.dirs d).frame = (s.dirs d).frame
  refs : t.refs = s.refs
  cowCount : t.cowCount = s.cowCount
  kept : FramesKept s t
  view : t.pageView = s.pageView
  released : t.released = s.released
  present : (t.getPde i).present

theorem ensurePageTable_user {i : Nat} (hs : s.Wf) (hi : isUserTable i) :
    Ensures Panic.OutOfFrames (s.ensurePageTable i) (TableReady s i) := by
  rw [ensurePageTable]
  cases hpresent : (s.getPde i).present with
  | true => exact ⟨hs, rfl, rfl, fun _ => rfl, rfl, rfl, .refl s, rfl, rfl, hpresent⟩
  | false =>
    simp only [Bool.not_false, if_true]
    cases ha : s.allocatePhyFrame with
    | none => trivial
    | some r =>
      obtain ⟨g, u⟩ := r
      obtain ⟨hstep, hfree, hused, -⟩ := allocatePhyFrame_spec hs.size ha
      have hu := hs.kernelStep hstep
      have habsent : (u.getPde i).present = false := by
        rw [getPde, crtDir, hstep.dirs, hstep.crt]
        exact hpresent
      have heq := withTable_eq (s := u) (g := g) hi
      have hrefs := withTable_refs (s := u) (g := g) hi habsent
      have hwf := hu.withTable hi habsent hused
        (by rw [hstep.owner]; exact hs.free_owner hfree) (by rw [hstep.refs]; exact hs.free_refs hfree)
      have hview : (u.withTable i g).pageView = u.pageView := by
        funext x
        refine Store.view_congr (s := u.store) (t := (u.withTable i g).store) (congrFun hrefs x) ?_
        intro r hr
        rw [heq]
        rfl
      change TableReady s i (u.withTable i g)
      refine ⟨hwf, ?_, ?_, ?_, hrefs.trans hstep.refs, ?_, ⟨?_, ?_, ?_⟩, hview.trans (hs.pageView_kernelStep hstep), ?_, ?_⟩
      · rw [heq, setCrtDir]
        exact hstep.crt
      · rw [heq, setCrtDir]
        exact hstep.dirsNum
      · intro d
        rw [withTable_frame hi, hstep.dirs]
      · rw [heq, ← hstep.cowCount]
        rfl
      · rw [heq]
        exact hstep.used
      · rw [heq]
        exact hstep.bytes
      · rw [withTable_owner hi hu.crt_lt, hstep.owner]
        intro x f hx
        by_cases hkey : x = (u.crt, i)
        · rw [hkey, Function.update_self] at hx
          cases hx
          exact .inr hfree
        · rw [Function.update_of_ne hkey] at hx
          exact .inl hx
      · rw [heq, setCrtDir]
        exact hstep.released
      · rw [heq]
        simp [getPde, setCrtDir, crtDir, Pte.mapTo]

section Fault

variable {e : Pte} {f : Nat}

/-- A page that is not present gets a fresh frame. -/
theorem Wf.mapped_absent {g : Nat} (hs : s.Wf) (hp : isUserPage p) (hpde : (s.getPde (p / 1024)).present)
    (habsent : (s.getPte p).present = false) (hg : s.phyFramesMap.testBit g = false)
    (ht : PteStep s p (.mapTo g) t) (hcounts : t.frameCowRefCounts = s.frameCowRefCounts)
    (hused : ∀ f, t.phyFramesMap.testBit f = (decide (f = g) || s.phyFramesMap.testBit f))
    (hbytes : t.bytes = Function.update s.bytes g (fun _ => 0)) (hreleased : t.released = s.released) :
    Mapped s p t := by
  have hnone : s.refs (s.crt, p) = none := refs_of_absent (by rw [getPte_user hp] at habsent; exact habsent)
  have hstore : t.store = (s.store.reserve g (fun _ => 0)).attach (s.crt, p) g := by
    simp only [store, Store.reserve, Store.attach, ht.refs hp hs.crt_lt hpde, hbytes, Store.mk.injEq, Pte.mapTo,
      if_true, true_and, and_true]
    refine ⟨?_, ?_⟩
    · funext f
      rw [cowCount, hcounts, cowCount]
    · ext f
      simp [usedFrames, hused]
  have hempty : s.store.sharers g = ∅ := hs.sound.sharers_eq_empty (by simp [store, usedFrames, hg])
  have hsound : t.store.Sound := by
    rw [hstore]
    exact (hs.sound.reserve g _).attach hnone (Set.mem_insert _ _) hempty
  have hkept : FramesKept s t := by
    refine ⟨fun f hf => by simp [hused, hf], fun f hf => ?_, fun x f hx => .inl ?_⟩
    · have hne : f ≠ g := by
        rintro rfl
        simp [hg] at hf
      rw [hbytes, Function.update_of_ne hne]
    · rwa [(ht.tablesKept hp).owner] at hx
  refine ⟨?_, ht.crt, ht.dirsNum, ht.frame hp, ⟨g, ?_, ?_, fun _ => hg⟩, hkept, ?_, hreleased⟩
  · refine hs.pteStep hp hpde ht hsound ?_ ?_ (fun _ => hs.free_owner hg)
      (fun _ k r hk hr => absurd hr (hs.free_refs hg k r hk))
    · rw [hcounts]
      exact hs.counts_pos
    · intro x f hx
      simp [hused, hs.owner_used x f hx]
  · rw [ht.refs hp hs.crt_lt hpde]
    rfl
  · intro r hr
    simp [hnone] at hr
  · funext x
    rw [pageView, hstore, Store.view_attach, Store.view_reserve hs.sound (by simp [store, usedFrames, hg])]
    split_ifs with hx
    · subst hx
      rw [pageView, Store.view_of_none hnone]
      simp [Store.reserve]
    · rfl

/-- The last owner of a frame may write to it in place. -/
theorem Wf.mapped_own (hs : s.Wf) (hp : isUserPage p) (hpresent : (s.getPte p).present)
    (hcount : s.cowCount (s.getPte p).frame = 0) (ht : PteStep s p { s.getPte p with rw := true } t)
    (hpos : ∀ f c, t.frameCowRefCounts f = some c → 0 < c) (hcounts : t.cowCount = s.cowCount)
    (hmap : t.phyFramesMap = s.phyFramesMap) (hbytes : t.bytes = s.bytes) (hreleased : t.released = s.released) :
    Mapped s p t := by
  have hentry : ((s.dirs s.crt).pte p).present := by
    rw [getPte_user hp] at hpresent
    exact hpresent
  have hpde : (s.getPde (p / 1024)).present := hs.tables _ hs.crt_lt p hp hentry
  have href := hs.ref_eq hs.crt_lt hp hentry
  have heq : s.getPte p = (s.dirs s.crt).pte p := getPte_user hp
  have hrefs := ht.refs hp hs.crt_lt hpde
  simp only [hpresent, if_true] at hrefs
  rw [heq] at hrefs hcount
  have hstore : t.store = s.store.own (s.crt, p) ((s.dirs s.crt).pte p).frame := by
    simp only [store, Store.own, hrefs, hcounts, hbytes, Store.mk.injEq, true_and, and_true]
    rw [usedFrames, hmap, usedFrames]
  have hsound : t.store.Sound := by
    rw [hstore]
    exact hs.sound.own href hcount
  have hkept : FramesKept s t := by
    refine ⟨fun f hf => by rw [hmap]; exact hf, fun f _ => by rw [hbytes], fun x f hx => .inl ?_⟩
    rwa [(ht.tablesKept hp).owner] at hx
  refine ⟨?_, ht.crt, ht.dirsNum, ht.frame hp, ⟨_, hrefs, fun r hr _ => ?_, fun hnone => ?_⟩, hkept, ?_, hreleased⟩
  · refine hs.pteStep hp hpde ht hsound hpos ?_ ?_ (fun _ k r hk hr => hs.aligned k _ r _ hk href (by rw [hr, heq]))
    · rw [hmap]
      exact hs.owner_used
    · intro _ x hx
      rw [heq] at hx
      exact hs.owner_private x _ hx _ _ href rfl
  · rw [href, Option.some.injEq] at hr
    rw [← hr]
  · simp [href] at hnone
  · funext x
    rw [pageView, hstore]
    exact Store.view_own (s := s.store) href _ x

/-- A shared page is copied to a fresh frame. -/
theorem Wf.mapped_copy {g : Nat} (hs : s.Wf) (hp : isUserPage p) (hpresent : (s.getPte p).present)
    (hshared : 0 < s.cowCount (s.getPte p).frame) (hg : s.phyFramesMap.testBit g = false) (ht : PteStep s p { s.getPte p with frame := g, rw := true } t)
    (hpos : ∀ f c, t.frameCowRefCounts f = some c → 0 < c)
    (hcounts : t.cowCount = Function.update s.cowCount (s.getPte p).frame (s.cowCount (s.getPte p).frame - 1))
    (hused : ∀ f, t.phyFramesMap.testBit f = (decide (f = g) || s.phyFramesMap.testBit f))
    (hbytes : t.bytes = Function.update s.bytes g (s.bytes (s.getPte p).frame))
    (hreleased : t.released = s.released) : Mapped s p t := by
  have hentry : ((s.dirs s.crt).pte p).present := by
    rw [getPte_user hp] at hpresent
    exact hpresent
  have hpde : (s.getPde (p / 1024)).present := hs.tables _ hs.crt_lt p hp hentry
  have href := hs.ref_eq hs.crt_lt hp hentry
  have heq : s.getPte p = (s.dirs s.crt).pte p := getPte_user hp
  have hrefs := ht.refs hp hs.crt_lt hpde
  simp only [hpresent, if_true] at hrefs
  rw [heq] at hcounts hbytes hshared
  have hstore : t.store = ((s.store.detach (s.crt, p) ((s.dirs s.crt).pte p).frame).reserve g
      (s.bytes ((s.dirs s.crt).pte p).frame)).attach (s.crt, p) g := by
    simp only [store, Store.detach, Store.reserve, Store.attach, hrefs, hcounts, hbytes, Function.update_idem,
      Store.mk.injEq, true_and, and_true]
    ext f
    simp [usedFrames, hused]
  have hfree : g ∉ s.store.used := by simp [store, usedFrames, hg]
  have hdetach := hs.sound.detach href
  have hempty : (s.store.detach (s.crt, p) ((s.dirs s.crt).pte p).frame).sharers g = ∅ :=
    hdetach.sharers_eq_empty hfree
  have hsound : t.store.Sound := by
    rw [hstore]
    exact (hdetach.reserve g _).attach (Function.update_self _ _ _) (Set.mem_insert _ _) hempty
  have hkept : FramesKept s t := by
    refine ⟨fun f hf => by simp [hused, hf], fun f hf => ?_, fun x f hx => .inl ?_⟩
    · have hne : f ≠ g := by
        rintro rfl
        simp [hg] at hf
      rw [hbytes, Function.update_of_ne hne]
    · rwa [(ht.tablesKept hp).owner] at hx
  refine ⟨?_, ht.crt, ht.dirsNum, ht.frame hp, ⟨g, hrefs, fun r hr hzero => ?_, fun _ => hg⟩, hkept, ?_, hreleased⟩
  · refine hs.pteStep hp hpde ht hsound hpos ?_ (fun _ => hs.free_owner hg)
      (fun _ k r hk hr => absurd hr (hs.free_refs hg k r hk))
    intro x f hx
    simp [hused, hs.owner_used x f hx]
  · rw [href, Option.some.injEq] at hr
    subst hr
    exact absurd hzero hshared.ne'
  · funext x
    rw [pageView, hstore, Store.view_attach, Store.view_reserve hdetach hfree, Store.view_detach]
    split_ifs with hx
    · subst hx
      rw [pageView, Store.view_of_ref href]
      simp [Store.reserve, store]
    · rfl

end Fault

/-- The copy through the window at `COPIED_PAGE_VADDR`, on a state whose counts may
already have changed. -/
def copyThroughWindow (s : Paging) (virtualAddr g : Nat) (e : Pte) : Paging :=
  (((s.setPte (copiedPageVaddr / pageSize) (.mapTo g)).memcpyPage copiedPageVaddr virtualAddr).setPte
    (virtualAddr / pageSize) e).releasePages copiedPageVaddr 1 false

section Window

variable {virtualAddr g : Nat} {e : Pte}

theorem copyThroughWindow_eq (hp : isUserPage (virtualAddr / pageSize))
    (hpde : (s.getPde (copiedPageVaddr / pageSize / 1024)).present) :
    s.copyThroughWindow virtualAddr g e =
      { s with
        bytes := Function.update s.bytes g (s.bytes (s.getPte (virtualAddr / pageSize)).frame)
        kernelPte := Function.update s.kernelPte (copiedPageVaddr / pageSize) .zero
        dirs := (s.setPte (virtualAddr / pageSize) e).dirs } := by
  have hk := isKernelPage_copiedPage
  have hdiv : copiedPageVaddr / pageSize * pageSize / pageSize = copiedPageVaddr / pageSize := rfl
  rw [copyThroughWindow, releasePages_one hk.1]
  simp only [getPde, crtDir] at hpde
  simp [setPte_kernel hk, setPte_user hp, memcpyPage, getPte, hk.2, hp, getPde, crtDir, setCrtDir, releasePage, hdiv,
    hpde, Pte.mapTo, Pte.zero]

/-- The copy-on-write branch for a shared frame, after the count has changed to `counts`. -/
theorem Wf.mapped_window (hs : s.Wf) (hp : isUserPage (virtualAddr / pageSize))
    (hpresent : (s.getPte (virtualAddr / pageSize)).present)
    (hshared : 0 < s.cowCount (s.getPte (virtualAddr / pageSize)).frame) {counts : Nat → Option Int}
    (hpos : ∀ f c, counts f = some c → 0 < c)
    (hcounts : ∀ f, ((counts f).getD 0).toNat = Function.update s.cowCount (s.getPte (virtualAddr / pageSize)).frame
      (s.cowCount (s.getPte (virtualAddr / pageSize)).frame - 1) f)
    (ha : ({ s with frameCowRefCounts := counts } : Paging).allocatePhyFrame = some (g, t)) :
    Mapped s (virtualAddr / pageSize)
      (t.copyThroughWindow virtualAddr g { s.getPte (virtualAddr / pageSize) with frame := g, rw := true }) := by
  obtain ⟨hstep, hfree, -, -, hkernel, hbytes, hused⟩ :=
    allocatePhyFrame_spec (s := { s with frameCowRefCounts := counts }) hs.size ha
  have hgetPte : t.getPte (virtualAddr / pageSize) = s.getPte (virtualAddr / pageSize) := by
    rw [getPte_user hp, getPte_user hp, crtDir, hstep.dirs, hstep.crt, crtDir]
  have hwindow : (t.getPde (copiedPageVaddr / pageSize / 1024)).present := by
    rw [getPde, crtDir, hstep.dirs, hstep.crt]
    exact hs.kernelReady.pde_present isKernelPage_copiedPage
  rw [copyThroughWindow_eq hp hwindow, hgetPte, hkernel, hbytes]
  refine hs.mapped_copy hp hpresent hshared hfree ⟨?_, hstep.dirsNum, hstep.crt, hstep.ready, hstep.size, ?_⟩ ?_ ?_ hused rfl
    hstep.released
  · simp only [setPte_user hp, setCrtDir, crtDir, hstep.dirs, hstep.crt]
  · intro hk q hq
    by_cases hqk : q = copiedPageVaddr / pageSize
    · subst hqk
      simp [Pte.zero] at hq
    · simp only [Function.update_of_ne hqk] at hq ⊢
      exact hk q hq
  · simp only [hstep.counts]
    exact hpos
  · funext f
    simp only [cowCount, hstep.counts]
    exact hcounts f

end Window

theorem Wf.not_zero_of_free {g : Nat} (hs : s.Wf) (hg : s.phyFramesMap.testBit g = false) : 0 < g := by
  refine Nat.pos_of_ne_zero ?_
  rintro rfl
  exact hs.free_owner hg _ hs.owner_zero

/-- `map_page_with_frame_impl` on a user page that has a page table. -/
theorem mapPageWithFrameImpl_present {a : Nat} (hs : s.Wf) (hp : isUserPage (a / pageSize))
    (hpde : (s.getPde (a / pageSize / 1024)).present) {f : Int} (hframe : ¬ 0 < f) :
    Ensures Panic.OutOfFrames (s.mapPageWithFrameImpl 2 a f) (Mapped s (a / pageSize)) := by
  rw [mapPageWithFrameImpl, div_table, ensurePageTable_present hpde]
  simp only [bind, Except.bind, hframe, if_false]
  rw [show a / 2 ^ 12 = a / pageSize from rfl]
  by_cases hpresent : (s.getPte (a / pageSize)).present
  · rw [if_neg (by simp [hpresent])]
    by_cases hrw : (s.getPte (a / pageSize)).rw
    · have hentry : ((s.dirs s.crt).pte (a / pageSize)).present := by
        rw [getPte_user hp] at hpresent
        exact hpresent
      have href := hs.ref_eq hs.crt_lt hp hentry
      rw [if_neg (by simp [hrw])]
      rw [getPte_user hp, crtDir] at hrw
      refine ⟨hs, rfl, rfl, fun _ => rfl, ⟨((s.dirs s.crt).pte (a / pageSize)).frame, ?_, ?_, ?_⟩, .refl s, rfl, rfl⟩
      · rw [eq_comm, Function.update_eq_self_iff, href, hrw]
      · intro r hr _
        rw [href, Option.some.injEq] at hr
        rw [← hr]
      · intro hnone
        simp [href] at hnone
    · obtain ⟨counts, hchange, hpos, hcounts⟩ :=
        changeCowFrameRefcount_spec hs.ready hs.counts_pos (s.getPte (a / pageSize)).frame (-1)
      rw [if_pos (by simp [hrw]), hchange]
      by_cases hshared : 0 < s.cowCount (s.getPte (a / pageSize)).frame
      · rw [if_pos (Int.natCast_pos.mpr hshared)]
        cases ha : ({ s with frameCowRefCounts := counts } : Paging).allocatePhyFrame with
        | none => trivial
        | some r =>
          obtain ⟨g, u⟩ := r
          obtain ⟨hstep, hfree, -⟩ := allocatePhyFrame_spec (s := { s with frameCowRefCounts := counts }) hs.size ha
          have hwindow : (u.getPde (copiedPageVaddr / pageSize / 1024)).present := by
            rw [getPde, crtDir, hstep.dirs, hstep.crt]
            exact hs.kernelReady.pde_present isKernelPage_copiedPage
          simp only [mapPageWithFrameImpl_frame hwindow 0 (hs.not_zero_of_free hfree), ensures_ok]
          refine hs.mapped_window hp hpresent hshared hpos (fun f => ?_) ha
          rw [hcounts f]
          congr 1
          omega
      · rw [if_neg (mt Int.natCast_pos.mp hshared)]
        have hzero : s.cowCount (s.getPte (a / pageSize)).frame = 0 := by omega
        refine hs.mapped_own hp hpresent hzero ⟨?_, ?_, ?_, ?_, ?_, ?_⟩ ?_ ?_ ?_ ?_ ?_ <;>
          simp only [setPte_user hp, setCrtDir, crtDir]
        · exact fun hk => hk
        · exact hpos
        · funext f
          rw [cowCount, hcounts f, hzero]
          by_cases hf : f = (s.getPte (a / pageSize)).frame
          · subst hf
            simp [hzero]
          · rw [Function.update_of_ne hf]
  · rw [if_pos (by simp [hpresent])]
    cases ha : s.allocatePhyFrame with
    | none => trivial
    | some r =>
      obtain ⟨g, u⟩ := r
      obtain ⟨hstep, hfree, -, -, hkernel, hbytes, hused⟩ := allocatePhyFrame_spec hs.size ha
      refine hs.mapped_absent hp hpde (by simpa using hpresent) hfree (g := g) ⟨?_, ?_, ?_, ?_, ?_, ?_⟩ ?_ ?_ ?_ ?_ <;>
        simp only [clearPage, setPte_user hp, setCrtDir, crtDir, hstep.dirs, hstep.crt]
      · exact hstep.dirsNum
      · exact hstep.ready
      · exact hstep.size
      · exact hstep.kernel_rw
      · exact hstep.counts
      · exact hused
      · simp [getPte_user hp, crtDir, Pte.mapTo, hbytes]
      · exact hstep.released

theorem Mapped.of_tableReady {i : Nat} {u : Paging} (h : TableReady s i t) (h' : Mapped t p u) : Mapped s p u where
  wf := h'.wf
  crt := h'.crt.trans h.crt
  dirsNum := h'.dirsNum.trans h.dirsNum
  frame d := (h'.frame d).trans (h.frame d)
  ref := by
    obtain ⟨g, hg, honly, hfresh⟩ := h'.ref
    rw [h.refs, h.crt] at hg honly hfresh
    rw [h.cowCount] at honly
    refine ⟨g, hg, honly, fun hnone => ?_⟩
    by_contra hused
    have hkept := h.kept.used g (by simpa using hused)
    simp [hfresh hnone] at hkept
  kept := h.kept.trans h'.kept
  view := h'.view.trans h.view
  released := h'.released.trans h.released

/-- A page fault on a user page is served, or there are no frames left. -/
theorem pageFaultHandler_user (hs : s.Wf) {faultingAddress : Nat} (hp : isUserPage (faultingAddress / pageSize)) :
    Ensures Panic.OutOfFrames (s.pageFaultHandler faultingAddress) (Mapped s (faultingAddress / pageSize)) := by
  have hdiv : faultingAddress / pageSize * pageSize / pageSize = faultingAddress / pageSize := by
    simp [pageSize]
  rw [pageFaultHandler, mapPage, mapPageWithFrame]
  have htable := ensurePageTable_user (i := faultingAddress / pageSize / 1024) hs (by rw [isUserTable_div]; exact hp)
  have hsplit : s.mapPageWithFrameImpl 2 (faultingAddress / pageSize * pageSize) (-1) =
      s.ensurePageTable (faultingAddress / pageSize / 1024) >>= fun t =>
        t.mapPageWithFrameImpl 2 (faultingAddress / pageSize * pageSize) (-1) := by
    cases he : s.ensurePageTable (faultingAddress / pageSize / 1024) with
    | error e =>
      rw [mapPageWithFrameImpl, div_table, hdiv, he]
      rfl
    | ok t =>
      have hready := htable.of_ok he
      simp only [mapPageWithFrameImpl, div_table, hdiv, he, bind, Except.bind, ensurePageTable_present hready.present]
  rw [hsplit]
  refine htable.bind fun t ht => ?_
  have hmap := mapPageWithFrameImpl_present (a := faultingAddress / pageSize * pageSize) (f := -1)
    ht.wf (by rw [hdiv]; exact hp) (by rw [hdiv]; exact ht.present) (by simp)
  rw [hdiv] at hmap
  exact hmap.mono fun u hu => .of_tableReady ht hu

end LuckOS.Paging
