import LuckOS.PagingRelease
import LuckOS.PagingClone

/-!
# The frames of `clone_crt_page_dir`

`clone_crt_page_dir` maps the frames of the new directory and of its page tables over the two pages
that the heap lends it, and releases these pages without their frames.
-/

namespace LuckOS.Paging

open CopyOnWrite Outcome

/-! ## Frames that entries name -/

/-- The number of the present user page tables of the current directory. -/
def userTablesNum (s : Paging) : Nat := (List.range' 1 767).countP fun i => (s.getPde i).present

/-- The pages that the heap lends. -/
def CloneHeap.Lends (heap : CloneHeap) (p : Nat) : Prop :=
  p = heap.copiedPageDir / pageSize ∨ p = heap.copiedPageTable / pageSize

variable {s t u : Paging} {heap : CloneHeap} {except : Nat → Prop} {f g i p : Nat}

/-! ## Frames taken -/

/-- Frames have been taken into use. Entries of kernel pages are kept, those in `except` apart, and
new ones name new frames. -/
structure Takes (s : Paging) (except : Nat → Prop) (t : Paging) : Prop where
  crt : t.crt = s.crt
  dirsNum : t.dirsNum = s.dirsNum
  pde : ∀ d, (t.dirs d).pde = (s.dirs d).pde
  size : t.phyFramesMap.sizes = s.phyFramesMap.sizes
  kept : ∀ f, s.phyFramesMap.testBit f → t.phyFramesMap.testBit f
  kernel : ∀ p, ¬ except p → (s.kernelPte p).present → t.kernelPte p = s.kernelPte p
  fresh : ∀ p, (t.kernelPte p).present → t.kernelPte p = s.kernelPte p ∨ s.phyFramesMap.testBit (t.kernelPte p).frame = false
  kernel_rw : (∀ p, (s.kernelPte p).present → (s.kernelPte p).rw) → ∀ p, (t.kernelPte p).present → (t.kernelPte p).rw

namespace Takes

theorem refl (s : Paging) (except : Nat → Prop) : Takes s except s :=
  ⟨rfl, rfl, fun _ => rfl, rfl, fun _ h => h, fun _ _ _ => rfl, fun _ _ => .inl rfl, fun h => h⟩

theorem getPde (h : Takes s except t) (i : Nat) : t.getPde i = s.getPde i := by
  rw [Paging.getPde, Paging.getPde, crtDir, crtDir, h.crt]
  exact congrFun (h.pde s.crt) i

theorem ready (h : Takes s except t) (hs : s.KernelReady) : t.KernelReady where
  kernel_pde := by
    intro i hi hnot
    rw [h.getPde]
    exact hs.kernel_pde i hi hnot
  kernel_rw := h.kernel_rw hs.kernel_rw
  size := h.size.trans hs.size

/-- A new frame. -/
theorem allocate (h : Takes s except t) (hs : s.KernelReady) (ha : t.allocatePhyFrame = some (f, u)) :
    Takes s except u ∧ s.phyFramesMap.testBit f = false := by
  obtain ⟨hstep, hfree, -, -, hpte, -⟩ := allocatePhyFrame_spec (h.ready hs).size ha
  have hfree' : s.phyFramesMap.testBit f = false := by
    by_contra hused
    have hkept := h.kept f (by simpa using hused)
    simp [hfree] at hkept
  refine ⟨⟨hstep.crt.trans h.crt, hstep.dirsNum.trans h.dirsNum, ?_, hstep.size.trans h.size, ?_, ?_, ?_, ?_⟩, hfree'⟩
  · intro d
    rw [hstep.dirs]
    exact h.pde d
  · exact fun g hg => hstep.used g (h.kept g hg)
  · rw [hpte]
    exact h.kernel
  · rw [hpte]
    exact h.fresh
  · rw [hpte]
    exact h.kernel_rw

/-- Steps that change neither the kernel half nor the frames nor the directory entries. -/
theorem same (h : Takes s except t) (hcrt : u.crt = t.crt) (hnum : u.dirsNum = t.dirsNum)
    (hpde : ∀ d, (u.dirs d).pde = (t.dirs d).pde) (hmap : u.phyFramesMap = t.phyFramesMap)
    (hpte : u.kernelPte = t.kernelPte) : Takes s except u where
  crt := hcrt.trans h.crt
  dirsNum := hnum.trans h.dirsNum
  pde d := (hpde d).trans (h.pde d)
  size := by
    rw [hmap]
    exact h.size
  kept := by
    rw [hmap]
    exact h.kept
  kernel := by
    rw [hpte]
    exact h.kernel
  fresh := by
    rw [hpte]
    exact h.fresh
  kernel_rw := by
    rw [hpte]
    exact h.kernel_rw

/-- A kernel page gets an entry. A page that is not in `except` had none before. -/
theorem setPte {e : Pte} (h : Takes s except t) (hp : IsKernelPage p)
    (hnew : except p ∨ (t.kernelPte p).present = false) (he : e.present → e.rw)
    (hfree : e.present → s.phyFramesMap.testBit e.frame = false) : Takes s except (t.setPte p e) := by
  rw [setPte_kernel hp]
  refine ⟨h.crt, h.dirsNum, h.pde, h.size, h.kept, ?_, ?_, ?_⟩
  · intro q hq hpresent
    have hkept := h.kernel q hq hpresent
    have hne : q ≠ p := by
      rintro rfl
      rcases hnew with hin | habsent
      · exact hq hin
      · rw [hkept, hpresent] at habsent
        cases habsent
    simp only [Function.update_of_ne hne]
    exact hkept
  · intro q hpresent
    by_cases hq : q = p
    · subst hq
      simp only [Function.update_self] at hpresent ⊢
      exact .inr (hfree hpresent)
    · simp only [Function.update_of_ne hq] at hpresent ⊢
      exact h.fresh q hpresent
  · intro hrw q hpresent
    by_cases hq : q = p
    · subst hq
      simp only [Function.update_self] at hpresent ⊢
      exact he hpresent
    · simp only [Function.update_of_ne hq] at hpresent ⊢
      exact h.kernel_rw hrw q hpresent

/-- A page fault in the kernel half takes one frame. -/
theorem touchPage (h : Takes s except t) (hs : s.KernelReady) (hp : IsKernelPage p) (hrun : t.touchPage p = .ok u) :
    Takes s except u := by
  by_cases hpresent : (t.getPte p).present
  · rw [Paging.touchPage, if_pos hpresent] at hrun
    cases hrun
    exact h
  · rw [getPte_kernel hp] at hpresent
    have habsent : (t.kernelPte p).present = false := by simpa using hpresent
    rw [touchPage_absent (h.ready hs) hp habsent] at hrun
    cases ha : t.allocatePhyFrame with
    | none =>
      rw [ha] at hrun
      cases hrun
    | some r =>
      rw [ha] at hrun
      cases hrun
      obtain ⟨f, v⟩ := r
      obtain ⟨htakes, hfree⟩ := h.allocate hs ha
      have hpte : v.kernelPte = t.kernelPte := (allocatePhyFrame_spec (h.ready hs).size ha).2.2.2.2.1
      have hset := htakes.setPte (e := .mapTo f) hp (.inr (by rw [hpte]; exact habsent)) (fun _ => rfl) fun _ => hfree
      exact hset.same rfl rfl (fun _ => rfl) rfl rfl

theorem touchPages {pages : List Nat} (h : Takes s except t) (hs : s.KernelReady) (hp : ∀ p ∈ pages, IsHeapPage p)
    (hrun : t.touchPages pages = .ok u) : Takes s except u := by
  suffices hall : Ensures (fun _ => True) (t.touchPages pages) (Takes s except) from hall.of_ok hrun
  refine ensures_foldlM (I := fun _ => Takes s except) h ?_
  intro done p rest v hpages hv
  have hmem : p ∈ pages := by simp [hpages]
  cases htouch : v.touchPage p with
  | error e => trivial
  | ok w => exact hv.touchPage hs (hp p hmem).kernel htouch

/-- A lent page gets a new frame. -/
theorem mapLent {addr : Nat} (h : Takes s except t) (hs : s.KernelReady) (hp : IsKernelPage (addr / pageSize))
    (hlent : except (addr / pageSize)) (hfree : s.phyFramesMap.testBit g = false) (hpos : g ≠ 0)
    (hrun : t.mapPageWithFrame addr g = .ok u) : Takes s except u := by
  rw [mapPageWithFrame, mapPageWithFrameImpl_frame ((h.ready hs).pde_present hp) 1 (Nat.pos_of_ne_zero hpos)] at hrun
  cases hrun
  exact h.setPte hp (.inl hlent) (fun _ => rfl) fun _ => hfree

/-- A lent page is released. -/
theorem releaseLent {addr : Nat} (h : Takes s except t) (hs : s.KernelReady) (hp : IsKernelPage (addr / pageSize))
    (hlent : except (addr / pageSize)) : Takes s except (t.releasePages addr 1 false) := by
  have hdiv : addr / pageSize * pageSize / pageSize = addr / pageSize := by
    simp [pageSize]
  rw [releasePages_one hp.1, if_pos ((h.ready hs).pde_present hp), releasePage, hdiv]
  cases (t.getPte (addr / pageSize)).present with
  | false => exact h
  | true => exact h.setPte hp (.inl hlent) (by simp [Pte.zero]) (by simp [Pte.zero])

/-- A user page loses its write permission, and a count changes. -/
theorem mark {e : Pte} (h : Takes s except t) (hp : isUserPage p) (f : Nat) :
    Takes s except ((t.setPte p e).changeCowFrameRefcount f 1).2 := by
  have hsame : ∀ v : Paging, (v.changeCowFrameRefcount f 1).2 =
      { v with frameCowRefCounts := (v.changeCowFrameRefcount f 1).2.frameCowRefCounts } := by
    intro v
    rw [changeCowFrameRefcount]
    split_ifs <;> rfl
  rw [hsame, setPte_user hp]
  refine h.same rfl rfl (fun d => ?_) rfl rfl
  by_cases hd : d = t.crt
  · subst hd
    simp [setCrtDir, crtDir]
  · simp [setCrtDir, hd]

end Takes

/-- The marking loop takes frames for page faults only. -/
theorem markTable_takes {st st' : Paging × PageDir} {entries : List Nat} (hs : s.KernelReady) (hi : isUserTable i)
    (h : Takes s except st.1) (hentries : entries = List.range 1024)
    (hrun : entries.foldlM (markCopyOnWrite heap i) st = .ok st') :
    Takes s except st'.1 ∧ st'.2.pde = st.2.pde ∧ st'.2.frame = st.2.frame := by
  suffices hall : Ensures (fun _ => True) (entries.foldlM (markCopyOnWrite heap i) st) fun st' =>
      Takes s except st'.1 ∧ st'.2.pde = st.2.pde ∧ st'.2.frame = st.2.frame from hall.of_ok hrun
  refine ensures_foldlM (I := fun _ (st' : Paging × PageDir) =>
    Takes s except st'.1 ∧ st'.2.pde = st.2.pde ∧ st'.2.frame = st.2.frame) ⟨h, rfl, rfl⟩ ?_
  rintro done j rest ⟨t, d⟩ hsplit ⟨ht, hpde, hframe⟩
  obtain ⟨-, hj⟩ := eq_length_of_range_eq (hentries.symm.trans hsplit)
  have huser : isUserPage (i * 1024 + j) := by
    rw [← isUserTable_div, show (i * 1024 + j) / 1024 = i by omega]
    exact hi
  rw [markCopyOnWrite]
  split_ifs
  · exact ⟨ht, hpde, hframe⟩
  · cases hrun : ((t.setPte (i * 1024 + j) { t.getPte (i * 1024 + j) with rw := false }).changeCowFrameRefcount
        (d.pte (i * 1024 + j)).frame 1).2.touchPages (heap.countPages (i * 1024 + j)) with
    | error e =>
      simp only [hrun]
      trivial
    | ok u =>
      simp only [hrun]
      exact ⟨(ht.mark huser _).touchPages hs (heap.countPages_heap _) hrun, hpde, hframe⟩

/-- The loop over the page tables has visited the tables `done`, after the frame `g` has been taken for
the new directory. -/
structure Visited (s : Paging) (heap : CloneHeap) (g : Nat) (done : List Nat) (st : Paging × PageDir) : Prop where
  takes : Takes s heap.Lends st.1
  kernel : ∀ i, ¬ isUserTable i → st.2.pde i = (newPageDir s.crtDir g).pde i
  frame : st.2.frame = g
  present : ∀ i, isUserTable i → ((st.2.pde i).present ↔ i ∈ done ∧ (s.getPde i).present)
  fresh : ∀ i, isUserTable i → (st.2.pde i).present → s.phyFramesMap.testBit (st.2.pde i).frame = false

theorem Visited.copyPageTable {st st' : Paging × PageDir} {done : List Nat} (h : Visited s heap g done st)
    (hs : s.KernelReady) (hi : isUserTable i) (hrun : Paging.copyPageTable heap st i = .ok st') :
    Visited s heap g (done ++ [i]) st' := by
  obtain ⟨t, d⟩ := st
  have hpde := h.takes.getPde i
  rw [Paging.copyPageTable] at hrun
  by_cases hpresent : (s.getPde i).present
  · simp only [hpde, hpresent, Bool.not_true, Bool.false_eq_true, if_false] at hrun
    cases ha : t.allocatePhyFrame with
    | none =>
      rw [ha] at hrun
      cases hrun
    | some r =>
      obtain ⟨f, u⟩ := r
      simp only [ha] at hrun
      obtain ⟨v, hmap, hrun⟩ := bind_eq_ok hrun
      obtain ⟨htakes, hfree⟩ := h.takes.allocate hs ha
      split_ifs at hrun with hzero
      obtain ⟨⟨w, d'⟩, hloop, hrun⟩ := bind_eq_ok hrun
      cases hrun
      have hmapped := htakes.mapLent hs heap.copiedPageTable_heap.kernel (.inr rfl) hfree hzero hmap
      obtain ⟨hmarked, hsame, hframe⟩ := markTable_takes hs hi hmapped rfl hloop
      change d'.pde = d.pde at hsame
      refine ⟨hmarked, ?_, hframe.trans h.frame, ?_, ?_⟩
      · intro j hj
        have hne : j ≠ i := by
          rintro rfl
          exact hj hi
        simp only [Function.update_of_ne hne, hsame]
        exact h.kernel j hj
      · intro j hj
        by_cases hji : j = i
        · subst hji
          simp [hpresent, Pte.mapTo]
        · simp only [Function.update_of_ne hji, hsame, List.mem_append, List.mem_singleton, hji, or_false]
          exact h.present j hj
      · intro j hj
        by_cases hji : j = i
        · subst hji
          simp only [Function.update_self]
          exact fun _ => hfree
        · simp only [Function.update_of_ne hji, hsame]
          exact h.fresh j hj
  · simp only [hpde, hpresent, Bool.not_false, if_true] at hrun
    cases hrun
    refine ⟨h.takes, h.kernel, h.frame, ?_, h.fresh⟩
    · intro j hj
      rw [h.present j hj, List.mem_append, List.mem_singleton]
      constructor
      · exact fun hmem => ⟨.inl hmem.1, hmem.2⟩
      · rintro ⟨hmem | rfl, hj'⟩
        · exact ⟨hmem, hj'⟩
        · exact absurd hj' hpresent

theorem refs_some_lt {x : Nat × Nat} {r : Ref Nat} (h : s.refs x = some r) : x.1 < s.dirsNum := by
  by_contra hx
  rw [refs, if_neg hx] at h
  cases h

theorem Copied.isMapped (h : Copied s (fun _ => True) t) : t.IsMapped f ↔ s.IsMapped f := by
  rw [isMapped_iff, isMapped_iff]
  constructor
  · rintro ⟨x, r, hx, rfl⟩
    have hback : ∀ q, (s.refs (s.crt, q)).map readOnly = some r → ∃ k r', s.refs k = some r' ∧ r'.frame = r.frame := by
      intro q hq
      obtain ⟨r', hr', rfl⟩ := Option.map_eq_some_iff.mp hq
      exact ⟨_, r', hr', rfl⟩
    by_cases hnew : x.1 = s.dirsNum
    · exact hback x.2 ((h.copied_refs x.2 trivial).1 ▸ hnew ▸ hx)
    · by_cases hold : x.1 = s.crt
      · exact hback x.2 ((h.copied_refs x.2 trivial).2 ▸ hold ▸ hx)
      · rw [h.refs x hnew fun hx' => hold hx'.1] at hx
        exact ⟨x, r, hx, rfl⟩
  · rintro ⟨x, r, hx, rfl⟩
    by_cases hold : x.1 = s.crt
    · have hcopy := (h.copied_refs x.2 trivial).2
      rw [← hold] at hcopy
      change t.refs x = (s.refs x).map readOnly at hcopy
      rw [hx] at hcopy
      exact ⟨x, readOnly r, hcopy, rfl⟩
    · rw [← h.refs x (Nat.ne_of_lt (refs_some_lt hx)) fun hx' => hold hx'.1] at hx
      exact ⟨x, r, hx, rfl⟩

namespace Cloned

end Cloned

end LuckOS.Paging
