import LuckOS.PhysicalUserRelease

/-!
# Page faults in physical memory

`map_page_with_frame_impl` on a page of the user half or of the kernel heap. A new frame is cleared, or filled through
the window at `COPIED_PAGE_VADDR`, before any access can see it. As long as it comes from below the tables of the
kernel, this writes to no table.
-/

namespace LuckOS.PhysicalPaging

open ByteMemory PageWalk BootLoader FrameContents Outcome
open Paging (Pte PageDir isUserPage isUserTable)

variable {M N : PhysicalPaging} {m m' : Memory} {s t : Paging} {made : Option PageDir} {known : Nat → Prop}
  {dir : PageDir} {e : Pte} {d f g i j p v w : Nat}

theorem changeable_kernel (hp : p < 2 ^ 20) (hlow : 770 * 1024 ≤ p) : Changeable p := ⟨hp, by omega, by omega, by omega⟩

theorem changeable_copiedPage : Changeable (Paging.copiedPageVaddr / pageSize) :=
  changeable_kernel (by decide) (by decide)

theorem isKernelTable_of (hp : p < 2 ^ 20) (hlow : 770 * 1024 ≤ p) : IsKernelTable (p / 1024) := by
  refine ⟨by omega, by omega, ?_⟩
  rw [isUserTable, decide_eq_true_eq]
  omega

theorem isKernelTable_copiedPage : IsKernelTable (Paging.copiedPageVaddr / pageSize / 1024) :=
  isKernelTable_of (by decide) (by decide)

theorem getPde_setPte : (s.setPte p e).getPde = s.getPde := by
  funext i
  rw [Paging.setPte]
  split_ifs
  · rw [Paging.getPde, Paging.setCrtDir_crtDir]
    rfl
  · rfl

theorem getPte_setPte_self : (s.setPte p e).getPte p = e := by
  rw [Paging.setPte, Paging.getPte]
  split_ifs
  · rw [Paging.setCrtDir_crtDir]
    exact Function.update_self ..
  · exact Function.update_self ..

theorem getPte_setPte_of_ne {q : Nat} (hne : q ≠ p) : (s.setPte p e).getPte q = s.getPte q := by
  rw [Paging.setPte, Paging.getPte, Paging.getPte]
  split_ifs
  · rw [Paging.setCrtDir_crtDir]
    exact Function.update_of_ne hne ..
  · rfl
  · rfl
  · exact Function.update_of_ne hne ..

theorem getPte_changeCowFrameRefcount (delta : Int) : (s.changeCowFrameRefcount f delta).2.getPte = s.getPte := by
  rw [Paging.changeCowFrameRefcount]
  split_ifs <;> rfl

/-- The old count of a frame. -/
theorem changeCowFrameRefcount_fst (hready : s.copyOnWriteReady = true) (delta : Int) :
    (s.changeCowFrameRefcount f delta).1 = (s.frameCowRefCounts f).getD 0 := by
  rw [Paging.changeCowFrameRefcount, hready]
  rfl

/-- The release of a page of the kernel half changes no other entry. -/
theorem getPte_releaseLent (hv : v / pageSize < 2 ^ 20) (hne : p ≠ v / pageSize) :
    (s.releasePages v 1 false).getPte p = s.getPte p := by
  have hdiv : v / Paging.pageSize * Paging.pageSize / Paging.pageSize = v / pageSize :=
    Nat.mul_div_cancel (v / pageSize) (by decide)
  rw [Paging.releasePages_one hv]
  simp only [Paging.releasePage, hdiv, Bool.false_eq_true, if_false]
  split_ifs
  · rfl
  · exact getPte_setPte_of_ne hne
  · rfl

theorem memcpyPage_page (a b : Nat) :
    s.memcpyPage (a / pageSize * pageSize) (b / pageSize * pageSize) = s.memcpyPage a b := by
  have hdiv : ∀ x, x / pageSize * pageSize / Paging.pageSize = x / Paging.pageSize :=
    fun x => Nat.mul_div_cancel _ (by decide)
  simp only [Paging.memcpyPage, hdiv]

/-- With its page table `map_page_with_frame_impl` goes on as on a state that has it already. -/
theorem mapPageWithFrameImpl_ensure (hM : M.ensurePageTable (v / 2 ^ 22) = .ok N)
    (hN : N.ensurePageTable (v / 2 ^ 22) = .ok N) (depth : Nat) (frame : Int) :
    M.mapPageWithFrameImpl (depth + 1) v frame = N.mapPageWithFrameImpl (depth + 1) v frame := by
  simp only [mapPageWithFrameImpl, hM, hN]

theorem mapPageWithFrameImpl_ensure' (hs : s.ensurePageTable (v / 2 ^ 22) = .ok t)
    (ht : t.ensurePageTable (v / 2 ^ 22) = .ok t) (depth : Nat) (frame : Int) :
    s.mapPageWithFrameImpl (depth + 1) v frame = t.mapPageWithFrameImpl (depth + 1) v frame := by
  simp only [Paging.mapPageWithFrameImpl, hs, ht]

/-- `release_pages` on one page. -/
theorem releasePages_one (hp : v / pageSize < 2 ^ 20) (freeFrame : Bool) : M.releasePages v 1 freeFrame = (do
    let pde ← M.loadEntry (pdeAt (v / pageSize / 1024))
    if !pde.present then Except.ok M else M.releasePage (v / pageSize * pageSize) freeFrame) := by
  have hend : Paging.u32 (v / pageSize + 1) = v / pageSize + 1 := Nat.mod_eq_of_lt (by omega)
  have hlast : Paging.u32 (v / pageSize + 1 + (2 ^ 32 - 1)) = v / pageSize := by
    have hsum : v / pageSize + 1 + (2 ^ 32 - 1) = v / pageSize + 2 ^ 32 := by omega
    rw [Paging.u32, hsum, Nat.add_mod_right, Nat.mod_eq_of_lt (by omega)]
  have hmax : max (v / pageSize) (v / pageSize / 1024 * 1024) = v / pageSize := by omega
  have hmin : min (v / pageSize + 1) (v / pageSize / 1024 * 1024 + 1024) = v / pageSize + 1 := by omega
  simp only [releasePages, hend, hlast, forRange, Nat.add_sub_cancel_left, List.range'_one, List.foldlM_cons,
    List.foldlM_nil, hmax, hmin, bind_pure]

namespace Simulates

theorem ensurePageTable_present (h : Simulates M s made known) (hi : i < 1024) (hpresent : (s.getPde i).present) :
    M.ensurePageTable i = .ok M := by
  rw [PhysicalPaging.ensurePageTable, h.loadEntry_pde hi]
  simp only [bind, Except.bind, hpresent, Bool.not_true, Bool.false_eq_true, if_false]

/-- A given frame is mapped. -/
theorem mapGiven (h : Simulates M s made known) (hp : Changeable (v / pageSize))
    (hpresent : (s.getPde (v / pageSize / 1024)).present) (hf : 0 < f) (hlt : f < 2 ^ 20) (depth : Nat) :
    ∃ m', M.mapPageWithFrameImpl (depth + 1) v f = .ok { M with memory := m' } ∧
    SameBut (s.getPde (v / pageSize / 1024)).frame M.memory m' ∧
    Simulates { M with memory := m' } (s.setPte (v / pageSize) (.mapTo f)) made known := by
  have hpos : (0 : Int) < f := by exact_mod_cast hf
  have hlt' := hp.lt
  have hensure := h.ensurePageTable_present (i := v / pageSize / 1024) (by omega) hpresent
  obtain ⟨m', hrun, hsame, hsim⟩ := h.storeEntry_pte hp hpresent (e := .mapTo f) hlt
  refine ⟨m', ?_, hsame, hsim⟩
  rw [mapPageWithFrameImpl, Paging.div_table]
  change (M.ensurePageTable (v / pageSize / 1024) >>= _) = _
  rw [hensure]
  change (M.loadEntry (pteAt (v / pageSize)) >>= _) = _
  rw [h.loadEntry_pte hp.lt hp.window hpresent]
  simp only [bind, Except.bind, hpos, if_true, Int.toNat_natCast]
  exact hrun

/-- The states behind the mapping of a new frame. -/
def mapped (s : Paging) (v f : Nat) : Paging :=
  (({ s with phyFramesMap := s.phyFramesMap.setBit f } : Paging).setPte (v / pageSize) (.mapTo f)).clearPage v

/-- A page without an entry gets a new frame. -/
theorem mapAbsent (h : Simulates M s made known) (hp : Changeable (v / pageSize))
    (hpresent : (s.getPde (v / pageSize / 1024)).present) (habsent : (s.getPte (v / pageSize)).present = false)
    (hfree : 0 < s.phyFramesMap.freeBelow 0x100) (depth : Nat) :
    ∃ f m', Taken s made known f ∧ s.mapPageWithFrameImpl (depth + 1) v (-1) = .ok (mapped s v f) ∧
    M.mapPageWithFrameImpl (depth + 1) v (-1) = .ok { M with
      phyFramesMap := s.phyFramesMap.setBit f
      memory := m' } ∧
    (∀ g, g ≠ (s.getPde (v / pageSize / 1024)).frame → g ≠ f → BytesIn m' g fun o => M.memory (g * 4096 + o)) ∧
    Simulates { M with
      phyFramesMap := s.phyFramesMap.setBit f
      memory := m' } (mapped s v f) made fun g => g = f ∨ known g := by
  obtain ⟨f, hf, ha, hM, htaken⟩ := h.allocate hfree (.noFrameForAddr v)
  have hlt' := hp.lt
  have hlt := hf.lt
  obtain ⟨m₁, hstore, hsame₁, hset⟩ := htaken.storeEntry_pte hp hpresent (e := .mapTo f) (by change f < 2 ^ 20; omega)
  have hpde := getPde_setPte (s := { s with phyFramesMap := s.phyFramesMap.setBit f }) (p := v / pageSize) (e := .mapTo f)
  have htable : ¬ IsTable (({ s with phyFramesMap := s.phyFramesMap.setBit f } : Paging).setPte (v / pageSize) (.mapTo f))
      made f := by
    rw [IsTable, tableFrame_setPte htaken.describes.crt_lt]
    exact hf.table
  obtain ⟨m₂, hclear, hsame₂, hdone⟩ := hset.clearPage hp.lt hp.window (by rw [hpde]; exact hpresent) getPte_setPte_self
    (by rw [phyFramesMap_setPte]; exact hf.used) hlt htable hf.unknown
  have hframe : ¬ (0 : Int) < -1 := by decide
  have hsame : SameBut (s.getPde (v / pageSize / 1024)).frame M.memory m₁ := hsame₁
  refine ⟨f, m₂, hf, ?_, ?_, fun g hg hg' o ho => (hsame₂ _ (by omega)).trans (hsame _ (by omega)), hdone⟩
  · have hpage : v / 2 ^ 12 = v / Paging.pageSize := rfl
    have habsent' : (s.getPte (v / Paging.pageSize)).present = false := habsent
    have hensure : s.ensurePageTable (v / Paging.pageSize / 1024) = .ok s := Paging.ensurePageTable_present hpresent
    rw [Paging.mapPageWithFrameImpl, Paging.div_table, hensure]
    simp only [bind, Except.bind, hframe, hpage, habsent', ha, Bool.not_false, if_false, if_true]
    rfl
  · have hpage : v / 2 ^ 12 = v / pageSize := rfl
    have hensure : M.ensurePageTable (v / Paging.pageSize / 1024) = .ok M :=
      h.ensurePageTable_present (by change v / pageSize / 1024 < 1024; omega) hpresent
    rw [mapPageWithFrameImpl, Paging.div_table, hensure]
    simp only [bind, Except.bind, hframe, hpage, h.loadEntry_pte hp.lt hp.window hpresent, habsent, hM, hstore, Bool.not_false,
      if_false, if_true]
    exact hclear

/-- A page that the heap lends, or the window, is released without its frame. -/
theorem releaseLent (h : Simulates M s made known) (hp : Changeable (v / pageSize))
    (hpresent : (s.getPde (v / pageSize / 1024)).present) : Returns (M.releasePages v 1 false) fun N =>
      Simulates N (s.releasePages v 1 false) made known ∧ N.pageFaults = M.pageFaults := by
  have hlt := hp.lt
  have hload := h.loadEntry_pde (i := v / pageSize / 1024) (by omega)
  rw [releasePages_one hp.lt, hload, Paging.releasePages_one hp.lt]
  have hpresent' : (s.getPde (v / Paging.pageSize / 1024)).present = true := hpresent
  simp only [bind, Except.bind, hpresent, hpresent', Bool.not_true, Bool.false_eq_true, if_true, if_false]
  refine (h.releasePage hp hpresent false (fun hfalse => (Bool.false_ne_true hfalse).elim)).mono fun N hN => ?_
  refine ⟨hN.1.weaken fun g hg => ⟨hg, ?_⟩, hN.2⟩
  have hmap : (s.releasePage (v / pageSize * pageSize) false).phyFramesMap = s.phyFramesMap := by
    rw [Paging.releasePage]
    simp only [Bool.false_eq_true, if_false]
    split_ifs
    · rfl
    · exact phyFramesMap_setPte
  rw [hmap]
  exact (h.describes.pages g hg).1

/-- The copy-on-write branch on a frame that is shared. -/
theorem mapShared (h : Simulates M s made known) (hp : isUserPage (v / pageSize))
    (hpresent : (s.getPde (v / pageSize / 1024)).present) (hpte : (s.getPte (v / pageSize)).present = true)
    (hrw : (s.getPte (v / pageSize)).rw = false)
    (hcount : 0 < (s.changeCowFrameRefcount (s.getPte (v / pageSize)).frame (-1)).1)
    (hknown : known (s.getPte (v / pageSize)).frame) (hzero : s.phyFramesMap.testBit 0 = true)
    (hfree : 0 < s.phyFramesMap.freeBelow 0x100) :
    Together (s.mapPageWithFrameImpl 2 v (-1)) (M.mapPageWithFrameImpl 2 v (-1)) fun t N =>
      Simulates N t made fun g => g = (t.getPte (v / pageSize)).frame ∨ known g := by
  have hpage := changeable_user hp
  have hlt := hpage.lt
  have hframe : ¬ (0 : Int) < -1 := by decide
  have hne : v / pageSize ≠ Paging.copiedPageVaddr / pageSize := by
    intro heq
    rw [heq] at hp
    exact absurd hp (by decide)
  have hgetPte := getPte_changeCowFrameRefcount (s := s) (f := (s.getPte (v / pageSize)).frame) (-1)
  have hgetPde := getPde_changeCowFrameRefcount (s := s) (f := (s.getPte (v / pageSize)).frame) (-1)
  obtain ⟨hold, hchanged, -, hfaults, hmap⟩ := h.changeCowFrameRefcount (s.getPte (v / pageSize)).frame (-1)
  rcases hs : s.changeCowFrameRefcount (s.getPte (v / pageSize)).frame (-1) with ⟨c, s'⟩
  rcases hM : M.changeCowFrameRefcount (s.getPte (v / pageSize)).frame (-1) with ⟨c', M'⟩
  rw [hs] at hcount hgetPte hgetPde
  rw [hs, hM] at hold hchanged
  rw [hs] at hmap
  dsimp only at hold hchanged hmap hcount hgetPte hgetPde
  subst hold
  rw [← hmap] at hzero hfree
  obtain ⟨f, hf, ha, hM', htaken⟩ := hchanged.allocate hfree (.noFrameForAddr v)
  have hlt' := hf.lt
  have hpos : 0 < f := by
    refine Nat.pos_of_ne_zero ?_
    rintro rfl
    rw [hf.free] at hzero
    cases hzero
  obtain ⟨m₁, hwindow, hsame₁, hset⟩ := htaken.mapGiven changeable_copiedPage
    (htaken.kernel_present isKernelTable_copiedPage) hpos (by omega) 0
  have hpde : ∀ i, (({ s' with phyFramesMap := s'.phyFramesMap.setBit f } : Paging).setPte
      (Paging.copiedPageVaddr / pageSize) (.mapTo f)).getPde i = s.getPde i := by
    intro i
    rw [getPde_setPte]
    exact congrFun hgetPde i
  have hpte' : (({ s' with phyFramesMap := s'.phyFramesMap.setBit f } : Paging).setPte
      (Paging.copiedPageVaddr / pageSize) (.mapTo f)).getPte (v / pageSize) = s.getPte (v / pageSize) := by
    rw [getPte_setPte_of_ne hne]
    exact congrFun hgetPte _
  have hused : (({ s' with phyFramesMap := s'.phyFramesMap.setBit f } : Paging).setPte
      (Paging.copiedPageVaddr / pageSize) (.mapTo f)).phyFramesMap.testBit f = true := by
    rw [phyFramesMap_setPte]
    exact hf.used
  have htable : ¬ IsTable (({ s' with phyFramesMap := s'.phyFramesMap.setBit f } : Paging).setPte
      (Paging.copiedPageVaddr / pageSize) (.mapTo f)) made f := by
    rw [IsTable, tableFrame_setPte htaken.describes.crt_lt]
    exact hf.table
  have hkernel : (({ s' with phyFramesMap := s'.phyFramesMap.setBit f } : Paging).setPte
      (Paging.copiedPageVaddr / pageSize) (.mapTo f)).getPde (Paging.copiedPageVaddr / pageSize / 1024) |>.present :=
    hset.kernel_present isKernelTable_copiedPage
  have hself : (({ s' with phyFramesMap := s'.phyFramesMap.setBit f } : Paging).setPte
      (Paging.copiedPageVaddr / pageSize) (.mapTo f)).getPte (Paging.copiedPageVaddr / pageSize) = .mapTo f :=
    getPte_setPte_self
  have hrun : ({ s' with phyFramesMap := s'.phyFramesMap.setBit f } : Paging).mapPageWithFrameImpl 1
      Paging.copiedPageVaddr f = .ok (({ s' with phyFramesMap := s'.phyFramesMap.setBit f } : Paging).setPte
      (Paging.copiedPageVaddr / pageSize) (.mapTo f)) :=
    Paging.mapPageWithFrameImpl_frame (htaken.kernel_present isKernelTable_copiedPage) 0 hpos
  generalize (({ s' with phyFramesMap := s'.phyFramesMap.setBit f } : Paging).setPte
      (Paging.copiedPageVaddr / pageSize) (.mapTo f)) = u at *
  obtain ⟨m₂, hcopy, -, hcopied⟩ := hset.memcpyPage (p := Paging.copiedPageVaddr / pageSize) (by decide) (by decide) hkernel
    hself hused hlt' htable hf.unknown hlt hpage.window (by rw [hpde]; exact hpresent) (by rw [hpte']; exact hpte)
    (by rw [hpte']; exact hknown)
  obtain ⟨m₃, hstore, -, hstored⟩ := hcopied.storeEntry_pte hpage
    (by change (u.getPde (v / pageSize / 1024)).present = true; rw [hpde]; exact hpresent)
    (e := { s.getPte (v / pageSize) with frame := f, rw := true }) (by change f < 2 ^ 20; omega)
  obtain ⟨N, hrelease, hdone, -⟩ := hstored.releaseLent changeable_copiedPage
    (hstored.kernel_present isKernelTable_copiedPage)
  rw [memcpyPage_page] at hstored hdone
  have hwindowAddr : Paging.copiedPageVaddr / pageSize * pageSize = Paging.copiedPageVaddr := rfl
  rw [hwindowAddr] at hcopy
  simp only [hpte] at hstore
  have hentry : ((((u.memcpyPage Paging.copiedPageVaddr v).setPte (v / pageSize)
      { s.getPte (v / pageSize) with frame := f, rw := true }).releasePages Paging.copiedPageVaddr 1
      false).getPte (v / pageSize)).frame = f := by
    rw [getPte_releaseLent (by decide) hne, getPte_setPte_self]
  have hensure : s.ensurePageTable (v / Paging.pageSize / 1024) = .ok s := Paging.ensurePageTable_present hpresent
  have hensure' : M.ensurePageTable (v / Paging.pageSize / 1024) = .ok M :=
    h.ensurePageTable_present (by change v / pageSize / 1024 < 1024; omega) hpresent
  have hpage' : v / 2 ^ 12 = v / pageSize := rfl
  have hsize : Paging.pageSize = pageSize := rfl
  refine ⟨_, ?_, N, ?_, hdone.weaken fun g hg => hentry ▸ hg⟩
  · rw [Paging.mapPageWithFrameImpl, Paging.div_table, hensure]
    simp only [bind, Except.bind, hframe, hpage', hpte, hrw, hs, hcount, ha, hrun, Bool.not_true, Bool.not_false,
      Bool.false_eq_true, if_false, if_true]
  · rw [mapPageWithFrameImpl, Paging.div_table, hensure']
    simp only [bind, Except.bind, hframe, hpage', h.loadEntry_pte hpage.lt hpage.window hpresent, hpte, hrw, hM, hcount, hM',
      hwindow, hcopy, hstore, Bool.not_true, Bool.not_false, Bool.false_eq_true, if_false, if_true]
    exact hrelease

/-- The copy-on-write branch on a frame that is not shared any more. -/
theorem mapOwned (h : Simulates M s made known) (hp : isUserPage (v / pageSize))
    (hpresent : (s.getPde (v / pageSize / 1024)).present) (hpte : (s.getPte (v / pageSize)).present = true)
    (hrw : (s.getPte (v / pageSize)).rw = false)
    (hcount : ¬ 0 < (s.changeCowFrameRefcount (s.getPte (v / pageSize)).frame (-1)).1)
    (hknown : known (s.getPte (v / pageSize)).frame) :
    Together (s.mapPageWithFrameImpl 2 v (-1)) (M.mapPageWithFrameImpl 2 v (-1)) fun t N =>
      Simulates N t made fun g => g = (t.getPte (v / pageSize)).frame ∨ known g := by
  have hpage := changeable_user hp
  have hlt := hpage.lt
  have hframe : ¬ (0 : Int) < -1 := by decide
  have hgetPde := getPde_changeCowFrameRefcount (s := s) (f := (s.getPte (v / pageSize)).frame) (-1)
  obtain ⟨hold, hchanged, -⟩ := h.changeCowFrameRefcount (s.getPte (v / pageSize)).frame (-1)
  rcases hs : s.changeCowFrameRefcount (s.getPte (v / pageSize)).frame (-1) with ⟨c, s'⟩
  rcases hM : M.changeCowFrameRefcount (s.getPte (v / pageSize)).frame (-1) with ⟨c', M'⟩
  rw [hs] at hcount hgetPde
  rw [hs, hM] at hold hchanged
  dsimp only at hold hchanged hcount hgetPde
  subst hold
  have hbound := (h.describes.pages _ hknown).2.1
  obtain ⟨m₁, hstore, -, hdone⟩ := hchanged.storeEntry_pte hpage (by rw [hgetPde]; exact hpresent)
    (e := { s.getPte (v / pageSize) with rw := true }) (by change (s.getPte (v / pageSize)).frame < 2 ^ 20; omega)
  simp only [hpte] at hstore
  have hensure : s.ensurePageTable (v / Paging.pageSize / 1024) = .ok s := Paging.ensurePageTable_present hpresent
  have hensure' : M.ensurePageTable (v / Paging.pageSize / 1024) = .ok M :=
    h.ensurePageTable_present (by change v / pageSize / 1024 < 1024; omega) hpresent
  have hpage' : v / 2 ^ 12 = v / pageSize := rfl
  refine ⟨_, ?_, _, ?_, hdone.weaken fun g hg => ?_⟩
  · rw [Paging.mapPageWithFrameImpl, Paging.div_table, hensure]
    simp only [bind, Except.bind, hframe, hpage', hpte, hrw, hs, hcount, Bool.not_true, Bool.not_false, Bool.false_eq_true,
      if_false, if_true]
  · rw [mapPageWithFrameImpl, Paging.div_table, hensure']
    simp only [bind, Except.bind, hframe, hpage', h.loadEntry_pte hpage.lt hpage.window hpresent, hpte, hrw, hM, hcount,
      Bool.not_true, Bool.not_false, Bool.false_eq_true, if_false, if_true]
    exact hstore
  · rw [getPte_setPte_self] at hg
    rcases hg with rfl | hg
    · exact hknown
    · exact hg

/-- A writable page stays as it is. -/
theorem mapWritable (h : Simulates M s made known) (hp : isUserPage (v / pageSize))
    (hpresent : (s.getPde (v / pageSize / 1024)).present) (hpte : (s.getPte (v / pageSize)).present = true)
    (hrw : (s.getPte (v / pageSize)).rw = true) (hknown : known (s.getPte (v / pageSize)).frame) :
    Together (s.mapPageWithFrameImpl 2 v (-1)) (M.mapPageWithFrameImpl 2 v (-1)) fun t N =>
      Simulates N t made fun g => g = (t.getPte (v / pageSize)).frame ∨ known g := by
  have hpage := changeable_user hp
  have hlt := hpage.lt
  have hframe : ¬ (0 : Int) < -1 := by decide
  have hensure : s.ensurePageTable (v / Paging.pageSize / 1024) = .ok s := Paging.ensurePageTable_present hpresent
  have hensure' : M.ensurePageTable (v / Paging.pageSize / 1024) = .ok M :=
    h.ensurePageTable_present (by change v / pageSize / 1024 < 1024; omega) hpresent
  have hpage' : v / 2 ^ 12 = v / pageSize := rfl
  refine ⟨s, ?_, M, ?_, h.weaken fun g hg => ?_⟩
  · rw [Paging.mapPageWithFrameImpl, Paging.div_table, hensure]
    simp only [bind, Except.bind, hframe, hpage', hpte, hrw, Bool.not_true, Bool.false_eq_true, if_false]
  · rw [mapPageWithFrameImpl, Paging.div_table, hensure']
    simp only [bind, Except.bind, hframe, hpage', h.loadEntry_pte hpage.lt hpage.window hpresent, hpte, hrw, Bool.not_true,
      Bool.false_eq_true, if_false]
  · rcases hg with rfl | hg
    · exact hknown
    · exact hg

theorem getPte_mapped (f : Nat) : ((mapped s v f).getPte (v / pageSize)) = .mapTo f := getPte_setPte_self

/-- A user page that has a page table. -/
theorem mapUser (h : Simulates M s made known) (hp : isUserPage (v / pageSize))
    (hpresent : (s.getPde (v / pageSize / 1024)).present) (hready : s.copyOnWriteReady = true)
    (hzero : s.phyFramesMap.testBit 0 = true)
    (hknown : (s.getPte (v / pageSize)).present = true → known (s.getPte (v / pageSize)).frame)
    (hfree : (if !(s.getPte (v / pageSize)).present then 1
      else if !(s.getPte (v / pageSize)).rw && decide (0 < (s.frameCowRefCounts (s.getPte (v / pageSize)).frame).getD 0) then 1
      else 0) ≤ s.phyFramesMap.freeBelow 0x100) :
    Together (s.mapPageWithFrameImpl 2 v (-1)) (M.mapPageWithFrameImpl 2 v (-1)) fun t N =>
      Simulates N t made fun g => g = (t.getPte (v / pageSize)).frame ∨ known g := by
  cases hpte : (s.getPte (v / pageSize)).present with
  | false =>
    rw [hpte] at hfree
    obtain ⟨f, m', -, hs, hM, -, hsim⟩ := h.mapAbsent (changeable_user hp) hpresent hpte hfree 1
    refine ⟨_, hs, _, hM, hsim.weaken fun g hg => ?_⟩
    rwa [getPte_mapped] at hg
  | true =>
    cases hrw : (s.getPte (v / pageSize)).rw with
    | true => exact h.mapWritable hp hpresent hpte hrw (hknown hpte)
    | false =>
      by_cases hcount : 0 < (s.changeCowFrameRefcount (s.getPte (v / pageSize)).frame (-1)).1
      · refine h.mapShared hp hpresent hpte hrw hcount (hknown hpte) hzero ?_
        rw [changeCowFrameRefcount_fst hready] at hcount
        rw [hpte, hrw, decide_eq_true hcount] at hfree
        exact hfree
      · exact h.mapOwned hp hpresent hpte hrw hcount (hknown hpte)

theorem hasTable_eq (h : Simulates M s made known) (hp : p < 2 ^ 20) : M.hasTable p = (s.getPde (p / 1024)).present := by
  rw [← present_iff_hasTable M (p / 1024) rfl, h.cr3, h.describes.pde_word (by omega)]

/-- The entry of a page that has a table. -/
theorem entry_eq (h : Simulates M s made known) (hp : p < 2 ^ 20) (hne : p / 1024 ≠ 769)
    (hpresent : (s.getPde (p / 1024)).present) : M.entry p = s.getPte p := by
  have hentry : M.entry p = (M.entryAt p).elim .zero fun a => entryOf (read32 M.memory a) := rfl
  rw [hentry, h.entryAt_some hp hpresent]
  exact h.describes.pte_word hp hne hpresent

end Simulates

/-! ## Faults of user pages -/

/-- The number of frames that `page_fault_handler` takes for a page: for the page table, and for the page. -/
def faultFrames (s : PhysicalPaging) (p : Nat) : Nat :=
  if !s.hasTable p then 2
  else if !(s.entry p).present then 1
  else if !(s.entry p).rw && decide (0 < (s.frameCowRefCounts (s.entry p).frame).getD 0) then 1
  else 0

/-- The mapped frames behind a page fault. -/
theorem isMapped_of_mapped (hp : isUserPage p) (h : Paging.Mapped s p t) (hf : t.IsMapped f) :
    f = (t.getPte p).frame ∨ s.IsMapped f := by
  obtain ⟨g, hg, -⟩ := h.ref
  obtain ⟨k, r, hk, rfl⟩ := Paging.isMapped_iff.mp hf
  by_cases hkey : k = (t.crt, p)
  · left
    rw [hkey, Paging.refs] at hk
    split_ifs at hk
    rw [Paging.PageDir.ref] at hk
    split_ifs at hk
    rw [Paging.getPte_user hp, ← Option.some.inj hk]
    rfl
  · right
    rw [hg, ← h.crt, Function.update_of_ne hkey] at hk
    exact Paging.isMapped_iff.mpr ⟨k, r, hk, rfl⟩

namespace Represents

theorem pageFaultHandler (h : Represents M s) (hp : isUserPage (v / pageSize))
    (hfree : M.faultFrames (v / pageSize) ≤ M.phyFramesMap.freeBelow 0x100) :
    Together (s.pageFaultHandler v) (M.pageFaultHandler v) fun t N => Represents N t := by
  have hpage := (changeable_user hp).lt
  have hdiv : v / pageSize * pageSize / pageSize = v / pageSize := Nat.mul_div_cancel _ (by decide)
  have huser : isUserTable (v / pageSize / 1024) := by
    rw [Paging.isUserTable_div]
    exact hp
  have hindex : v / pageSize * pageSize / 2 ^ 22 = v / pageSize / 1024 := by
    rw [Paging.div_table]
    exact congrArg (· / 1024) hdiv
  have hM := h.simulates.phyFramesMap
  have hzero := h.wf.owner_used _ _ h.wf.owner_zero
  rw [faultFrames, h.simulates.hasTable_eq hpage, hM] at hfree
  have htable : (if (s.getPde (v / pageSize / 1024)).present then 0 else 1) ≤ s.phyFramesMap.freeBelow 0x100 := by
    cases hpresent : (s.getPde (v / pageSize / 1024)).present with
    | false =>
      rw [hpresent] at hfree
      exact Nat.le_of_succ_le hfree
    | true => exact Nat.zero_le _
  obtain ⟨u, hs, N, hN, hready⟩ := h.simulates.ensurePageTable huser htable
  have hpresent : (u.getPde (v / pageSize * pageSize / pageSize / 1024)).present := by
    rw [hdiv]
    exact hready.present
  have hpte := hready.pte (v / pageSize) rfl
  have hmap := hready.simulates.mapUser (v := v / pageSize * pageSize) (by rw [hdiv]; exact hp) hpresent
    (hready.ready.trans h.wf.ready) (hready.used 0 hzero) (fun hentry => ?_) ?_
  · -- The handler maps the page in the state that has the page table.
    have hrun : s.pageFaultHandler v = u.mapPageWithFrameImpl 2 (v / pageSize * pageSize) (-1) := by
      change s.mapPageWithFrameImpl 2 (v / pageSize * pageSize) (-1) = _
      refine mapPageWithFrameImpl_ensure' ?_ ?_ 1 (-1)
      · rw [hindex]
        exact hs
      · rw [hindex]
        exact Paging.ensurePageTable_present hready.present
    have hrun' : M.mapPage (v / pageSize * pageSize) = N.mapPageWithFrameImpl 2 (v / pageSize * pageSize) (-1) := by
      refine mapPageWithFrameImpl_ensure ?_ ?_ 1 (-1)
      · rw [hindex]
        exact hN
      · rw [hindex]
        exact hready.simulates.ensurePageTable_present (isUserTable_ne huser).2 hready.present
    obtain ⟨t, ht, N', hN', hsim⟩ := hmap
    rw [hdiv] at hsim
    have hmapped := (Paging.pageFaultHandler_user h.wf hp).of_ok (hrun.trans ht)
    refine ⟨t, hrun.trans ht, { N' with pageFaults := N'.pageFaults + 1 }, ?_, hmapped.wf, ?_⟩
    · rw [PhysicalPaging.pageFaultHandler, hrun', hN']
      rfl
    · have hknown := hsim.weaken fun g hg => isMapped_of_mapped hp hmapped hg
      exact ⟨hknown.describes, hknown.phyFramesMap, hknown.size, hknown.ready, hknown.counts, hknown.dirsNum, hknown.crt,
        hknown.dirs, hknown.released⟩
  · rw [hdiv] at hentry ⊢
    rw [hpte] at hentry ⊢
    split_ifs at hentry ⊢ with htablePresent
    · exact isMapped_getPte h.wf hp hentry
    · cases hentry
  · rw [hdiv, hpte, hready.counts]
    have hleft := hready.free
    cases htablePresent : (s.getPde (v / pageSize / 1024)).present with
    | false =>
      rw [htablePresent] at hfree hleft
      change 2 ≤ _ at hfree
      change _ + 1 = _ at hleft
      change 1 ≤ _
      omega
    | true =>
      rw [htablePresent] at hfree hleft
      rw [h.simulates.entry_eq hpage (changeable_user hp).window htablePresent, h.simulates.counts] at hfree
      rw [if_pos rfl] at hleft ⊢
      rw [← Nat.add_zero (u.phyFramesMap.freeBelow 256), hleft]
      exact hfree

end Represents

end LuckOS.PhysicalPaging
