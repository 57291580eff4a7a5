import LuckOS.PhysicalHeapFaults

/-!
# Frames under the pages that the heap lends

`clone_crt_page_dir` writes the new directory and its page tables through two pages of the kernel heap, to
which it maps the new frames. Until a directory names such a frame, only the code of the call reads it.
-/

namespace LuckOS.PhysicalPaging

open ByteMemory PageWalk BootLoader FrameContents Outcome
open Paging (Pte PageDir KernelStep KernelReady IsHeapPage isUserPage isUserTable)

variable {M N : PhysicalPaging} {m m' : Memory} {s t : Paging} {made made' : Option PageDir} {known : Nat → Prop}
  {P : Finset Nat} {e : Nat → Pte} {dir : PageDir} {f g i p q v w : Nat}

theorem isTable_congr (hnum : t.dirsNum = s.dirsNum) (hdirs : t.dirs = s.dirs) : IsTable t made f ↔ IsTable s made f := by
  have hframe : tableFrame t made = tableFrame s made := by
    funext x
    rw [tableFrame, tableFrame, dirAt, dirAt, hnum, hdirs]
  rw [IsTable, IsTable, hframe]

/-- A frame in use that holds no table and no page that is known. -/
structure Reserved (s : Paging) (made : Option PageDir) (known : Nat → Prop) (f : Nat) : Prop where
  used : s.phyFramesMap.testBit f = true
  lt : f < 0x100
  table : ¬ IsTable s made f
  unknown : ¬ known f

theorem Simulates.Taken.reserved (h : Simulates.Taken s made known f) :
    Reserved { s with phyFramesMap := s.phyFramesMap.setBit f } made known f :=
  ⟨h.used, h.lt, h.table, h.unknown⟩

theorem Reserved.kernelStep (h : Reserved s made known f) (ht : KernelStep s t) : Reserved t made known f :=
  ⟨ht.used f h.used, h.lt, fun hf => h.table ((isTable_congr ht.dirsNum ht.dirs).mp hf), h.unknown⟩

/-- Through the page at `v` the code writes to the frame `f`, which holds the entries `e`. -/
structure Lent (M : PhysicalPaging) (s : Paging) (made : Option PageDir) (known : Nat → Prop) (v f : Nat)
    (e : Nat → Pte) : Prop where
  simulates : Simulates M s made known
  reserved : Reserved s made known f
  heap : IsHeapPage (v / pageSize)
  aligned : v / pageSize * pageSize = v
  entry : s.getPte (v / pageSize) = .mapTo f
  contents : EntriesIn entryOf M.memory f e

theorem read32_lt (m : Memory) (a : Nat) : read32 m a < 2 ^ 32 := by
  rw [read32]
  have h₀ := (m a).toNat_lt
  have h₁ := (m (a + 1)).toNat_lt
  have h₂ := (m (a + 2)).toNat_lt
  have h₃ := (m (a + 3)).toNat_lt
  omega

/-- The frame in an entry that memory holds. -/
theorem frame_lt (he : EntriesIn entryOf m f e) (hi : i < 1024) : (e i).frame < 2 ^ 20 := by
  rw [← he i hi]
  have hlt := read32_lt m (f * 4096 + 4 * i)
  change read32 m (f * 4096 + 4 * i) / 4096 < 2 ^ 20
  omega

theorem entriesIn_update {e' : Pte} (he : EntriesIn entryOf m f e) (hw : w < 2 ^ 32) (hentry : entryOf w = e') :
    EntriesIn entryOf (write32 m (f * 4096 + 4 * i) w) f (Function.update e i e') := by
  refine he.write hw fun j hj => ?_
  rw [hentry]
  by_cases hij : j = i
  · rw [if_pos hij, hij, Function.update_self]
  · rw [if_neg hij, Function.update_of_ne hij]

namespace Simulates

/-- A frame is written that only the call knows. -/
theorem overwrite (h : Simulates M s made known) (hf : Reserved s made known f) (hsame : SameBut f M.memory m') :
    Simulates { M with memory := m' } s made known :=
  h.withMemory (h.describes.overwrite hsame hf.table hf.unknown)

/-- A heap page that is mapped to a frame stays there while a frame is written that only the call knows. -/
theorem staysIn_heap (h : Simulates M s made known) (hf : Reserved s made known f) (hp : IsHeapPage (v / pageSize))
    (hentry : s.getPte (v / pageSize) = .mapTo g) : M.StaysIn (v / pageSize * pageSize) f g := by
  have hstays := h.staysIn_page (changeable_heap hp).lt (changeable_heap hp).window (h.kernel_present (isKernelTable_heap hp))
    (by rw [hentry]; rfl) hf.table hf.unknown
  rwa [hentry] at hstays

/-- `clear_page` on a lent page. -/
theorem clearLent (h : Simulates M s made known) (hf : Reserved s made known f) (hp : IsHeapPage (v / pageSize))
    (haligned : v / pageSize * pageSize = v) (hentry : s.getPte (v / pageSize) = .mapTo f) :
    ∃ m', M.clearPage v = .ok { M with memory := m' } ∧ Lent { M with memory := m' } s made known v f fun _ => .zero := by
  obtain ⟨m', hrun, hsame, hzero⟩ := clearPage_returns (h.staysIn_heap hf hp hentry)
  exact ⟨m', hrun, h.overwrite hf hsame, hf, hp, haligned, hentry, hzero.entries_zero⟩

/-- `memcpy` of a page table to a lent page. -/
theorem copyLent (h : Simulates M s made known) (hf : Reserved s made known f) (hp : IsHeapPage (v / pageSize))
    (haligned : v / pageSize * pageSize = v) (hentry : s.getPte (v / pageSize) = .mapTo f) (hi : i < 1024) (hne : i ≠ 769)
    (hpresent : (s.getPde i).present) :
    ∃ m', M.memcpy v (pageTablesVirtual + i * pageSize) pageSize = .ok { M with memory := m' } ∧
    Lent { M with memory := m' } s made known v f fun j => s.getPte (i * 1024 + j) := by
  have hdst := h.staysIn_heap hf hp hentry
  rw [haligned] at hdst
  have hsrc := h.staysIn_table hi hpresent hf.table hf.unknown
  have hother : (s.getPde i).frame ≠ f := fun heq => hf.table (heq ▸ h.describes.isTable_getPde hi hne hpresent)
  obtain ⟨m', hrun, hsame, hcopy⟩ := memcpy_returns hdst hsrc hother
  exact ⟨m', hrun, h.overwrite hf hsame, hf, hp, haligned, hentry,
    (h.describes.entriesIn_table hi hne hpresent).copy hcopy⟩

/-- A given frame is mapped to a page of the heap. -/
theorem mapLent (h : Simulates M s made known) (hp : IsHeapPage (v / pageSize)) (hf : 0 < f) (hlt : f < 0x100) :
    ∃ m', s.mapPageWithFrame v f = .ok (s.setPte (v / pageSize) (.mapTo f)) ∧
    M.mapPageWithFrame v f = .ok { M with memory := m' } ∧ SameBut (kernelTable (v / pageSize / 1024)) M.memory m' ∧
    Simulates { M with memory := m' } (s.setPte (v / pageSize) (.mapTo f)) made known := by
  have htable := isKernelTable_heap hp
  have hpde : s.getPde (v / pageSize / 1024) = .mapTo (kernelTable (v / pageSize / 1024)) :=
    h.describes.kernelPde _ _ h.describes.crtDir_dirAt _ htable
  obtain ⟨m', hrun, hsame, hsim⟩ := h.mapGiven (changeable_heap hp) (h.kernel_present htable) hf (by omega) 1
  rw [hpde] at hsame
  exact ⟨m', Paging.mapPageWithFrameImpl_frame (h.kernel_present htable) 1 hf, hrun, hsame, hsim⟩

end Simulates

namespace Lent

theorem walk (h : Lent M s made known v f e) (hi : i < 1024) :
    walk M.memory M.cr3 (v + 4 * i) = some (f * 4096 + 4 * i) := by
  have hstays := h.simulates.staysIn_heap h.reserved h.heap h.entry M.memory (.refl f M.memory) (4 * i) (by omega)
  rwa [h.aligned] at hstays

theorem loadEntry (h : Lent M s made known v f e) (hi : i < 1024) : M.loadEntry (v + 4 * i) = .ok (e i) := by
  rw [loadEntry_eq (h.walk hi), h.contents i hi]

theorem store (h : Lent M s made known v f e) (hi : i < 1024) (hw : w < 2 ^ 32) :
    ∃ m', M.store (v + 4 * i) w = .ok { M with memory := m' } ∧
    Lent { M with memory := m' } s made known v f (Function.update e i (entryOf w)) :=
  ⟨_, store_eq (h.walk hi), h.simulates.overwrite h.reserved (sameBut_write32 hi), h.reserved, h.heap, h.aligned, h.entry,
    entriesIn_update h.contents hw rfl⟩

theorem storeEntry (h : Lent M s made known v f e) (hi : i < 1024) {x : Pte} (he : x.frame < 2 ^ 20) :
    ∃ m', M.storeEntry (v + 4 * i) x = .ok { M with memory := m' } ∧
    Lent { M with memory := m' } s made known v f (Function.update e i x) :=
  ⟨_, storeEntry_eq (h.walk hi), h.simulates.overwrite h.reserved (sameBut_write32 hi), h.reserved, h.heap, h.aligned,
    h.entry, entriesIn_update h.contents (assignFields_lt _ _) (entryOf_assignFields _ he)⟩

/-- Page faults of the heap do not change the frame. -/
theorem touched (h : Lent M s made known v f e) (ht : Touched M s made known P t N) : Lent N t made known v f e where
  simulates := ht.simulates
  reserved := h.reserved.kernelStep ht.step
  heap := h.heap
  aligned := h.aligned
  entry := by
    rw [ht.entries _ (by rw [h.entry]; rfl), h.entry]
  contents := h.contents.copy (ht.kept f h.reserved.lt h.reserved.used)

theorem of_eq {e' : Nat → Pte} (h : Lent M s made known v f e) (heq : ∀ i < 1024, e' i = e i) :
    Lent M s made known v f e' :=
  ⟨h.simulates, h.reserved, h.heap, h.aligned, h.entry, h.contents.of_eq heq⟩

end Lent

/-! ## The kernel entries of the new directory -/

theorem newPageDir_absent (hi : isUserTable i) : (Paging.newPageDir dir f).pde i = .zero := by
  rw [isUserTable, decide_eq_true_eq] at hi
  have hzero : i ≠ 0 := by omega
  have hself : i ≠ 769 := by omega
  have hkernel : ¬(768 ≤ i ∧ i < 1024) := by omega
  simp only [Paging.newPageDir, if_neg hzero, if_neg hself, if_neg hkernel]

theorem newPageDir_kernel (hi : IsKernelTable i) : (Paging.newPageDir dir f).pde i = dir.pde i := by
  obtain ⟨hlt, hself, huser⟩ := hi
  rw [isUserTable, decide_eq_true_eq] at huser
  simp only [Paging.newPageDir, if_neg hself]
  split_ifs with hzero hkernel
  · rw [hzero]
  · rfl
  · omega

namespace Lent

/-- One turn of the loop that shares the kernel entries. -/
theorem sharePde (h : Lent M s made known v f e) (hi : i < 1024) (hlow : 768 ≤ i) :
    ∃ m', M.sharePde v f i = .ok { M with memory := m' } ∧
    Lent { M with memory := m' } s made known v f (Function.update e i ((Paging.newPageDir s.crtDir f).pde i)) := by
  have hlt := h.reserved.lt
  rw [PhysicalPaging.sharePde]
  by_cases hself : i = 769
  · obtain ⟨m', hrun, hnext⟩ := h.storeEntry hi (x := .mapTo f) (by change f < 2 ^ 20; omega)
    rw [if_pos hself]
    refine ⟨m', hrun, ?_⟩
    rw [hself] at hnext ⊢
    exact hnext
  · have hkernel : IsKernelTable i := by
      refine ⟨hi, hself, ?_⟩
      rw [isUserTable, decide_eq_true_eq]
      omega
    rw [if_neg hself, load_eq (h.simulates.walk_pdeAt hi)]
    obtain ⟨m', hrun, hnext⟩ := h.store hi (read32_lt M.memory (s.crtDir.frame * 4096 + 4 * i))
    refine ⟨m', hrun, ?_⟩
    rw [newPageDir_kernel hkernel, ← Paging.getPde, ← h.simulates.describes.pde_word hi]
    exact hnext

/-- The new directory is filled with the entries that all directories share. -/
theorem sharePdes (h : Lent M s made known v f fun _ => .zero) : Returns (do
      let first ← M.load (pdeAt 0)
      let M ← M.store v first
      forRange 768 1024 M (PhysicalPaging.sharePde v f)) fun N =>
      N = { M with memory := N.memory } ∧ Lent N s made known v f (Paging.newPageDir s.crtDir f).pde := by
  have hzero : IsKernelTable 0 := ⟨by decide, by decide, by decide⟩
  rw [load_eq (h.simulates.walk_pdeAt (by decide))]
  obtain ⟨m', hrun, hfirst⟩ := h.store (i := 0) (by decide) (read32_lt M.memory (s.crtDir.frame * 4096 + 4 * 0))
  have hword := h.simulates.describes.pde_word (i := 0) (by decide)
  rw [hword, Paging.getPde, ← newPageDir_kernel (f := f) hzero] at hfirst
  change Returns (M.store (v + 4 * 0) (read32 M.memory (s.crtDir.frame * 4096 + 4 * 0)) >>= fun M =>
    forRange 768 1024 M (PhysicalPaging.sharePde v f)) _
  rw [hrun]
  have hloop : Returns (forRange 768 1024 { M with memory := m' } (PhysicalPaging.sharePde v f)) fun N =>
      N = { M with memory := N.memory } ∧ Lent N s made known v f fun j =>
        if j = 0 ∨ j ∈ List.range' 768 256 then (Paging.newPageDir s.crtDir f).pde j else .zero := by
    refine returns_foldlM (l := List.range' 768 256) (I := fun done (N : PhysicalPaging) => N = { M with memory := N.memory } ∧
      Lent N s made known v f fun j => if j = 0 ∨ j ∈ done then (Paging.newPageDir s.crtDir f).pde j else .zero) ?_ ?_
    · refine ⟨rfl, hfirst.of_eq fun j hj => ?_⟩
      by_cases hj' : j = 0
      · rw [hj', Function.update_self]
        exact if_pos (.inl rfl)
      · rw [Function.update_of_ne hj']
        exact if_neg fun hor => hor.elim hj' List.not_mem_nil
    · rintro done i rest N hsplit ⟨hN, hlent⟩
      have hi : i ∈ List.range' 768 256 := by
        rw [hsplit]
        exact List.mem_append_right done List.mem_cons_self
      have hrange := List.mem_range'_1.mp hi
      obtain ⟨m'', hturn, hnext⟩ := hlent.sharePde (i := i) (by omega) (by omega)
      refine ⟨_, hturn, ?_, hnext.of_eq fun j hj => ?_⟩
      · rw [hN]
      · simp only [List.mem_append, List.mem_singleton]
        by_cases hj' : j = i
        · rw [hj', Function.update_self]
          exact if_pos (.inr (.inr rfl))
        · rw [Function.update_of_ne hj']
          simp only [hj', or_false]
  refine hloop.mono fun N hN => ⟨hN.1, hN.2.of_eq fun j hj => ?_⟩
  split_ifs with hin
  · rfl
  · refine newPageDir_absent ?_
    rw [List.mem_range'_1] at hin
    rw [isUserTable, decide_eq_true_eq]
    omega

end Lent

/-- The new directory counts as a directory as soon as it holds the entries that all directories share. -/
theorem Lent.make (h : Lent M s none known v f (Paging.newPageDir s.crtDir f).pde) :
    Simulates M s (some (Paging.newPageDir s.crtDir f)) known := by
  have hd := h.simulates.describes
  have hdirAt : ∀ d dir, dirAt s (some (Paging.newPageDir s.crtDir f)) d = some dir →
      dirAt s none d = some dir ∨ d = s.dirsNum ∧ dir = Paging.newPageDir s.crtDir f := by
    intro d dir hdir
    rw [dirAt] at hdir ⊢
    split_ifs at hdir ⊢ with hlt heq
    · exact .inl hdir
    · exact .inr ⟨heq, (Option.some.inj hdir).symm⟩
  have htable : ∀ x g, tableFrame s (some (Paging.newPageDir s.crtDir f)) x = some g →
      tableFrame s none x = some g ∨ x = (s.dirsNum, 769) ∧ g = f := by
    intro x g hx
    rw [tableFrame] at hx
    obtain ⟨dir, hdir, hx⟩ := Option.bind_eq_some_iff.mp hx
    rcases hdirAt _ dir hdir with hold | ⟨heq, rfl⟩
    · left
      rw [tableFrame, hold]
      exact hx
    · right
      split_ifs at hx with hself huser
      · exact ⟨Prod.ext heq hself, (Option.some.inj hx).symm⟩
      · rw [newPageDir_absent huser.1] at huser
        exact absurd huser.2 (by decide)
  have hnot : ∀ x, tableFrame s none x ≠ some f := fun x hx => h.reserved.table (.inl ⟨x, hx⟩)
  refine ⟨⟨hd.crt_lt, fun g c hc => ?_, fun d dir hdir => ?_, fun d dir hdir i hi => ?_, fun x g hx => ?_,
    fun x y g hx hy => ?_, fun g hg => ?_⟩, h.simulates.phyFramesMap, h.simulates.size, h.simulates.ready, h.simulates.counts,
    h.simulates.dirsNum, h.simulates.crt, h.simulates.dirs, h.simulates.released⟩
  · cases hc with
    | directory d dir hdir =>
      rcases hdirAt d dir hdir with hold | ⟨-, rfl⟩
      · exact hd.tables _ _ (.directory d dir hold)
      · exact h.contents
    | user d dir i hdir hi hpresent =>
      rcases hdirAt d dir hdir with hold | ⟨-, rfl⟩
      · exact hd.tables _ _ (.user d dir i hold hi hpresent)
      · rw [newPageDir_absent hi] at hpresent
        exact absurd hpresent (by decide)
    | kernel i hi => exact hd.tables _ _ (.kernel i hi)
  · rcases hdirAt d dir hdir with hold | ⟨-, rfl⟩
    · exact hd.own d dir hold
    · rfl
  · rcases hdirAt d dir hdir with hold | ⟨-, rfl⟩
    · exact hd.kernelPde d dir hold i hi
    · rw [newPageDir_kernel hi]
      exact hd.kernelPde _ _ hd.crtDir_dirAt i hi
  · rcases htable x g hx with hold | ⟨-, rfl⟩
    · exact hd.frames x g hold
    · exact .inl ⟨h.reserved.used, h.reserved.lt⟩
  · rcases htable x g hx with hold | ⟨rfl, rfl⟩
    · rcases htable y g hy with hold' | ⟨-, rfl⟩
      · exact hd.apart x y g hold hold'
      · exact absurd hold (hnot x)
    · rcases htable y g hy with hold' | ⟨rfl, -⟩
      · exact absurd hold' (hnot y)
      · rfl
  · obtain ⟨hused, hlt, hother, hbytes⟩ := hd.pages g hg
    refine ⟨hused, hlt, ?_, hbytes⟩
    rintro (⟨x, hx⟩ | hkernel)
    · rcases htable x g hx with hold | ⟨-, rfl⟩
      · exact hother (.inl ⟨x, hold⟩)
      · exact h.reserved.unknown hg
    · exact hother (.inr hkernel)

end LuckOS.PhysicalPaging
