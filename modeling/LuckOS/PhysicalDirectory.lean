import LuckOS.PhysicalAccess
import LuckOS.PagingRelease

/-!
# New and dropped page tables in physical memory

The code that allocates a page table writes the entry of the directory and clears the new table
through the window. The code that gives a table back clears the entry. In between, and in
`clone_crt_page_dir`, frames are taken and counts of shared frames are changed.
-/

namespace LuckOS.PhysicalPaging

open ByteMemory PageWalk BootLoader FrameContents Outcome
open Paging (Pte PageDir isUserPage isUserTable)

variable {M : PhysicalPaging} {m m' : Memory} {s t : Paging} {made : Option PageDir} {known : Nat → Prop}
  {dir : PageDir} {e : Pte} {d f g i j p w : Nat} {x : Nat × Nat}

/-! ## One directory -/

theorem dirAt_setCrtDir (hcrt : s.crt < s.dirsNum) :
    dirAt (s.setCrtDir dir) made d = if d = s.crt then some dir else dirAt s made d := by
  have hnum : (s.setCrtDir dir).dirsNum = s.dirsNum := rfl
  rw [dirAt, dirAt, hnum]
  by_cases hd : d = s.crt
  · rw [if_pos hd, hd, if_pos hcrt, Paging.setCrtDir_dirs, if_pos rfl]
  · rw [if_neg hd, Paging.setCrtDir_dirs, if_neg hd]

/-- The state has another directory `d`, which differs in the entry and the page table `i`. -/
structure OtherDir (s : Paging) (made : Option PageDir) (d i : Nat) (old dir : PageDir) (t : Paging)
    (made' : Option PageDir) : Prop where
  before : dirAt s made d = some old
  after : ∀ x, dirAt t made' x = if x = d then some dir else dirAt s made x
  user : isUserTable i
  frame : dir.frame = old.frame
  pde : ∀ j, j ≠ i → dir.pde j = old.pde j
  pte : ∀ q, q / 1024 ≠ i → dir.pte q = old.pte q
  crt : t.crt = s.crt
  dirsNum : t.dirsNum = s.dirsNum
  kernelPte : t.kernelPte = s.kernelPte
  phyFramesMap : t.phyFramesMap = s.phyFramesMap
  bytes : t.bytes = s.bytes

section OtherDir

variable {old : PageDir} {made' : Option PageDir}

theorem otherDir_setCrtDir (hcrt : s.crt < s.dirsNum) (hi : isUserTable i) (hframe : dir.frame = s.crtDir.frame)
    (hpde : ∀ j, j ≠ i → dir.pde j = s.crtDir.pde j) (hpte : ∀ q, q / 1024 ≠ i → dir.pte q = s.crtDir.pte q) :
    OtherDir s made s.crt i s.crtDir dir (s.setCrtDir dir) made :=
  ⟨dirAt_crt hcrt, fun _ => dirAt_setCrtDir hcrt, hi, hframe, hpde, hpte, rfl, rfl, rfl, rfl, rfl⟩

/-- The directory that is being made changes. -/
theorem otherDir_made (hi : isUserTable i) (hframe : dir.frame = old.frame) (hpde : ∀ j, j ≠ i → dir.pde j = old.pde j)
    (hpte : ∀ q, q / 1024 ≠ i → dir.pte q = old.pte q) : OtherDir s (some old) s.dirsNum i old dir s (some dir) := by
  refine ⟨?_, fun x => ?_, hi, hframe, hpde, hpte, rfl, rfl, rfl, rfl, rfl⟩
  · rw [dirAt, if_neg (lt_irrefl _), if_pos rfl]
  · rw [dirAt, dirAt]
    by_cases hlt : x < s.dirsNum
    · rw [if_pos hlt, if_pos hlt, if_neg (Nat.ne_of_lt hlt)]
    · rw [if_neg hlt, if_neg hlt]
      split_ifs <;> rfl

theorem OtherDir.tableFrame (h : OtherDir s made d i old dir t made') : tableFrame t made' x = if x = (d, i) then
    (if (dir.pde i).present then some (dir.pde i).frame else none) else tableFrame s made x := by
  obtain ⟨c, j⟩ := x
  rw [PhysicalPaging.tableFrame, PhysicalPaging.tableFrame, h.after]
  dsimp only
  by_cases hc : c = d
  · subst hc
    rw [if_pos rfl, h.before, Option.bind_some, Option.bind_some]
    by_cases hj : j = i
    · subst hj
      simp only [(isUserTable_ne h.user).1, h.user, if_true, if_false, true_and]
    · rw [if_neg fun heq => hj (congrArg Prod.snd heq), h.frame, h.pde j hj]
  · rw [if_neg hc, if_neg fun heq => hc (congrArg Prod.fst heq)]

/-- One directory gets another entry for the user page table `i`. The other tables stay as they are, and the new table,
if there is one, lies in a frame of its own. -/
theorem Describes.setDir (h : Describes m s made known) (ho : OtherDir s made d i old dir t made')
    (hdir : EntriesIn entryOf m' old.frame dir.pde)
    (hkeep : ∀ g c, (∀ y, tableFrame s made y = some g → y ≠ (d, 769)) → TableContent s made g c →
      EntriesIn entryOf m' g c)
    (hf : (dir.pde i).present → (dir.pde i).frame = f)
    (hnew : (dir.pde i).present → s.phyFramesMap.testBit f = true ∧ f < 0x100 ∧ ¬ IsTable s made f ∧ ¬ known f ∧
      EntriesIn entryOf m' f fun j => dir.pte (i * 1024 + j))
    (hpages : ∀ f, known f → BytesIn m' f (s.bytes f)) : Describes m' t made' known := by
  have hi := ho.user
  have hcases : ∀ c dir', dirAt t made' c = some dir' → c = d ∧ dir' = dir ∨ c ≠ d ∧ dirAt s made c = some dir' := by
    intro c dir' hc
    rw [ho.after] at hc
    by_cases heq : c = d
    · rw [if_pos heq] at hc
      exact .inl ⟨heq, (Option.some.inj hc).symm⟩
    · rw [if_neg heq] at hc
      exact .inr ⟨heq, hc⟩
  have htable : ∀ x, tableFrame t made' x = if x = (d, i) then
      (if (dir.pde i).present then some (dir.pde i).frame else none) else tableFrame s made x := fun x => ho.tableFrame
  have hother : ∀ g c, (∃ y, y ≠ (d, 769) ∧ tableFrame s made y = some g) → TableContent s made g c →
      EntriesIn entryOf m' g c := by
    rintro g c ⟨y, hne, hy⟩ hc
    exact hkeep g c (fun z hz heq => hne (heq ▸ h.apart y z g hy hz)) hc
  refine ⟨?_, fun g c hc => ?_, fun c dir' hc => ?_, fun c dir' hc j hj => ?_, fun y g hy => ?_, fun y z g hy hz => ?_,
    fun g hg => ?_⟩
  · rw [ho.crt, ho.dirsNum]
    exact h.crt_lt
  · cases hc with
    | directory c dir' hc =>
      rcases hcases c dir' hc with ⟨-, rfl⟩ | ⟨hne, hold⟩
      · rw [ho.frame]
        exact hdir
      · exact hother _ _ ⟨(c, 769), fun heq => hne (congrArg Prod.fst heq), tableFrame_dir hold⟩ (.directory c dir' hold)
    | user c dir' j hc hj hpresent =>
      rcases hcases c dir' hc with ⟨rfl, rfl⟩ | ⟨hne, hold⟩
      · by_cases heq : j = i
        · subst heq
          rw [hf hpresent]
          exact (hnew hpresent).2.2.2.2
        · rw [ho.pde j heq] at hpresent ⊢
          have hcontent := TableContent.user c old j ho.before hj hpresent
          refine (hother _ _ ⟨(c, j), fun hkey => (isUserTable_ne hj).1 (congrArg Prod.snd hkey),
            tableFrame_user ho.before hj hpresent⟩ hcontent).of_eq fun k hk => ho.pte _ ?_
          omega
      · exact hother _ _ ⟨(c, j), fun heq => hne (congrArg Prod.fst heq), tableFrame_user hold hj hpresent⟩
          (.user c dir' j hold hj hpresent)
    | kernel j hj =>
      rw [ho.kernelPte]
      exact hkeep _ _ (fun y hy _ => h.tableFrame_ne_kernel hy hj rfl) (.kernel j hj)
  · rcases hcases c dir' hc with ⟨-, rfl⟩ | ⟨-, hold⟩
    · rw [ho.pde 769 (isUserTable_ne hi).1.symm, ho.frame]
      exact h.own _ _ ho.before
    · exact h.own c dir' hold
  · rcases hcases c dir' hc with ⟨-, rfl⟩ | ⟨-, hold⟩
    · have hne : j ≠ i := fun heq => hj.2.2 (heq ▸ hi)
      rw [ho.pde j hne]
      exact h.kernelPde _ _ ho.before j hj
    · exact h.kernelPde c dir' hold j hj
  · rw [ho.phyFramesMap]
    rw [htable] at hy
    split_ifs at hy with hkey hpresent
    · rw [hf hpresent] at hy
      obtain rfl := Option.some.inj hy
      exact .inl ⟨(hnew hpresent).1, (hnew hpresent).2.1⟩
    · exact h.frames y g hy
  · rw [htable] at hy hz
    split_ifs at hy hz with hkey hpresent hkey' hkey'
    · rw [hkey, hkey']
    · rw [hf hpresent] at hy
      obtain rfl := Option.some.inj hy
      exact ((hnew hpresent).2.2.1 (.inl ⟨z, hz⟩)).elim
    · rw [hf (by assumption)] at hz
      obtain rfl := Option.some.inj hz
      exact ((hnew (by assumption)).2.2.1 (.inl ⟨y, hy⟩)).elim
    · exact h.apart y z g hy hz
  · obtain ⟨hused, hlt, hnot, -⟩ := h.pages g hg
    rw [ho.phyFramesMap, ho.bytes]
    refine ⟨hused, hlt, ?_, hpages g hg⟩
    rintro (⟨y, hy⟩ | hkernel)
    · rw [htable] at hy
      split_ifs at hy with hkey hpresent
      · rw [hf hpresent] at hy
        obtain rfl := Option.some.inj hy
        exact (hnew hpresent).2.2.2.1 hg
      · exact hnot (.inl ⟨y, hy⟩)
    · exact hnot (.inr hkernel)

end OtherDir

/-! ## Frames and counts -/

namespace Simulates

/-- A table of the kernel is present. -/
theorem kernel_present (h : Simulates M s made known) (hi : IsKernelTable i) : (s.getPde i).present := by
  have hpde : s.getPde i = .mapTo (kernelTable i) := h.describes.kernelPde _ _ h.describes.crtDir_dirAt i hi
  rw [hpde]
  rfl

theorem own_present (h : Simulates M s made known) : (s.getPde 769).present := by
  have hpde : s.getPde 769 = .mapTo s.crtDir.frame := h.describes.own _ _ h.describes.crtDir_dirAt
  rw [hpde]
  rfl

/-- The entry of a directory in the window. -/
theorem walk_pdeAt (h : Simulates M s made known) (hi : i < 1024) :
    walk M.memory M.cr3 (pdeAt i) = some (s.crtDir.frame * 4096 + 4 * i) := by
  have haddr : pdeAt i = pteAt (769 * 1024 + i) := by
    simp only [pdeAt, pteAt, pageDirVirtual, pageTablesVirtual]
    omega
  have hindex : (769 * 1024 + i) / 1024 = 769 := by omega
  have hoffset : (769 * 1024 + i) % 1024 = i := by omega
  have hpde : s.getPde 769 = .mapTo s.crtDir.frame := h.describes.own _ _ h.describes.crtDir_dirAt
  have hwalk := h.walk_pteAt (p := 769 * 1024 + i) (by omega) (by rw [hindex]; exact h.own_present)
  rw [hindex, hoffset, hpde] at hwalk
  rw [haddr, hwalk]
  rfl

/-- The fields of an entry of the directory are assigned. -/
theorem storeEntry_pde (h : Simulates M s made known) (hi : i < 1024) (e : Pte) : M.storeEntry (pdeAt i) e = .ok { M with
    memory := write32 M.memory (s.crtDir.frame * 4096 + 4 * i)
      (assignFields (read32 M.memory (s.crtDir.frame * 4096 + 4 * i)) e) } :=
  storeEntry_eq (h.walk_pdeAt hi)

/-- What a frame that was taken is. -/
structure Taken (s : Paging) (made : Option PageDir) (known : Nat → Prop) (f : Nat) : Prop where
  lt : f < 0x100
  free : s.phyFramesMap.testBit f = false
  test : ∀ g, (s.phyFramesMap.setBit f).testBit g = (decide (g = f) || s.phyFramesMap.testBit g)
  left : (s.phyFramesMap.setBit f).freeBelow 0x100 + 1 = s.phyFramesMap.freeBelow 0x100
  table : ¬ IsTable s made f
  unknown : ¬ known f

theorem setMap (h : Simulates M s made known) {b : Bitmap} (hsize : b.sizes = (256, 256))
    (hused : ∀ g, s.phyFramesMap.testBit g = true → b.testBit g = true) :
    Simulates { M with phyFramesMap := b } { s with phyFramesMap := b } made known :=
  ⟨h.describes.congr rfl rfl rfl rfl (fun g _ => hused g) fun g hg => ⟨hg, hused g (h.describes.pages g hg).1, rfl⟩,
    rfl, hsize, h.ready, h.counts, h.dirsNum, h.crt, h.dirs, h.released⟩

/-- `allocate_phy_frame` while frames below the tables of the kernel are free. -/
theorem allocate (h : Simulates M s made known) (hfree : 0 < s.phyFramesMap.freeBelow 0x100) (reason : Paging.Panic) :
    ∃ f, Taken s made known f ∧ s.allocatePhyFrame = some (f, { s with phyFramesMap := s.phyFramesMap.setBit f }) ∧
    M.allocatePhyFrame reason = .ok (f, { M with phyFramesMap := s.phyFramesMap.setBit f }) ∧
    Simulates { M with phyFramesMap := s.phyFramesMap.setBit f } { s with phyFramesMap := s.phyFramesMap.setBit f }
      made known := by
  have harray : s.phyFramesMap.arraySize = 256 := congrArg Prod.fst h.size
  obtain ⟨f, hlt, hbit, ha, htest, hleft⟩ := Bitmap.allocateFirstFree_below (n := 0x100) (by omega) hfree
  obtain ⟨htable, hunknown⟩ := h.describes.fresh hlt hbit
  refine ⟨f, ⟨hlt, hbit, htest, hleft, htable, hunknown⟩, ?_, ?_, h.setMap ((Bitmap.sizes_setBit _ _).trans h.size)
    fun g hg => ?_⟩
  · rw [Paging.allocatePhyFrame, ha]
    rfl
  · rw [allocatePhyFrame, h.phyFramesMap, ha]
  · rw [htest, hg, Bool.or_true]

/-- The frame is in use and still holds no table and no page. -/
theorem Taken.used (h : Taken s made known f) : (s.phyFramesMap.setBit f).testBit f = true := by
  rw [h.test, decide_eq_true rfl, Bool.true_or]

theorem isTable_setMap {b : Bitmap} : IsTable { s with phyFramesMap := b } made f ↔ IsTable s made f := Iff.rfl

/-- `change_cow_frame_refcount`. -/
theorem changeCowFrameRefcount (h : Simulates M s made known) (f : Nat) (delta : Int) :
    (M.changeCowFrameRefcount f delta).1 = (s.changeCowFrameRefcount f delta).1 ∧
    Simulates (M.changeCowFrameRefcount f delta).2 (s.changeCowFrameRefcount f delta).2 made known ∧
    (M.changeCowFrameRefcount f delta).2.memory = M.memory ∧
    (M.changeCowFrameRefcount f delta).2.pageFaults = M.pageFaults ∧
    (s.changeCowFrameRefcount f delta).2.phyFramesMap = s.phyFramesMap := by
  cases hs : s.copyOnWriteReady with
  | false =>
    have hM : M.copyOnWriteReady = false := h.ready.trans hs
    simp only [PhysicalPaging.changeCowFrameRefcount, Paging.changeCowFrameRefcount, hM, hs, Bool.not_false, if_true]
    exact ⟨trivial, h, trivial, trivial, trivial⟩
  | true =>
    have hM : M.copyOnWriteReady = true := h.ready.trans hs
    simp only [PhysicalPaging.changeCowFrameRefcount, Paging.changeCowFrameRefcount, hM, hs, Bool.not_true,
      Bool.false_eq_true, if_false, h.counts]
    refine ⟨trivial, ⟨?_, h.phyFramesMap, h.size, rfl, rfl, h.dirsNum, h.crt, h.dirs, h.released⟩, trivial, trivial, trivial⟩
    exact h.describes.congr rfl rfl rfl rfl (fun _ _ hused => hused) fun g hg => ⟨hg, (h.describes.pages g hg).1, rfl⟩

/-! ## New page tables -/

/-- What the first part of `map_page_with_frame_impl` has done for the page table `i`. -/
structure Ensured (M : PhysicalPaging) (s : Paging) (made : Option PageDir) (known : Nat → Prop) (i : Nat) (t : Paging)
    (N : PhysicalPaging) : Prop where
  simulates : Simulates N t made known
  present : (t.getPde i).present
  pte : ∀ q, q / 1024 = i → t.getPte q = if (s.getPde i).present then s.getPte q else .zero
  counts : t.frameCowRefCounts = s.frameCowRefCounts
  ready : t.copyOnWriteReady = s.copyOnWriteReady
  free : t.phyFramesMap.freeBelow 0x100 + (if (s.getPde i).present then 0 else 1) = s.phyFramesMap.freeBelow 0x100
  used : ∀ f, s.phyFramesMap.testBit f = true → t.phyFramesMap.testBit f = true
  pageFaults : N.pageFaults = M.pageFaults

theorem ensured_present (h : Simulates M s made known) (hi : i < 1024) (hpresent : (s.getPde i).present) :
    Together (s.ensurePageTable i) (M.ensurePageTable i) (Ensured M s made known i) := by
  rw [Paging.ensurePageTable_present hpresent, ensurePageTable, h.loadEntry_pde hi]
  simp only [bind, Except.bind, hpresent, Bool.not_true, Bool.false_eq_true, if_false]
  exact together_ok ⟨h, hpresent, fun q _ => (if_pos hpresent).symm, rfl, rfl, by rw [if_pos hpresent, Nat.add_zero],
    fun _ hf => hf, rfl⟩

/-- The memory behind the allocation of a page table: the entry of the directory is written, and the table is zero. -/
theorem describes_withTable (h : Simulates M s made known) (hi : isUserTable i) (hf : Taken s made known f)
    (hw : w < 2 ^ 32) (hentry : entryOf w = .mapTo f)
    (hsame : SameBut f (write32 M.memory (s.crtDir.frame * 4096 + 4 * i) w) m') (hzero : BytesIn m' f fun _ => 0) :
    Describes m' (({ s with phyFramesMap := s.phyFramesMap.setBit f } : Paging).withTable i f) made known := by
  have hi' := (isUserTable_ne hi).2
  have hcrtTable : tableFrame s made (s.crt, 769) = some s.crtDir.frame := tableFrame_dir h.describes.crtDir_dirAt
  have hne : s.crtDir.frame ≠ f := fun heq => hf.table (.inl ⟨_, heq ▸ hcrtTable⟩)
  have hused : ∀ g, s.phyFramesMap.testBit g = true → (s.phyFramesMap.setBit f).testBit g = true := fun g hg => by
    rw [hf.test, hg, Bool.or_true]
  have hd := (h.setMap ((Bitmap.sizes_setBit _ _).trans h.size) hused).describes
  have hstore : SameBut s.crtDir.frame M.memory (write32 M.memory (s.crtDir.frame * 4096 + 4 * i) w) := sameBut_write32 hi'
  have hzeroEntries : EntriesIn entryOf m' f fun _ => .zero := hzero.entries_zero
  rw [Paging.withTable_eq hi]
  have hframe : (Function.update s.crtDir.pde i (Pte.mapTo f) i).frame = f := by
    rw [Function.update_self]
    rfl
  refine hd.setDir (otherDir_setCrtDir h.describes.crt_lt hi rfl (fun j hj => Function.update_of_ne hj _ _)
    fun q hq => if_neg hq) ?_ (fun g c hg hc => ?_) (fun _ => hframe)
    (fun _ => ⟨hf.used, hf.lt, hf.table, hf.unknown, hzeroEntries.of_eq fun j hj => ?_⟩) fun g hg => ?_
  · have hold := h.describes.tables _ _ (.directory s.crt s.crtDir h.describes.crtDir_dirAt)
    refine EntriesIn.congr (hold.write hw fun j hj => ?_) hsame hne
    rw [hentry]
    by_cases hj' : j = i
    · rw [if_pos hj', hj']
      exact Function.update_self ..
    · rw [if_neg hj']
      exact Function.update_of_ne hj' ..
  · have hcontent : TableContent s made g c := by
      cases hc with
      | directory d dir hd => exact .directory d dir hd
      | user d dir j hd hj hpresent => exact .user d dir j hd hj hpresent
      | kernel j hj => exact .kernel j hj
    have hdirectory : g ≠ s.crtDir.frame := fun heq => hg _ (heq ▸ hcrtTable) rfl
    exact ((h.describes.tables g c hcontent).congr hstore hdirectory).congr hsame
      fun heq => hf.table (heq ▸ hcontent.isTable)
  · exact if_pos (by omega)
  · obtain ⟨-, -, hnot, hbytes⟩ := h.describes.pages g hg
    have hdirectory : g ≠ s.crtDir.frame := fun heq => hnot (.inl ⟨_, heq ▸ hcrtTable⟩)
    exact (hbytes.congr hstore hdirectory).congr hsame fun heq => hf.unknown (heq ▸ hg)

/-- The first part of `map_page_with_frame_impl`. -/
theorem ensurePageTable (h : Simulates M s made known) (hi : isUserTable i)
    (hfree : (if (s.getPde i).present then 0 else 1) ≤ s.phyFramesMap.freeBelow 0x100) :
    Together (s.ensurePageTable i) (M.ensurePageTable i) (Ensured M s made known i) := by
  have hi' := (isUserTable_ne hi).2
  by_cases hpresent : (s.getPde i).present
  · exact h.ensured_present hi' hpresent
  · have habsent : (s.getPde i).present = false := Bool.eq_false_iff.mpr hpresent
    rw [if_neg hpresent] at hfree
    obtain ⟨f, hf, hs, hM, htaken⟩ := h.allocate hfree (.noFrameForPageTable i)
    have hstore : ({ M with phyFramesMap := s.phyFramesMap.setBit f } : PhysicalPaging).storeEntry (pdeAt i) (.mapTo f) =
        .ok { M with
          phyFramesMap := s.phyFramesMap.setBit f
          memory := write32 M.memory (s.crtDir.frame * 4096 + 4 * i)
            (assignFields (read32 M.memory (s.crtDir.frame * 4096 + 4 * i)) (.mapTo f)) } := htaken.storeEntry_pde hi' _
    generalize read32 M.memory (s.crtDir.frame * 4096 + 4 * i) = old at hstore
    have hw := assignFields_lt old (.mapTo f)
    have hentry : entryOf (assignFields old (.mapTo f)) = .mapTo f :=
      entryOf_assignFields old (by have := hf.lt; change f < 2 ^ 20; omega)
    have hcr3 : M.cr3 = s.crtDir.frame * 4096 := h.cr3
    have hne : s.crtDir.frame ≠ f :=
      fun heq => hf.table (.inl ⟨_, heq ▸ tableFrame_dir h.describes.crtDir_dirAt⟩)
    obtain ⟨hentry', hframe⟩ := entryOf_mapTo_iff hentry
    -- The window shows the new table as soon as the directory names it.
    have hstays : StaysIn { M with
        phyFramesMap := s.phyFramesMap.setBit f
        memory := write32 M.memory (s.crtDir.frame * 4096 + 4 * i) (assignFields old (.mapTo f)) }
        ((pageTablesVirtual + i * pageSize) / pageSize * pageSize) f f := by
      have haddr : (pageTablesVirtual + i * pageSize) / pageSize * pageSize = pageTablesVirtual + i * pageSize := by
        have haligned : pageTablesVirtual + i * pageSize = (0xC0400 + i) * 4096 := by
          simp only [pageTablesVirtual, pageSize]
          omega
        rw [haligned]
        exact congrArg (· * 4096) (Nat.mul_div_cancel _ (by decide))
      intro m' hsame o ho
      have hword : ∀ j < 1024, read32 m' (s.crtDir.frame * 4096 + 4 * j) =
          if j = i then assignFields old (.mapTo f) else read32 M.memory (s.crtDir.frame * 4096 + 4 * j) := by
        intro j hj
        rw [hsame.read32 hne hj]
        split_ifs with hij
        · rw [hij]
          exact read32_write32 hw
        · exact read32_write32_of_ne (by omega)
      have hshows := h.describes.showsTables
      have hshows' : ShowsTables m' (s.crtDir.frame * 4096) := by
        constructor
        · rw [hword 769 (by decide), if_neg (isUserTable_ne hi).1.symm]
          exact hshows.present
        · rw [hword 769 (by decide), if_neg (isUserTable_ne hi).1.symm]
          exact hshows.self
      change walk m' M.cr3 _ = _
      rw [haddr, hcr3, walk_window hshows' hi' (by rw [hword i hi', if_pos rfl]; exact hentry') ho, hword i hi', if_pos rfl,
        hframe]
    obtain ⟨m', hclear, hsame, hzero⟩ := clearPage_returns hstays
    have hdescribes := h.describes_withTable hi hf hw hentry hsame hzero
    have hpde : (({ s with phyFramesMap := s.phyFramesMap.setBit f } : Paging).withTable i f).getPde i = .mapTo f := by
      rw [Paging.withTable_eq hi, Paging.getPde, Paging.setCrtDir_crtDir]
      exact Function.update_self ..
    have hrun : s.ensurePageTable i = .ok (({ s with phyFramesMap := s.phyFramesMap.setBit f } : Paging).withTable i f) := by
      rw [Paging.ensurePageTable, hs, habsent]
      rfl
    have hrun' : M.ensurePageTable i = .ok { M with
        phyFramesMap := s.phyFramesMap.setBit f
        memory := m' } := by
      rw [PhysicalPaging.ensurePageTable, h.loadEntry_pde hi']
      simp only [bind, Except.bind, habsent, Bool.not_false, if_true, hM, hstore]
      exact hclear
    have hmap : (({ s with phyFramesMap := s.phyFramesMap.setBit f } : Paging).withTable i f).phyFramesMap =
        s.phyFramesMap.setBit f := by
      rw [Paging.withTable_eq hi]
      rfl
    have hsim : Simulates { M with
        phyFramesMap := s.phyFramesMap.setBit f
        memory := m' } (({ s with phyFramesMap := s.phyFramesMap.setBit f } : Paging).withTable i f) made known := by
      refine ⟨hdescribes, hmap.symm, by rw [hmap]; exact (Bitmap.sizes_setBit _ _).trans h.size, ?_, ?_, ?_, ?_,
        fun d hd => ?_, ?_⟩
      all_goals rw [Paging.withTable_eq hi]
      · exact h.ready
      · exact h.counts
      · exact h.dirsNum
      · exact h.crt
      · rw [Paging.withTable_eq hi] at hd
        rw [← Paging.withTable_eq hi, Paging.withTable_frame hi]
        exact h.dirs d hd
      · exact h.released
    refine ⟨_, hrun, _, hrun', hsim, ?_, fun q hq => ?_, ?_, ?_, ?_, fun g hg => ?_, rfl⟩
    · rw [hpde]
      rfl
    · have huser : isUserPage q := by
        rw [← Paging.isUserTable_div, hq]
        exact hi
      rw [if_neg hpresent, Paging.getPte_user huser, Paging.withTable_eq hi, Paging.setCrtDir_crtDir]
      exact if_pos hq
    · rw [Paging.withTable_eq hi]
      rfl
    · rw [Paging.withTable_eq hi]
      rfl
    · rw [hmap, if_neg hpresent]
      exact hf.left
    · rw [hmap, hf.test, hg, Bool.or_true]

end Simulates

end LuckOS.PhysicalPaging
