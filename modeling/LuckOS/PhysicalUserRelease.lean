import LuckOS.PhysicalDirectory

/-!
# The release of the user space in physical memory

`release_page` clears an entry, and it gives the frame back when no other entry maps it. A page table
is given back before its entry is cleared. No frame in use is written to but those of the tables, so that
the memory still shows the state of `Paging`.
-/

namespace LuckOS.PhysicalPaging

open ByteMemory PageWalk BootLoader FrameContents Outcome
open Paging (Pte PageDir isUserPage isUserTable)

variable {M N : PhysicalPaging} {m m' : Memory} {s t : Paging} {made : Option PageDir} {known : Nat → Prop}
  {dir : PageDir} {e : Pte} {d f g i j p w : Nat}

theorem changeable_user (hp : isUserPage p) : Changeable p := by
  rw [isUserPage, decide_eq_true_eq] at hp
  exact ⟨by omega, by omega, by omega, by omega⟩

theorem phyFramesMap_setPte : (s.setPte p e).phyFramesMap = s.phyFramesMap := by
  rw [Paging.setPte]
  split_ifs <;> rfl

theorem getPde_changeCowFrameRefcount (delta : Int) : (s.changeCowFrameRefcount f delta).2.getPde = s.getPde := by
  rw [Paging.changeCowFrameRefcount]
  split_ifs <;> rfl

namespace Simulates

theorem weaken (h : Simulates M s made known) {k : Nat → Prop} (hsub : ∀ f, k f → known f) :
    Simulates M s made k :=
  ⟨h.describes.weaken hsub, h.phyFramesMap, h.size, h.ready, h.counts, h.dirsNum, h.crt, h.dirs, h.released⟩

/-- `release_phy_frame` on a frame that holds no table. -/
theorem releasePhyFrame (h : Simulates M s made known) (htable : ¬ IsTable s made f) :
    Simulates (M.releasePhyFrame f) (s.releasePhyFrame f) made fun g => known g ∧ g ≠ f := by
  have htest : ∀ g, g ≠ f → s.phyFramesMap.testBit g = true → (s.phyFramesMap.clearBit f).testBit g = true := by
    intro g hne hg
    rw [Bitmap.testBit_clearBit, decide_eq_false hne, hg]
    rfl
  refine ⟨?_, ?_, (Bitmap.sizes_clearBit _ _).trans h.size, h.ready, h.counts, h.dirsNum, h.crt, h.dirs, ?_⟩
  · refine h.describes.congr rfl rfl rfl rfl (fun g hg => htest g fun heq => htable (heq ▸ hg)) fun g hg => ?_
    exact ⟨hg.1, htest g hg.2 (h.describes.pages g hg.1).1, rfl⟩
  · exact congrArg (Bitmap.clearBit · f) h.phyFramesMap
  · exact congrArg (f :: ·) h.released

/-- `release_page` on a page that has a table. -/
theorem releasePage (h : Simulates M s made known) (hp : Changeable p) (hpresent : (s.getPde (p / 1024)).present)
    (freeFrame : Bool)
    (htable : freeFrame = true → (s.getPte p).present = true → ¬ IsTable s made (s.getPte p).frame) :
    Returns (M.releasePage (p * pageSize) freeFrame) fun N =>
      Simulates N (s.releasePage (p * pageSize) freeFrame) made (fun g =>
        known g ∧ (s.releasePage (p * pageSize) freeFrame).phyFramesMap.testBit g = true) ∧
      N.pageFaults = M.pageFaults := by
  have hdiv : p * pageSize / 2 ^ 12 = p := Nat.mul_div_cancel p (by decide)
  have hdiv' : p * pageSize / Paging.pageSize = p := Nat.mul_div_cancel p (by decide)
  have hload := h.loadEntry_pte hp.lt hp.window hpresent
  simp only [PhysicalPaging.releasePage, Paging.releasePage, hdiv, hdiv', hload, bind, Except.bind]
  cases hpte : (s.getPte p).present with
  | false =>
    simp only [Bool.not_false, if_true]
    exact ⟨M, rfl, h.weaken fun g hg => hg.1, rfl⟩
  | true =>
    cases freeFrame with
    | false =>
      obtain ⟨m', hrun, -, hsim⟩ := h.zeroEntry_pte hp hpresent
      exact ⟨_, hrun, hsim.weaken fun g hg => hg.1, rfl⟩
    | true =>
      obtain ⟨hold, hchanged, -, hfaults, -⟩ := h.changeCowFrameRefcount (s.getPte p).frame (-1)
      have hnot := htable rfl hpte
      have hpde := getPde_changeCowFrameRefcount (s := s) (f := (s.getPte p).frame) (-1)
      simp only [Bool.not_true, Bool.false_eq_true, if_false, if_true, hold, phyFramesMap_setPte]
      have hnot' : ¬ IsTable (s.changeCowFrameRefcount (s.getPte p).frame (-1)).2 made (s.getPte p).frame := by
        rw [Paging.changeCowFrameRefcount]
        split_ifs <;> exact hnot
      split_ifs with hlast
      · have hreleased := hchanged.releasePhyFrame hnot'
        obtain ⟨m', hrun, -, hsim⟩ := hreleased.zeroEntry_pte hp (by
          change ((s.changeCowFrameRefcount (s.getPte p).frame (-1)).2.getPde (p / 1024)).present = true
          rw [hpde]
          exact hpresent)
        refine ⟨_, hrun, hsim.weaken fun g hg => ⟨hg.1, ?_⟩, hfaults⟩
        rintro rfl
        have hcleared := hg.2
        change (Bitmap.clearBit _ _).testBit _ = true at hcleared
        rw [Bitmap.testBit_clearBit, decide_eq_true rfl] at hcleared
        cases hcleared
      · obtain ⟨m', hrun, -, hsim⟩ := hchanged.zeroEntry_pte hp (by
          rw [hpde]
          exact hpresent)
        exact ⟨_, hrun, hsim.weaken fun g hg => hg.1, hfaults⟩

/-- The page table `i` is given back. -/
theorem dropTable (h : Simulates M s made known) (hi : isUserTable i) (hpresent : (s.getPde i).present) :
    Returns ((M.releasePhyFrame (s.getPde i).frame).zeroEntry (pdeAt i)) fun N =>
      Simulates N (s.dropTable i) made known := by
  have hi' := (isUserTable_ne hi).2
  have hwalk := h.walk_pdeAt hi'
  have hslot : tableFrame s made (s.crt, i) = some (s.getPde i).frame :=
    tableFrame_user h.describes.crtDir_dirAt hi hpresent
  have hcrtTable : tableFrame s made (s.crt, 769) = some s.crtDir.frame := tableFrame_dir h.describes.crtDir_dirAt
  have hstore : SameBut s.crtDir.frame M.memory (write32 M.memory (s.crtDir.frame * 4096 + 4 * i) 0) := sameBut_write32 hi'
  have hpde : (Function.update s.crtDir.pde i Pte.zero) i = .zero := Function.update_self ..
  have habsent : ¬ ((Function.update s.crtDir.pde i Pte.zero) i).present = true := by
    rw [hpde]
    exact Bool.false_ne_true
  have hother : ∀ j, j ≠ i → (Function.update s.crtDir.pde i Pte.zero) j = s.crtDir.pde j :=
    fun j hj => Function.update_of_ne hj _ _
  have hdirs : OtherDir s made s.crt i s.crtDir { s.crtDir with pde := Function.update s.crtDir.pde i .zero }
      (s.setPde i .zero) made := otherDir_setCrtDir h.describes.crt_lt hi rfl hother fun _ _ => rfl
  -- The entry is cleared while the frame still counts as used.
  have hd : Describes (write32 M.memory (s.crtDir.frame * 4096 + 4 * i) 0) (s.setPde i .zero) made known := by
    refine h.describes.setDir (f := 0) hdirs ?_ (fun g c hg hc => ?_) (fun hp => (habsent hp).elim)
      (fun hp => (habsent hp).elim) fun g hg => ?_
    · refine (h.describes.tables _ _ (.directory s.crt s.crtDir h.describes.crtDir_dirAt)).write (by decide) fun j hj => ?_
      by_cases hj' : j = i
      · rw [if_pos hj', hj']
        exact hpde
      · rw [if_neg hj']
        exact Function.update_of_ne hj' ..
    · exact (h.describes.tables g c hc).congr hstore fun heq => hg _ (heq ▸ hcrtTable) rfl
    · obtain ⟨-, -, hnot, hbytes⟩ := h.describes.pages g hg
      exact hbytes.congr hstore fun heq => hnot (.inl ⟨_, heq ▸ hcrtTable⟩)
  have htable : ¬ IsTable (s.setPde i .zero) made (s.getPde i).frame := by
    rintro (⟨x, hx⟩ | ⟨j, hj, heq⟩)
    · have hframe : tableFrame (s.setPde i .zero) made x = if x = (s.crt, i) then
          (if ((Function.update s.crtDir.pde i Pte.zero) i).present then
            some ((Function.update s.crtDir.pde i Pte.zero) i).frame else none) else tableFrame s made x :=
        hdirs.tableFrame
      rw [hframe] at hx
      split_ifs at hx with hkey
      exact hkey (h.describes.apart _ _ _ hx hslot)
    · exact h.describes.tableFrame_ne_kernel hslot hj heq.symm
  have hset : Simulates { M with memory := write32 M.memory (s.crtDir.frame * 4096 + 4 * i) 0 } (s.setPde i .zero) made known := by
    refine ⟨hd, h.phyFramesMap, h.size, h.ready, h.counts, h.dirsNum, h.crt, fun d hlt => ?_, h.released⟩
    rw [h.dirs d hlt, Paging.setPde, Paging.setCrtDir_dirs]
    split_ifs with heq
    · rw [heq]
      rfl
    · rfl
  refine ⟨_, store_eq hwalk, (hset.releasePhyFrame htable).weaken fun g hg => ⟨hg, ?_⟩⟩
  rintro rfl
  exact (h.describes.pages _ hg).2.2.1 (.inl ⟨_, hslot⟩)

end Simulates

/-! ## Between two operations -/

/-- The machine holds the tables and the user pages of a state that is well-formed. -/
structure Represents (M : PhysicalPaging) (s : Paging) : Prop where
  wf : s.Wf
  simulates : Simulates M s none s.IsMapped

theorem isMapped_used (hs : s.Wf) (hf : s.IsMapped f) : s.phyFramesMap.testBit f = true := by
  obtain ⟨k, r, hk, rfl⟩ := Paging.isMapped_iff.mp hf
  exact hs.sound.used k r hk

theorem isMapped_getPte (hs : s.Wf) (hp : isUserPage p) (hpresent : (s.getPte p).present) :
    s.IsMapped (s.getPte p).frame := by
  rw [Paging.getPte_user hp] at hpresent ⊢
  exact Paging.isMapped_iff.mpr ⟨_, _, hs.ref_eq hs.crt_lt hp hpresent, rfl⟩

namespace Represents

theorem loadEntry_pde (h : Represents M s) (hi : i < 1024) : M.loadEntry (pdeAt i) = .ok (s.getPde i) :=
  h.simulates.loadEntry_pde hi

theorem releasePage (h : Represents M s) (hp : isUserPage p) (hpresent : (s.getPde (p / 1024)).present) :
    Returns (M.releasePage (p * pageSize) true) fun N => Represents N (s.releasePage (p * pageSize) true) := by
  have hdropped := Paging.releasePage_user h.wf hp
  refine (h.simulates.releasePage (changeable_user hp) hpresent true fun _ hpte => ?_).mono fun N hN => ?_
  · exact (h.simulates.describes.pages _ (isMapped_getPte h.wf hp hpte)).2.2.1
  · exact ⟨hdropped.wf, hN.1.weaken fun g hg => ⟨hdropped.isMapped hg, isMapped_used hdropped.wf hg⟩⟩

/-- One turn of the outer loop of `release_pages`. -/
theorem releaseTable (h : Represents M s) (hi : isUserTable i) {lo hi' : Nat} (hlo : i * 1024 ≤ lo)
    (hhi : hi' ≤ i * 1024 + 1024) :
    Returns (do
      let pde ← M.loadEntry (pdeAt i)
      if !pde.present then Except.ok M
      else forRange lo hi' M fun s j => s.releasePage (j * pageSize) true) fun N =>
      Represents N (if !(s.getPde i).present then s
        else Paging.forRange lo hi' s fun s j => s.releasePage (j * Paging.pageSize) true) := by
  rw [h.loadEntry_pde (isUserTable_ne hi).2]
  simp only [bind, Except.bind]
  by_cases hpresent : (s.getPde i).present
  · rw [if_neg (by rw [hpresent]; decide), if_neg (by rw [hpresent]; decide)]
    have hloop := returns_beside (R := fun (N : PhysicalPaging) (t : Paging) => Represents N t ∧ (t.getPde i).present = true)
      (l := List.range' lo (hi' - lo)) (f := fun (M : PhysicalPaging) j => M.releasePage (j * pageSize) true)
      (g := fun (s : Paging) j => s.releasePage (j * Paging.pageSize) true) ⟨h, hpresent⟩ fun j hj N t hN => by
      have hrange := List.mem_range'_1.mp hj
      have hindex : j / 1024 = i := by omega
      have huser : isUserPage j := by
        rw [← Paging.isUserTable_div, hindex]
        exact hi
      refine (hN.1.releasePage huser (hindex ▸ hN.2)).mono fun N' hN' => ⟨hN', ?_⟩
      have hdropped := Paging.releasePage_user hN.1.wf huser
      rw [Paging.getPde, Paging.crtDir, hdropped.crt, hdropped.pde]
      exact hN.2
    exact hloop.mono fun N hN => hN.1
  · rw [if_pos (by simpa using hpresent), if_pos (by simpa using hpresent)]
    exact ⟨M, rfl, h⟩

/-- `release_pages_tables` on the tables of the user half. -/
theorem releasePagesTables (h : Represents M s) (hnone : ∀ q, s.refs (s.crt, q) = none) :
    Returns (M.releasePagesTables 1 767) fun N => Represents N (s.releasePagesTables 1 767) := by
  have hloop := returns_beside (R := fun (N : PhysicalPaging) (t : Paging) => Represents N t ∧ ∀ q, t.refs (t.crt, q) = none)
    (l := List.range' 1 (1 + 767 - 1))
    (f := fun (N : PhysicalPaging) i => do
      let pde ← N.loadEntry (pdeAt i)
      if !pde.present then Except.ok N
      else (N.releasePhyFrame pde.frame).zeroEntry (pdeAt i))
    (g := fun (t : Paging) i => if !(t.getPde i).present then t
      else (t.releasePhyFrame (t.getPde i).frame).setPde i .zero) ⟨h, hnone⟩ fun i hi N t hN => by
    have hrange := List.mem_range'_1.mp hi
    have huser : isUserTable i := by
      rw [isUserTable, decide_eq_true_eq]
      omega
    obtain ⟨hN, hrefs⟩ := hN
    rw [hN.loadEntry_pde (isUserTable_ne huser).2]
    simp only [bind, Except.bind]
    by_cases hpresent : (t.getPde i).present
    · rw [if_neg (by rw [hpresent]; decide), if_neg (by rw [hpresent]; decide)]
      have hdropped := Paging.dropTable_spec hN.wf huser hpresent hrefs
      refine (hN.simulates.dropTable huser hpresent).mono fun N' hsim => ⟨⟨hdropped.wf, hsim.weaken fun g hg => ?_⟩, ?_⟩
      · rw [Paging.isMapped_iff, ← hdropped.refs]
        exact Paging.isMapped_iff.mp hg
      · intro q
        change (t.dropTable i).refs ((t.dropTable i).crt, q) = none
        rw [hdropped.refs, hdropped.crt]
        exact hrefs q
    · rw [if_pos (by simpa using hpresent), if_pos (by simpa using hpresent)]
      exact ⟨N, rfl, hN, hrefs⟩
  exact hloop.mono fun N hN => hN.1

/-- `release_user_space_pages`. -/
theorem releaseUserSpacePages (h : Represents M s) :
    Returns M.releaseUserSpacePages fun N => Represents N s.releaseUserSpacePages := by
  have hpages : Returns (M.releasePages (4 * 1024 * 1024) (767 * 1024) true) fun N =>
      Represents N (s.releasePages (4 * 1024 * 1024) (767 * 1024) true) := by
    have hlo : 4 * 1024 * 1024 / pageSize / 1024 = 1 := rfl
    have hnum : Paging.u32 (Paging.u32 (4 * 1024 * 1024 / pageSize + 767 * 1024) + (2 ^ 32 - 1)) / 1024 + 1 - 1 = 767 := rfl
    rw [PhysicalPaging.releasePages, Paging.releasePages, forRange, Paging.forRange]
    simp only [hlo, hnum]
    refine returns_beside (R := Represents) h fun i hi N t hN => ?_
    have hrange := List.mem_range'_1.mp hi
    have huser : isUserTable i := by
      rw [isUserTable, decide_eq_true_eq]
      omega
    exact hN.releaseTable huser (le_max_right _ _) (min_le_right _ _)
  refine hpages.bind fun N hN => hN.releasePagesTables fun q => ?_
  have hdropped := Paging.releasePages_user h.wf
  rw [hdropped.crt]
  by_cases hq : isUserPage q
  · exact hdropped.dropped_refs q hq
  · exact Paging.refs_of_not_user hq

end Represents

end LuckOS.PhysicalPaging
