import LuckOS.PhysicalClone
import LuckOS.CloneFrames

/-!
# The whole of `clone_crt_page_dir` in physical memory

The loop over the page tables takes one frame for each table that is present. At the end the pages that
the heap has lent are released without their frames, and the new directory counts among the others.
-/

namespace LuckOS.PhysicalPaging

open ByteMemory PageWalk BootLoader FrameContents Outcome
open Paging (Pte PageDir KernelStep KernelReady IsHeapPage CloneHeap isUserPage isUserTable)

variable {M N : PhysicalPaging} {m m' : Memory} {s t u : Paging} {made made' : Option PageDir} {known : Nat → Prop}
  {P : Finset Nat} {e : Nat → Pte} {dir d d' : PageDir} {heap : LentHeap}
  {f g i j k p q v w left taken faults faults' : Nat}

/-! ## The loop -/

/-- The page tables among `tables` that are present. -/
def presentTables (s : Paging) (tables : List Nat) : Nat := tables.countP fun i => (s.getPde i).present

theorem presentTables_snoc (s : Paging) (done : List Nat) (i : Nat) :
    presentTables s (done ++ [i]) = presentTables s done + if (s.getPde i).present then 1 else 0 := by
  rw [presentTables, List.countP_append, List.countP_singleton]
  rfl

theorem presentTables_cons (s : Paging) (i : Nat) (rest : List Nat) :
    presentTables s (i :: rest) = presentTables s rest + if (s.getPde i).present then 1 else 0 := by
  rw [presentTables, List.countP_cons]
  rfl

/-- The loop that copies the page tables. -/
theorem Copying.copyPageTables {st : Paging × PageDir}
    (h : Copying s known P (left + s.userTablesNum) taken faults heap g [] st N)
    (hP : ∀ q ∈ P, IsHeapPage q)
    (hcount : ∀ q, isUserPage q → (s.getPte q).present = true → ∀ p ∈ heap.countPages q, p ∈ P) :
    Together ((List.range' 1 767).foldlM (Paging.copyPageTable heap.toCloneHeap) st)
      (forRange 1 768 N (PhysicalPaging.copyPageTable heap.toCloneHeap))
      (Copying s known P left (taken + s.userTablesNum) faults heap g (List.range' 1 767)) := by
  have hrange : 768 - 1 = 767 := rfl
  have hnum : s.userTablesNum = presentTables s (List.range' 1 767) := rfl
  rw [hnum] at h ⊢
  rw [forRange, hrange]
  generalize htables : List.range' 1 767 = tables at *
  have hloop := together_foldlM (I := fun done st N => ∃ rest, tables = done ++ rest ∧
    Copying s known P (left + presentTables s rest) (taken + presentTables s done) faults heap g done st N)
    (l := tables) (f := Paging.copyPageTable heap.toCloneHeap) (g := PhysicalPaging.copyPageTable heap.toCloneHeap)
    ⟨tables, rfl, h⟩ fun done i rest st N' hsplit hst => by
      obtain ⟨rest', hsplit', hst⟩ := hst
      obtain rfl := List.append_cancel_left (hsplit'.symm.trans hsplit)
      have hmem : i ∈ List.range' 1 767 := by
        rw [htables, hsplit]
        exact List.mem_append_right _ List.mem_cons_self
      have hi : isUserTable i := by
        rw [List.mem_range'_1] at hmem
        rw [isUserTable, decide_eq_true_eq]
        omega
      have hnot : i ∉ done := by
        have hnodup : (done ++ i :: rest).Nodup := by
          rw [← hsplit, ← htables]
          exact List.nodup_range'
        exact fun hin => (List.nodup_append.mp hnodup).2.2 i hin i List.mem_cons_self rfl
      rw [presentTables_cons, ← Nat.add_assoc] at hst
      refine (hst.copyPageTable hi hnot hP hcount).mono fun st' N'' hnext => ⟨rest, ?_, ?_⟩
      · rw [hsplit, List.append_assoc]
        rfl
      · rw [presentTables_snoc, ← Nat.add_assoc]
        exact hnext
  refine Together.mono hloop fun st' N' hst => ?_
  obtain ⟨rest, hsplit, hst⟩ := hst
  have hnone : rest = [] := List.self_eq_append_right.mp hsplit
  rw [hnone] at hst
  exact hst

/-! ## The end of the call -/

/-- The directory that was made counts among the others. -/
theorem Simulates.install (h : Simulates M s (some d) known) : Simulates { M with
    pageDirEntriesPhy := Function.update M.pageDirEntriesPhy M.dirsNum (d.frame * pageSize)
    dirsNum := M.dirsNum + 1 } (s.install d) none known := by
  have hdirAt : dirAt (s.install d) none = dirAt s (some d) := by
    funext x
    rw [dirAt, dirAt]
    have hnum : (s.install d).dirsNum = s.dirsNum + 1 := rfl
    rw [hnum]
    rcases Nat.lt_trichotomy x s.dirsNum with hlt | rfl | hgt
    · rw [if_pos (Nat.lt_succ_of_lt hlt), if_pos hlt, Paging.install_dirs_of_ne (Nat.ne_of_lt hlt)]
    · rw [if_pos (Nat.lt_succ_self _), if_neg (lt_irrefl _), if_pos rfl, Paging.install_dirs_self]
    · rw [if_neg (by omega), ite_self, if_neg (by omega), if_neg (Nat.ne_of_gt hgt)]
  refine ⟨h.describes.of_dirAt (Nat.lt_succ_of_lt h.describes.crt_lt) hdirAt rfl (fun _ _ hused => hused)
      fun g hg => ⟨hg, (h.describes.pages g hg).1, rfl⟩,
    h.phyFramesMap, h.size, h.ready, h.counts, congrArg (· + 1) h.dirsNum, h.crt, fun x hx => ?_, h.released⟩
  change Function.update M.pageDirEntriesPhy M.dirsNum (d.frame * pageSize) x = ((s.install d).dirs x).frame * 4096
  rw [h.dirsNum]
  rcases Nat.lt_or_eq_of_le (Nat.le_of_lt_succ hx) with hlt | rfl
  · rw [Function.update_of_ne (Nat.ne_of_lt hlt), Paging.install_dirs_of_ne (Nat.ne_of_lt hlt)]
    exact h.dirs x hlt
  · rw [Function.update_self, Paging.install_dirs_self]
    rfl

theorem phyFramesMap_install (s : Paging) (d : PageDir) : (s.install d).phyFramesMap = s.phyFramesMap := rfl

theorem phyFramesMap_releaseLent (hv : v / pageSize < 2 ^ 20) :
    (s.releasePages v 1 false).phyFramesMap = s.phyFramesMap := by
  rw [Paging.releasePages_one hv]
  simp only [Paging.releasePage, Bool.false_eq_true, if_false]
  split_ifs
  · rfl
  · exact phyFramesMap_setPte
  · rfl

namespace Represents

theorem userTables_length (h : Represents M s) : M.userTables.length = s.userTablesNum := by
  rw [userTables, Paging.userTablesNum, List.countP_eq_length_filter]
  refine congrArg List.length (List.filter_congr fun i hi => ?_)
  have hrange := List.mem_range'_1.mp hi
  have hindex : i * 1024 / 1024 = i := Nat.mul_div_cancel i (by decide)
  rw [h.simulates.hasTable_eq (by omega), hindex]

theorem mem_userPages (h : Represents M s) (hq : isUserPage q) (hpresent : (s.getPte q).present = true) :
    q ∈ M.userPages := by
  have hpage := changeable_user hq
  have htable : (s.getPde (q / 1024)).present = true := by
    rw [Paging.getPte_user hq] at hpresent
    exact h.wf.tables _ h.wf.crt_lt q hq hpresent
  rw [userPages, List.mem_filter, h.simulates.entry_eq hpage.lt hpage.window htable]
  rw [isUserPage, decide_eq_true_eq] at hq
  exact ⟨List.mem_range'_1.mpr (by omega), hpresent⟩

theorem clonePages_heap (heap : CloneHeap) (M : PhysicalPaging) : ∀ p ∈ M.clonePages heap, IsHeapPage p := by
  intro p hp
  rw [clonePages, List.mem_append, List.mem_append, List.mem_append, List.mem_flatMap] at hp
  rcases hp with ((hp | hp) | ⟨q, -, hp⟩) | hp
  · exact heap.dirPages_heap p hp
  · exact heap.tablePages_heap p hp
  · exact heap.countPages_heap q p hp
  · exact heap.freePages_heap p hp

end Represents

/-- The heap gets its pages back, and the new directory is installed. -/
theorem Copying.finish {done : List Nat} (h : Copying s known P left taken faults heap g done (t, d) N)
    (hmem : ∀ p ∈ heap.freePages, p ∈ P) :
    Together (t.touchPages heap.freePages >>= fun u =>
        .ok (((u.releasePages heap.copiedPageDir 1 false).releasePages heap.copiedPageTable 1 false).install d))
      (do
        let s ← N.touchPages heap.freePages
        let s ← s.releasePages heap.copiedPageDir 1 false
        let s ← s.releasePages heap.copiedPageTable 1 false
        .ok { s with
          pageDirEntriesPhy := Function.update s.pageDirEntriesPhy s.dirsNum (g * pageSize)
          dirsNum := s.dirsNum + 1 })
      fun u N' => Simulates N' u none known ∧
        u.phyFramesMap.freeBelow 8192 + taken + N'.pageFaults = s.phyFramesMap.freeBelow 8192 + faults := by
  have hroom := h.progress.room
  refine (h.simulates.touchPages h.progress.kernel heap.freePages_heap hmem (by omega)).bind fun u N₁ hu => ?_
  obtain ⟨N₂, hrun₂, hsim₂, hfaults₂⟩ := hu.simulates.releaseLent (changeable_heap heap.copiedPageDir_heap)
    (hu.simulates.kernel_present (isKernelTable_heap heap.copiedPageDir_heap))
  obtain ⟨N₃, hrun₃, hsim₃, hfaults₃⟩ := hsim₂.releaseLent (changeable_heap heap.copiedPageTable_heap)
    (hsim₂.kernel_present (isKernelTable_heap heap.copiedPageTable_heap))
  have hmap := phyFramesMap_releaseLent (s := u.releasePages heap.copiedPageDir 1 false)
    (changeable_heap heap.copiedPageTable_heap).lt
  rw [phyFramesMap_releaseLent (changeable_heap heap.copiedPageDir_heap).lt] at hmap
  have hframe : d.frame = g := h.frame
  have hcount := (h.progress.touched hu).count
  rw [hrun₂, ok_bind, hrun₃, ok_bind]
  generalize (u.releasePages heap.copiedPageDir 1 false).releasePages heap.copiedPageTable 1 false = v at *
  have hinstalled := hsim₃.install
  rw [hframe] at hinstalled
  refine together_ok ⟨hinstalled, ?_⟩
  rw [phyFramesMap_install, hmap]
  have hfaults : N₃.pageFaults = N₁.pageFaults := hfaults₃.trans hfaults₂
  rw [← hfaults] at hcount
  exact hcount

/-- What a call of `clone_crt_page_dir` has done on both sides. -/
structure BothCloned (M : PhysicalPaging) (s : Paging) (t : Paging) (N : PhysicalPaging) : Prop where
  represents : Represents N t
  count : t.phyFramesMap.freeBelow 8192 + (1 + M.userTables.length) + N.pageFaults =
    s.phyFramesMap.freeBelow 8192 + M.pageFaults

/-- `clone_crt_page_dir` while the frames that it takes lie below the tables of the kernel. -/
theorem Represents.cloneCrtPageDir (h : Represents M s) (heap : LentHeap)
    (hfree : M.cloneFrames heap.toCloneHeap ≤ M.phyFramesMap.freeBelow 0x100) :
    Together (s.cloneCrtPageDir heap.toCloneHeap) (M.cloneCrtPageDir heap.toCloneHeap) (BothCloned M s) := by
  have hheap := Represents.clonePages_heap heap.toCloneHeap M
  have hP : ∀ q ∈ (M.clonePages heap.toCloneHeap).toFinset, IsHeapPage q := fun q hq => hheap q (List.mem_toFinset.mp hq)
  have hmem : ∀ p, p ∈ heap.dirPages ∨ p ∈ heap.tablePages ∨ (∃ q ∈ M.userPages, p ∈ heap.countPages q) ∨
      p ∈ heap.freePages → p ∈ (M.clonePages heap.toCloneHeap).toFinset := by
    intro p hp
    rw [List.mem_toFinset, clonePages, List.mem_append, List.mem_append, List.mem_append, List.mem_flatMap]
    rcases hp with hp | hp | hp | hp
    · exact .inl (.inl (.inl hp))
    · exact .inl (.inl (.inr hp))
    · exact .inl (.inr hp)
    · exact .inr hp
  have hcount : ∀ q, isUserPage q → (s.getPte q).present = true → ∀ p ∈ heap.countPages q,
      p ∈ (M.clonePages heap.toCloneHeap).toFinset := fun q hq hpresent p hp =>
    hmem p (.inr (.inr (.inl ⟨q, h.mem_userPages hq hpresent, hp⟩)))
  rw [cloneFrames, h.simulates.heapFrames_eq hheap, h.userTables_length, h.simulates.phyFramesMap] at hfree
  generalize (M.clonePages heap.toCloneHeap).toFinset = P at *
  have hstart : Progress s P (s.userTablesNum + 1) 0 M.pageFaults s M.pageFaults :=
    ⟨h.wf.kernelReady, rfl, rfl, rfl, fun _ _ => rfl, by omega, by rw [Nat.add_zero], h.wf.owner_used _ _ h.wf.owner_zero⟩
  obtain ⟨g, hg, ha, hM, htaken⟩ := h.simulates.allocate (by omega) .noFrameForPageDir
  have hpos := hstart.frame_pos hg
  have h₁ : Progress s P s.userTablesNum (0 + 1) M.pageFaults { s with phyFramesMap := s.phyFramesMap.setBit g }
      ({ M with phyFramesMap := s.phyFramesMap.setBit g } : PhysicalPaging).pageFaults := hstart.allocate hg
  have hready := h₁.kernel
  have hroom₁ := h₁.room
  have hrun : Together (s.cloneCrtPageDir heap.toCloneHeap) (M.cloneCrtPageDir heap.toCloneHeap) fun t N =>
      Simulates N t none s.IsMapped ∧ t.phyFramesMap.freeBelow 8192 + (1 + s.userTablesNum) + N.pageFaults =
        s.phyFramesMap.freeBelow 8192 + M.pageFaults := by
    rw [Paging.cloneCrtPageDir, PhysicalPaging.cloneCrtPageDir, ha, hM, ok_bind]
    -- The heap lends the first page, and the new directory gets the entries that all directories share.
    refine Together.bind (htaken.touchPages hready heap.dirPages_heap (fun p hp => hmem p (.inl hp)) (by omega))
      fun t₂ N₂ h₂ => ?_
    have hprogress₂ := (h₁.touched h₂).setPte_heap heap.copiedPageDir_heap g
    have hreserved := (hg.reserved.kernelStep h₂.step).setPte (p := heap.copiedPageDir / pageSize) (e := .mapTo g)
      h₂.simulates.describes.crt_lt
    obtain ⟨m₃, hrun₃, hrun₃', -, hmapped⟩ := h₂.simulates.mapLent heap.copiedPageDir_heap hpos hg.lt
    have hself : (t₂.setPte (heap.copiedPageDir / pageSize) (.mapTo g)).getPte (heap.copiedPageDir / pageSize) = .mapTo g :=
      getPte_setPte_self
    rw [hrun₃, ok_bind, hrun₃', ok_bind, if_neg hpos.ne']
    obtain ⟨m₄, hrun₄, hcleared⟩ := hmapped.clearLent hreserved heap.copiedPageDir_heap heap.copiedPageDir_aligned hself
    obtain ⟨N₅, hrun₅, hN₅, hlent⟩ := hcleared.sharePdes
    obtain ⟨first, hload₅, hrun₅⟩ := bind_eq_ok hrun₅
    obtain ⟨N₅', hstore₅, hshare₅⟩ := bind_eq_ok hrun₅
    rw [hrun₄, ok_bind, hload₅, ok_bind, hstore₅, ok_bind, hshare₅, ok_bind]
    have hprogress₅ : Progress s P s.userTablesNum 1 M.pageFaults (t₂.setPte (heap.copiedPageDir / pageSize) (.mapTo g))
        N₅.pageFaults := by
      rw [hN₅]
      exact hprogress₂
    have hmade := hlent.make
    clear hmapped hcleared hlent hprogress₂ hrun₃ hrun₃' hreserved
    generalize t₂.setPte (heap.copiedPageDir / pageSize) (.mapTo g) = t₅ at *
    have hroom₅ := hprogress₅.room
    refine Together.bind (hmade.touchPages hprogress₅.kernel heap.tablePages_heap (fun p hp => hmem p (.inr (.inl hp)))
      (by omega)) fun t₆ N₆ h₆ => ?_
    -- The page tables are copied.
    have hcopying : Copying s s.IsMapped P (0 + s.userTablesNum) 1 M.pageFaults heap g []
        (t₆, Paging.newPageDir t₅.crtDir g) N₆ := by
      rw [Nat.zero_add]
      refine ⟨h₆.simulates, hprogress₅.touched h₆, rfl, ?_, fun i hi => ?_⟩
      · exact (h₆.entries _ (by rw [hself]; rfl)).trans hself
      · rw [newPageDir_absent hi]
        exact iff_of_false Bool.false_ne_true fun hin => List.not_mem_nil hin.1
    refine Together.bind (hcopying.copyPageTables hP hcount) fun r N₇ hcopied => ?_
    exact hcopied.finish fun p hp => hmem p (.inr (.inr (.inr hp)))
  obtain ⟨t, ht, N, hN, hsim, hcounted⟩ := hrun
  have hdone := (Paging.cloneCrtPageDir_spec h.wf heap.toCloneHeap).of_ok ht
  rw [← h.userTables_length] at hcounted
  exact ⟨t, ht, N, hN, ⟨hdone.wf, hsim.weaken fun f hf => hdone.isMapped.mp hf⟩, hcounted⟩

end LuckOS.PhysicalPaging
