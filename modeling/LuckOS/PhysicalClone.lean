import LuckOS.PhysicalLending
import LuckOS.PagingClone

/-!
# `clone_crt_page_dir` in physical memory

The call takes a frame for the directory, one for each user page table, and one for each page of the heap that
it finds unmapped. While all of these lie below the tables of the kernel, the copies in memory are those that the
call makes in the state of `Paging`.
-/

namespace LuckOS.PhysicalPaging

open ByteMemory PageWalk BootLoader FrameContents Outcome
open Paging (Pte PageDir KernelStep KernelReady IsHeapPage CloneHeap isUserPage isUserTable)

/-- What `kmalloc_aligned` promises of the two pages that it lends. -/
structure LentHeap extends CloneHeap where
  copiedPageDir_aligned : copiedPageDir / pageSize * pageSize = copiedPageDir
  copiedPageTable_aligned : copiedPageTable / pageSize * pageSize = copiedPageTable
  distinct : copiedPageDir / pageSize ≠ copiedPageTable / pageSize

/-- The page tables of the current user space. -/
def userTables (s : PhysicalPaging) : List Nat := (List.range' 1 767).filter fun i => s.hasTable (i * 1024)

/-- The mapped pages of the current user space. -/
def userPages (s : PhysicalPaging) : List Nat := (List.range' 1024 (767 * 1024)).filter fun p => (s.entry p).present

/-- The pages of the heap to which the calls of the heap functions in `clone_crt_page_dir` make accesses. -/
def clonePages (s : PhysicalPaging) (heap : CloneHeap) : List Nat :=
  heap.dirPages ++ heap.tablePages ++ s.userPages.flatMap heap.countPages ++ heap.freePages

/-- The number of frames that `clone_crt_page_dir` takes: for the directory, the page tables, and the heap. -/
def cloneFrames (s : PhysicalPaging) (heap : CloneHeap) : Nat :=
  1 + s.userTables.length + s.heapFrames (s.clonePages heap)

variable {M N : PhysicalPaging} {m m' : Memory} {s t u : Paging} {made made' : Option PageDir} {known : Nat → Prop}
  {P : Finset Nat} {e : Nat → Pte} {dir d d' : PageDir} {f g i j k p q v w left taken faults faults' : Nat}

/-! ## How far the call has come -/

/-- The call has taken `taken` frames without a page fault, and `left` more will follow. The pages of `P` are those
to which it makes accesses. -/
structure Progress (s : Paging) (P : Finset Nat) (left taken faults : Nat) (t : Paging) (faults' : Nat) : Prop where
  kernel : t.KernelReady
  crt : t.crt = s.crt
  dirsNum : t.dirsNum = s.dirsNum
  pde : t.getPde = s.getPde
  present : ∀ q, isUserPage q → (t.getPte q).present = (s.getPte q).present
  room : unmapped t P + left ≤ t.phyFramesMap.freeBelow 0x100
  count : t.phyFramesMap.freeBelow 8192 + taken + faults' = s.phyFramesMap.freeBelow 8192 + faults
  zero : t.phyFramesMap.testBit 0 = true

namespace Progress

theorem touched (h : Progress s P left taken faults t N.pageFaults) {N' : PhysicalPaging}
    (ht : Touched N t made known P u N') : Progress s P left taken faults u N'.pageFaults where
  kernel := h.kernel.kernelStep ht.step
  crt := ht.step.crt.trans h.crt
  dirsNum := ht.step.dirsNum.trans h.dirsNum
  pde := by
    rw [← h.pde]
    funext i
    rw [Paging.getPde, Paging.crtDir, ht.step.dirs, ht.step.crt]
    rfl
  present q hq := by
    rw [← h.present q hq, Paging.getPte_user hq, Paging.getPte_user hq, Paging.crtDir, ht.step.dirs, ht.step.crt]
    rfl
  room := by
    have hroom := h.room
    have hbalance := ht.balance
    omega
  count := by
    have hcount := h.count
    have hfaults := ht.faults
    omega
  zero := ht.step.used 0 h.zero

theorem allocate (h : Progress s P (left + 1) taken faults t faults') (hf : Simulates.Taken t made known f) :
    Progress s P left (taken + 1) faults { t with phyFramesMap := t.phyFramesMap.setBit f } faults' where
  kernel := ⟨h.kernel.kernel_pde, h.kernel.kernel_rw, (Bitmap.sizes_setBit _ _).trans h.kernel.size⟩
  crt := h.crt
  dirsNum := h.dirsNum
  pde := h.pde
  present := h.present
  room := by
    have hroom := h.room
    have hleft := hf.left
    change unmapped t P + left ≤ (t.phyFramesMap.setBit f).freeBelow 0x100
    omega
  count := by
    have hcount := h.count
    have hlt := hf.lt
    have hbelow : (t.phyFramesMap.setBit f).freeBelow 8192 + 1 = t.phyFramesMap.freeBelow 8192 :=
      Bitmap.freeBelow_taken (by omega) hf.free hf.test
    change (t.phyFramesMap.setBit f).freeBelow 8192 + (taken + 1) + faults' = _
    omega
  zero := by
    change (t.phyFramesMap.setBit f).testBit 0 = true
    rw [hf.test, h.zero, Bool.or_true]

/-- A frame is not frame 0, which the heap uses from the start. -/
theorem frame_pos (h : Progress s P left taken faults t faults') (hf : Simulates.Taken t made known f) : 0 < f := by
  refine Nat.pos_of_ne_zero ?_
  rintro rfl
  have hused := h.zero
  rw [hf.free] at hused
  cases hused

/-- A page of the heap is mapped. -/
theorem setPte_heap (h : Progress s P left taken faults t faults') (hp : IsHeapPage p) (f : Nat) :
    Progress s P left taken faults (t.setPte p (.mapTo f)) faults' := by
  have hkernel := hp.kernel
  have hother : ∀ q, isUserPage q → (t.setPte p (.mapTo f)).getPte q = t.getPte q := by
    intro q hq
    refine getPte_setPte_of_ne ?_
    rintro rfl
    exact hkernel.2 hq
  have hmapped : unmapped (t.setPte p (.mapTo f)) P ≤ unmapped t P := by
    refine Finset.card_le_card fun q hq => ?_
    rw [Finset.mem_filter] at hq ⊢
    refine ⟨hq.1, ?_⟩
    by_cases hqp : q = p
    · rw [hqp, getPte_setPte_self] at hq
      exact absurd hq.2 (by simp [Pte.mapTo])
    · rw [← getPte_setPte_of_ne hqp]
      exact hq.2
  have hsize : (t.setPte p (.mapTo f)).phyFramesMap = t.phyFramesMap := phyFramesMap_setPte
  have hstep := Paging.kernelStep_setPte (s := t) hkernel (e := .mapTo f) fun _ => rfl
  refine ⟨h.kernel.kernelStep hstep, hstep.crt.trans h.crt, hstep.dirsNum.trans h.dirsNum, getPde_setPte.trans h.pde,
    fun q hq => ?_, ?_, ?_, ?_⟩
  · rw [hother q hq]
    exact h.present q hq
  · have hroom := h.room
    rw [hsize]
    omega
  · rw [hsize]
    exact h.count
  · rw [hsize]
    exact h.zero

/-- A user page loses its write permission, and a count changes. -/
theorem mark {e : Pte} (h : Progress s P left taken faults t faults') (hp : isUserPage p)
    (hpresent : e.present = (t.getPte p).present) (hP : ∀ q ∈ P, IsHeapPage q) (f : Nat) :
    Progress s P left taken faults ((t.setPte p e).changeCowFrameRefcount f 1).2 faults' := by
  have hsame : ((t.setPte p e).changeCowFrameRefcount f 1).2 = { t.setPte p e with
      frameCowRefCounts := ((t.setPte p e).changeCowFrameRefcount f 1).2.frameCowRefCounts } := by
    rw [Paging.changeCowFrameRefcount]
    split_ifs <;> rfl
  have hset : t.setPte p e = t.setCrtDir { t.crtDir with pte := Function.update t.crtDir.pte p e } :=
    Paging.setPte_user hp e
  have hpde : ((t.setPte p e).changeCowFrameRefcount f 1).2.getPde = t.getPde := by
    rw [getPde_changeCowFrameRefcount, getPde_setPte]
  have hpte : ((t.setPte p e).changeCowFrameRefcount f 1).2.getPte = (t.setPte p e).getPte :=
    getPte_changeCowFrameRefcount 1
  have hmap : ((t.setPte p e).changeCowFrameRefcount f 1).2.phyFramesMap = t.phyFramesMap := by
    rw [hsame, hset]
    rfl
  have hunmapped : unmapped ((t.setPte p e).changeCowFrameRefcount f 1).2 P = unmapped t P := by
    refine congrArg Finset.card (Finset.filter_congr fun q hq => ?_)
    rw [hpte, getPte_setPte_of_ne]
    rintro rfl
    exact (hP q hq).kernel.2 hp
  refine ⟨⟨?_, ?_, ?_⟩, ?_, ?_, hpde.trans h.pde, fun q hq => ?_, ?_, ?_, ?_⟩
  · rw [hpde]
    exact h.kernel.kernel_pde
  · rw [hsame, hset]
    exact h.kernel.kernel_rw
  · rw [hmap]
    exact h.kernel.size
  · rw [hsame, hset]
    exact h.crt
  · rw [hsame, hset]
    exact h.dirsNum
  · rw [hpte, ← h.present q hq]
    by_cases hqp : q = p
    · rw [hqp, getPte_setPte_self, hpresent]
    · rw [getPte_setPte_of_ne hqp]
  · rw [hunmapped, hmap]
    exact h.room
  · rw [hmap]
    exact h.count
  · rw [hmap]
    exact h.zero

end Progress

/-! ## One page table -/

theorem Reserved.setPte {e : Pte} (h : Reserved s made known f) (hcrt : s.crt < s.dirsNum) :
    Reserved (s.setPte p e) made known f := by
  refine ⟨?_, h.lt, fun hf => h.table ?_, h.unknown⟩
  · rw [phyFramesMap_setPte]
    exact h.used
  · rw [IsTable, tableFrame_setPte hcrt] at hf
    exact hf

namespace Lent

/-- An entry of the current user space changes. -/
theorem setUser {x : Pte} (h : Lent N t made known v f e) (hp : isUserPage p) (hpresent : (t.getPde (p / 1024)).present)
    (he : x.frame < 2 ^ 20) :
    ∃ m', N.storeEntry (pteAt p) x = .ok { N with memory := m' } ∧
    Lent { N with memory := m' } (t.setPte p x) made known v f e := by
  have hpage := changeable_user hp
  obtain ⟨m', hrun, hsame, hsim⟩ := h.simulates.storeEntry_pte hpage hpresent he
  have htable : IsTable (t.setPte p x) made f ↔ IsTable t made f := by
    rw [IsTable, IsTable, tableFrame_setPte h.simulates.describes.crt_lt]
  have hlt := hpage.lt
  refine ⟨m', hrun, hsim, ⟨?_, h.reserved.lt, fun hf => h.reserved.table (htable.mp hf), h.reserved.unknown⟩, h.heap, h.aligned,
    ?_, h.contents.congr hsame fun heq => h.reserved.table ?_⟩
  · rw [phyFramesMap_setPte]
    exact h.reserved.used
  · rw [getPte_setPte_of_ne, h.entry]
    intro heq
    exact h.heap.kernel.2 (heq ▸ hp)
  · rw [heq]
    exact h.simulates.describes.isTable_getPde (by omega) hpage.window hpresent

theorem changeCowFrameRefcount (h : Lent N t made known v f e) (g : Nat) (delta : Int) :
    Lent (N.changeCowFrameRefcount g delta).2 (t.changeCowFrameRefcount g delta).2 made known v f e := by
  obtain ⟨-, hsim, hmem, -, hmap⟩ := h.simulates.changeCowFrameRefcount g delta
  refine ⟨hsim, ⟨?_, h.reserved.lt, fun hf => h.reserved.table ?_, h.reserved.unknown⟩, h.heap, h.aligned, ?_, ?_⟩
  · rw [hmap]
    exact h.reserved.used
  · refine (isTable_congr ?_ ?_).mp hf
    · rw [Paging.changeCowFrameRefcount]
      split_ifs <;> rfl
    · rw [Paging.changeCowFrameRefcount]
      split_ifs <;> rfl
  · rw [getPte_changeCowFrameRefcount]
    exact h.entry
  · rw [hmem]
    exact h.contents

/-- The new directory gets other entries in a page table that it does not name yet. -/
theorem remake {w : PageDir} (h : Lent N t (some d) known v f e) (hi : isUserTable i) (habsent : (d.pde i).present = false)
    (hframe : w.frame = d.frame) (hpde : w.pde = d.pde) (hpte : ∀ q, q / 1024 ≠ i → w.pte q = d.pte q) :
    Lent N t (some w) known v f e := by
  have hdirs := otherDir_made (s := t) hi hframe (fun j _ => congrFun hpde j) hpte
  have hnone : ¬ (w.pde i).present = true := by
    rw [hpde, habsent]
    exact Bool.false_ne_true
  have htable : ∀ x, tableFrame t (some w) x = tableFrame t (some d) x := by
    intro x
    rw [hdirs.tableFrame]
    split_ifs with hx
    · rw [hx, tableFrame, hdirs.before, Option.bind_some]
      have hself := (isUserTable_ne hi).1
      simp only [hself, habsent, Bool.false_eq_true, and_false, if_false]
    · rfl
  have hd := h.simulates.describes
  have hdescribes : Describes N.memory t (some w) known := by
    refine hd.setDir (f := 0) hdirs ?_ (fun g c _ hc => hd.tables g c hc) (fun hp => (hnone hp).elim)
      (fun hp => (hnone hp).elim) fun g hg => (hd.pages g hg).2.2.2
    rw [hpde]
    exact hd.tables _ _ (.directory _ d hdirs.before)
  refine ⟨⟨hdescribes, h.simulates.phyFramesMap, h.simulates.size, h.simulates.ready, h.simulates.counts, h.simulates.dirsNum,
    h.simulates.crt, h.simulates.dirs, h.simulates.released⟩, ⟨h.reserved.used, h.reserved.lt, ?_, h.reserved.unknown⟩, h.heap,
    h.aligned, h.entry, h.contents⟩
  rintro (⟨x, hx⟩ | hkernel)
  · rw [htable] at hx
    exact h.reserved.table (.inl ⟨x, hx⟩)
  · exact h.reserved.table (.inr hkernel)

end Lent

/-- The entries of the page table `i` are being marked. The new directory, in the frame under the page at `w`,
does not name the new page table yet, which lies in the frame `f`. -/
structure Marking (s : Paging) (known : Nat → Prop) (P : Finset Nat) (left taken faults : Nat) (w v f i : Nat)
    (d : PageDir) (st : Paging × PageDir) (N : PhysicalPaging) : Prop where
  lent : Lent N st.1 (some st.2) known v f fun j => st.2.pte (i * 1024 + j)
  progress : Progress s P left taken faults st.1 N.pageFaults
  pde : st.2.pde = d.pde
  frame : st.2.frame = d.frame
  present : ∀ j < 1024, (st.2.pte (i * 1024 + j)).present = (s.getPte (i * 1024 + j)).present
  entry : st.1.getPte (w / pageSize) = .mapTo d.frame

/-- One turn of the loop that marks the entries. -/
theorem Marking.mark {heap : CloneHeap} {st : Paging × PageDir}
    (h : Marking s known P left taken faults w heap.copiedPageTable f i d st N)
    (hi : isUserTable i) (hpresent : (s.getPde i).present) (habsent : (d.pde i).present = false)
    (hw : IsHeapPage (w / pageSize)) (hP : ∀ q ∈ P, IsHeapPage q)
    (hcount : ∀ q, isUserPage q → (s.getPte q).present = true → ∀ p ∈ heap.countPages q, p ∈ P) (hj : j < 1024) :
    Together (Paging.markCopyOnWrite heap i st j) (markCopyOnWrite heap i N j)
      (Marking s known P left taken faults w heap.copiedPageTable f i d) := by
  obtain ⟨t, d₁⟩ := st
  have hlent := h.lent
  have hload : N.loadEntry (heap.copiedPageTable + 4 * j) = .ok (d₁.pte (i * 1024 + j)) := hlent.loadEntry hj
  have hindex : (i * 1024 + j) / 1024 = i := by omega
  have huser : isUserPage (i * 1024 + j) := by
    rw [← Paging.isUserTable_div, hindex]
    exact hi
  have hpage := changeable_user huser
  have htable : (t.getPde ((i * 1024 + j) / 1024)).present = true := by
    rw [hindex, h.progress.pde]
    exact hpresent
  simp only [Paging.markCopyOnWrite, PhysicalPaging.markCopyOnWrite, hload, bind, Except.bind]
  by_cases hpte : (d₁.pte (i * 1024 + j)).present = true
  · have hnot : ¬ (!(d₁.pte (i * 1024 + j)).present) = true := by
      rw [hpte]
      decide
    have hmapped : (s.getPte (i * 1024 + j)).present = true := (h.present j hj).symm.trans hpte
    have hcrt : N.loadEntry (pteAt (i * 1024 + j)) = .ok (t.getPte (i * 1024 + j)) :=
      hlent.simulates.loadEntry_pte hpage.lt hpage.window htable
    have hentries := hlent.simulates.describes.entriesIn_table (isUserTable_ne hi).2 (isUserTable_ne hi).1 (hindex ▸ htable)
    have hbound : (t.getPte (i * 1024 + j)).frame < 2 ^ 20 := by
      have hlt := frame_lt hentries hj
      exact hlt
    have hbound' : (d₁.pte (i * 1024 + j)).frame < 2 ^ 20 := by
      have hlt := frame_lt hlent.contents hj
      exact hlt
    obtain ⟨m₁, hstore, hset⟩ := hlent.setUser huser htable (x := { t.getPte (i * 1024 + j) with rw := false }) hbound
    obtain ⟨m₂, hstore', hset'⟩ := hset.storeEntry hj (x := { d₁.pte (i * 1024 + j) with rw := false }) hbound'
    have hload' := hset'.loadEntry hj
    rw [Function.update_self] at hload'
    have hchanged := hset'.changeCowFrameRefcount (d₁.pte (i * 1024 + j)).frame 1
    have hprogress := h.progress.mark (e := { t.getPte (i * 1024 + j) with rw := false }) huser rfl hP
      (d₁.pte (i * 1024 + j)).frame
    have hfaults := (hset'.simulates.changeCowFrameRefcount (d₁.pte (i * 1024 + j)).frame 1).2.2.2.1
    rw [← hfaults] at hprogress
    have hroom := hprogress.room
    obtain ⟨u, htouch, N', htouch', htouched⟩ := hchanged.simulates.touchPages (P := P) hprogress.kernel
      (heap.countPages_heap (i * 1024 + j)) (hcount _ huser hmapped) (by omega)
    have hdone := (hchanged.touched htouched).remake (w := { d₁ with
      pte := Function.update d₁.pte (i * 1024 + j) { d₁.pte (i * 1024 + j) with rw := false } }) hi
      (by have hsame := h.pde; change d₁.pde = d.pde at hsame; rw [hsame]; exact habsent) rfl rfl fun q hq => by
        refine Function.update_of_ne ?_ _ _
        rintro rfl
        exact hq hindex
    have hnew : ∀ k, Function.update d₁.pte (i * 1024 + j) { d₁.pte (i * 1024 + j) with rw := false } (i * 1024 + k) =
        if k = j then { d₁.pte (i * 1024 + j) with rw := false } else d₁.pte (i * 1024 + k) := by
      intro k
      split_ifs with hkj
      · rw [hkj, Function.update_self]
      · exact Function.update_of_ne (by omega) _ _
    refine ⟨(u, { d₁ with pte := Function.update d₁.pte (i * 1024 + j) { d₁.pte (i * 1024 + j) with rw := false } }), ?_, N', ?_,
      hdone.of_eq fun k hk => ?_, hprogress.touched htouched, h.pde, h.frame, fun k hk => ?_, ?_⟩
    · simp only [if_neg hnot, htouch]
    · simp only [if_neg hnot, hcrt, hstore, hstore', hload']
      exact htouch'
    · refine (hnew k).trans ?_
      by_cases hkj : k = j
      · rw [if_pos hkj, hkj, Function.update_self]
      · rw [if_neg hkj, Function.update_of_ne hkj]
    · refine (congrArg Pte.present (hnew k)).trans ?_
      by_cases hkj : k = j
      · rw [if_pos hkj, hkj]
        exact h.present j hj
      · rw [if_neg hkj]
        exact h.present k hk
    · have hentry : ((t.setPte (i * 1024 + j) { t.getPte (i * 1024 + j) with rw := false }).changeCowFrameRefcount
          (d₁.pte (i * 1024 + j)).frame 1).2.getPte (w / pageSize) = .mapTo d.frame := by
        rw [getPte_changeCowFrameRefcount, getPte_setPte_of_ne]
        · exact h.entry
        · rintro heq
          exact hw.kernel.2 (heq ▸ huser)
      rw [htouched.entries _ (by rw [hentry]; rfl), hentry]
  · have hskip : (!(d₁.pte (i * 1024 + j)).present) = true := by simpa using hpte
    rw [if_pos hskip, if_pos hskip]
    exact together_ok h

/-- The new directory gets the new page table. -/
theorem Lent.attach (h : Lent N t (some d) known v f fun j => d.pte (i * 1024 + j)) (hi : isUserTable i)
    (hw : IsHeapPage (w / pageSize)) (haligned : w / pageSize * pageSize = w)
    (hentry : t.getPte (w / pageSize) = .mapTo d.frame) :
    ∃ m', N.storeEntry (w + 4 * i) (.mapTo f) = .ok { N with memory := m' } ∧
    Simulates { N with memory := m' } t (some { d with pde := Function.update d.pde i (.mapTo f) }) known := by
  have hi' := (isUserTable_ne hi).2
  have hd := h.simulates.describes
  have hdirs : OtherDir t (some d) t.dirsNum i d { d with pde := Function.update d.pde i (.mapTo f) } t
      (some { d with pde := Function.update d.pde i (.mapTo f) }) :=
    otherDir_made hi rfl (fun j hj => Function.update_of_ne hj _ _) fun _ _ => rfl
  have hslot : tableFrame t (some d) (t.dirsNum, 769) = some d.frame := tableFrame_dir hdirs.before
  have hne : f ≠ d.frame := fun heq => h.reserved.table (.inl ⟨_, heq ▸ hslot⟩)
  have hlt := h.reserved.lt
  have hpde : (Function.update d.pde i (Pte.mapTo f)) i = .mapTo f := Function.update_self ..
  have hwalk : PageWalk.walk N.memory N.cr3 (w + 4 * i) = some (d.frame * 4096 + 4 * i) := by
    have hpage := hd.walk_page (o := 4 * i) (changeable_heap hw).lt (changeable_heap hw).window
      (h.simulates.kernel_present (isKernelTable_heap hw)) (by omega)
    rw [hentry] at hpage
    rw [h.simulates.cr3]
    have haddr : w / pageSize * 4096 + 4 * i = w + 4 * i := congrArg (· + 4 * i) haligned
    rw [haddr] at hpage
    exact hpage.trans (if_pos rfl)
  generalize hword : assignFields (read32 N.memory (d.frame * 4096 + 4 * i)) (.mapTo f) = word
  have hvalue : entryOf word = .mapTo f := by
    rw [← hword]
    exact entryOf_assignFields _ (by change f < 2 ^ 20; omega)
  have hbound : word < 2 ^ 32 := by
    rw [← hword]
    exact assignFields_lt _ _
  have hsame : SameBut d.frame N.memory (write32 N.memory (d.frame * 4096 + 4 * i) word) := sameBut_write32 hi'
  have hdescribes : Describes (write32 N.memory (d.frame * 4096 + 4 * i) word) t
      (some { d with pde := Function.update d.pde i (.mapTo f) }) known := by
    refine hd.setDir hdirs ?_ (fun g c hg hc => ?_) (fun _ => congrArg Pte.frame hpde) (fun _ => ?_) fun g hg => ?_
    · exact entriesIn_update (hd.tables _ _ (.directory _ d hdirs.before)) hbound hvalue
    · exact (hd.tables g c hc).congr hsame fun heq => hg _ (heq ▸ hslot) rfl
    · exact ⟨h.reserved.used, h.reserved.lt, h.reserved.table, h.reserved.unknown, h.contents.congr hsame hne⟩
    · obtain ⟨-, -, hnot, hbytes⟩ := hd.pages g hg
      exact hbytes.congr hsame fun heq => hnot (.inl ⟨_, heq ▸ hslot⟩)
  have hrun := storeEntry_eq (e := .mapTo f) hwalk
  rw [hword] at hrun
  exact ⟨_, hrun, hdescribes, h.simulates.phyFramesMap, h.simulates.size, h.simulates.ready, h.simulates.counts,
    h.simulates.dirsNum, h.simulates.crt, h.simulates.dirs, h.simulates.released⟩

/-! ## The loop over the page tables -/

/-- The page tables `done` are copied. The new directory lies in the frame `g`. -/
structure Copying (s : Paging) (known : Nat → Prop) (P : Finset Nat) (left taken faults : Nat) (heap : LentHeap) (g : Nat)
    (done : List Nat) (st : Paging × PageDir) (N : PhysicalPaging) : Prop where
  simulates : Simulates N st.1 (some st.2) known
  progress : Progress s P left taken faults st.1 N.pageFaults
  frame : st.2.frame = g
  entry : st.1.getPte (heap.copiedPageDir / pageSize) = .mapTo g
  present : ∀ i, isUserTable i → ((st.2.pde i).present = true ↔ i ∈ done ∧ (s.getPde i).present = true)

/-- One turn of the loop that copies the page tables. -/
theorem Copying.copyPageTable {heap : LentHeap} {st : Paging × PageDir} {done : List Nat}
    (h : Copying s known P (left + if (s.getPde i).present then 1 else 0) taken faults heap g done st N)
    (hi : isUserTable i) (hnot : i ∉ done) (hP : ∀ q ∈ P, IsHeapPage q)
    (hcount : ∀ q, isUserPage q → (s.getPte q).present = true → ∀ p ∈ heap.countPages q, p ∈ P) :
    Together (Paging.copyPageTable heap.toCloneHeap st i) (copyPageTable heap.toCloneHeap N i)
      (Copying s known P left (taken + if (s.getPde i).present then 1 else 0) faults heap g (done ++ [i])) := by
  obtain ⟨t, d⟩ := st
  have hi' := (isUserTable_ne hi).2
  have hpde : t.getPde i = s.getPde i := congrFun h.progress.pde i
  have hload : N.loadEntry (pdeAt i) = .ok (t.getPde i) := h.simulates.loadEntry_pde hi'
  have habsent : (d.pde i).present = false := Bool.eq_false_iff.mpr fun hp => hnot ((h.present i hi).mp hp).1
  have hotherSlot : ∀ j, isUserTable j → j ≠ i → ((d.pde j).present = true ↔ j ∈ done ++ [i] ∧ (s.getPde j).present = true) := by
    intro j hj hji
    rw [h.present j hj, List.mem_append, List.mem_singleton, or_iff_left hji]
  simp only [Paging.copyPageTable, PhysicalPaging.copyPageTable, hload, bind, Except.bind, hpde]
  by_cases hpresent : (s.getPde i).present = true
  · simp only [hpresent, Bool.not_true, Bool.false_eq_true, if_false, if_true]
    have hsim : Simulates N t (some d) known := h.simulates
    have hprogress : Progress s P (left + 1) taken faults t N.pageFaults := by
      have hall := h.progress
      rwa [if_pos hpresent] at hall
    have hdir : t.getPte (heap.copiedPageDir / pageSize) = .mapTo d.frame := by
      have hframe : d.frame = g := h.frame
      rw [hframe]
      exact h.entry
    have hroom := hprogress.room
    obtain ⟨f, hf, ha, hN, htaken⟩ := hsim.allocate (by omega) .noFrameForCopiedPageTable
    have hpos := hprogress.frame_pos hf
    obtain ⟨m₁, hmap, hmap', -, hmapped⟩ := htaken.mapLent heap.copiedPageTable_heap hpos hf.lt
    have hprogress' := (hprogress.allocate hf).setPte_heap heap.copiedPageTable_heap f
    have hreserved := hf.reserved.setPte (p := heap.copiedPageTable / pageSize) (e := .mapTo f) hsim.describes.crt_lt
    have hentry : (({ t with phyFramesMap := t.phyFramesMap.setBit f } : Paging).setPte (heap.copiedPageTable / pageSize)
        (.mapTo f)).getPte (heap.copiedPageDir / pageSize) = .mapTo d.frame := by
      rw [getPte_setPte_of_ne heap.distinct]
      exact hdir
    have hself : (({ t with phyFramesMap := t.phyFramesMap.setBit f } : Paging).setPte (heap.copiedPageTable / pageSize)
        (.mapTo f)).getPte (heap.copiedPageTable / pageSize) = .mapTo f := getPte_setPte_self
    have hpde' := hprogress'.pde
    have hsize : Paging.pageSize = pageSize := rfl
    rw [hsize] at hprogress' hpde'
    generalize ({ t with phyFramesMap := t.phyFramesMap.setBit f } : Paging).setPte (heap.copiedPageTable / pageSize)
        (.mapTo f) = u at *
    have hpresent' : (u.getPde i).present = true := by
      rw [hpde']
      exact hpresent
    obtain ⟨m₂, hcopy, hlent⟩ := hmapped.copyLent hreserved heap.copiedPageTable_heap heap.copiedPageTable_aligned hself hi'
      (isUserTable_ne hi).1 hpresent'
    have huser : ∀ j < 1024, isUserPage (i * 1024 + j) := by
      intro j hj
      have hindex : (i * 1024 + j) / 1024 = i := by omega
      rw [← Paging.isUserTable_div, hindex]
      exact hi
    have hcopied : ∀ j < 1024, (if (i * 1024 + j) / 1024 = i then u.crtDir.pte (i * 1024 + j) else d.pte (i * 1024 + j)) =
        u.getPte (i * 1024 + j) := by
      intro j hj
      rw [if_pos (by omega), Paging.getPte_user (huser j hj)]
    have hremade := (hlent.remake (w := { d with pte := fun p => if p / 1024 = i then u.crtDir.pte p else d.pte p }) hi habsent
      rfl rfl fun q hq => if_neg hq).of_eq hcopied
    have hstart : Marking s known P left (taken + 1) faults heap.copiedPageDir heap.copiedPageTable f i d
        (u, { d with pte := fun p => if p / 1024 = i then u.crtDir.pte p else d.pte p })
        { N with
          phyFramesMap := t.phyFramesMap.setBit f
          memory := m₂ } :=
      ⟨hremade, hprogress', rfl, rfl, fun j hj => (congrArg Pte.present (hcopied j hj)).trans (hprogress'.present _ (huser j hj)),
        hentry⟩
    have hloop := together_foldlM (I := fun _ => Marking s known P left (taken + 1) faults heap.copiedPageDir
      heap.copiedPageTable f i d) (l := List.range 1024) (f := Paging.markCopyOnWrite heap.toCloneHeap i)
      (g := PhysicalPaging.markCopyOnWrite heap.toCloneHeap i) hstart fun done j rest st N' hsplit hst => by
        have hj : j ∈ List.range 1024 := by
          rw [hsplit]
          exact List.mem_append_right _ List.mem_cons_self
        exact hst.mark hi hpresent habsent heap.copiedPageDir_heap hP hcount (List.mem_range.mp hj)
    obtain ⟨⟨v, d'⟩, hrun, N', hrun', hmarked⟩ := hloop
    have hframe : d'.frame = d.frame := hmarked.frame
    have hpde'' : d'.pde = d.pde := hmarked.pde
    have hentry' : v.getPte (heap.copiedPageDir / pageSize) = .mapTo d'.frame := by
      rw [hframe]
      exact hmarked.entry
    obtain ⟨m₃, hstore, hdone⟩ := hmarked.lent.attach hi heap.copiedPageDir_heap heap.copiedPageDir_aligned hentry'
    have hall : List.range' 0 (1024 - 0) = List.range 1024 := List.range_eq_range'.symm
    refine ⟨(v, { d' with pde := Function.update d'.pde i (.mapTo f) }), ?_, { N' with memory := m₃ }, ?_, hdone, ?_,
      hframe.trans h.frame, ?_, fun j hj => ?_⟩
    · simp only [ha, hmap, hpos.ne', if_false, hrun]
    · simp only [hN, hmap', hcopy, forRange, hall, hrun', hstore]
    · exact hmarked.progress
    · exact hentry'.trans (congrArg Pte.mapTo (hframe.trans h.frame))
    · by_cases hji : j = i
      · subst hji
        simp only [Function.update_self, List.mem_append, List.mem_singleton, or_true, hpresent, and_self]
        exact iff_of_true rfl trivial
      · simp only [Function.update_of_ne hji, hpde'']
        exact hotherSlot j hj hji
  · have hskip : (!(s.getPde i).present) = true := by simpa using hpresent
    rw [if_pos hskip, if_pos hskip]
    have hprogress : Progress s P left taken faults t N.pageFaults := by
      have hall := h.progress
      rwa [if_neg hpresent, Nat.add_zero] at hall
    rw [if_neg hpresent, Nat.add_zero]
    refine together_ok ⟨h.simulates, hprogress, h.frame, h.entry, fun j hj => ?_⟩
    by_cases hji : j = i
    · subst hji
      exact ⟨fun hp => (Bool.false_ne_true (habsent.symm.trans hp)).elim, fun hp => (hpresent hp.2).elim⟩
    · exact hotherSlot j hj hji

end LuckOS.PhysicalPaging
