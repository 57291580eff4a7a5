import LuckOS.PhysicalFaults

/-!
# Page faults of the kernel heap in physical memory

An access to a page of the heap takes a frame when the page is not mapped, and each page once. The
frames that are free below the tables of the kernel and the pages of a set that are not mapped go down
together.
-/

namespace LuckOS.PhysicalPaging

open ByteMemory PageWalk BootLoader FrameContents Outcome
open Paging (Pte PageDir KernelStep KernelReady IsHeapPage)

/-- The number of pages that are not mapped. -/
def unmapped (s : Paging) (pages : Finset Nat) : Nat := (pages.filter fun p => (s.getPte p).present = false).card

variable {M N : PhysicalPaging} {m m' : Memory} {s t u : Paging} {made : Option PageDir} {known : Nat → Prop}
  {P : Finset Nat} {e : Pte} {f g p q v : Nat}

theorem changeable_heap (hp : IsHeapPage p) : Changeable p := by
  simp only [IsHeapPage, Paging.kheapStart, Paging.kheapMax, Paging.pageSize] at hp
  exact changeable_kernel (by omega) (by omega)

theorem isKernelTable_heap (hp : IsHeapPage p) : IsKernelTable (p / 1024) := by
  simp only [IsHeapPage, Paging.kheapStart, Paging.kheapMax, Paging.pageSize] at hp
  exact isKernelTable_of (by omega) (by omega)

theorem unmapped_pos (hp : p ∈ P) (habsent : (s.getPte p).present = false) : 0 < unmapped s P :=
  Finset.card_pos.mpr ⟨p, Finset.mem_filter.mpr ⟨hp, habsent⟩⟩

/-- A page of the set is mapped. -/
theorem unmapped_mapped (hp : p ∈ P) (habsent : (s.getPte p).present = false) (hpresent : (t.getPte p).present = true)
    (hother : ∀ q, q ≠ p → t.getPte q = s.getPte q) : unmapped t P + 1 = unmapped s P := by
  have hmem : p ∈ P.filter fun p => (s.getPte p).present = false := Finset.mem_filter.mpr ⟨hp, habsent⟩
  have hset : (P.filter fun p => (t.getPte p).present = false) =
      (P.filter fun p => (s.getPte p).present = false).erase p := by
    ext q
    rw [Finset.mem_erase, Finset.mem_filter, Finset.mem_filter]
    by_cases hq : q = p
    · rw [hq, hpresent]
      simp
    · rw [hother q hq]
      exact (and_iff_right hq).symm
  rw [unmapped, unmapped, hset, Finset.card_erase_of_mem hmem]
  have := Finset.card_pos.mpr ⟨p, hmem⟩
  omega

/-- What accesses to pages of the set have done. -/
structure Touched (M : PhysicalPaging) (s : Paging) (made : Option PageDir) (known : Nat → Prop) (P : Finset Nat)
    (t : Paging) (N : PhysicalPaging) : Prop where
  simulates : Simulates N t made known
  step : KernelStep s t
  entries : ∀ q, (s.getPte q).present = true → t.getPte q = s.getPte q
  balance : t.phyFramesMap.freeBelow 0x100 + unmapped s P = s.phyFramesMap.freeBelow 0x100 + unmapped t P
  faults : t.phyFramesMap.freeBelow 8192 + N.pageFaults = s.phyFramesMap.freeBelow 8192 + M.pageFaults
  kept : ∀ g < 0x100, s.phyFramesMap.testBit g = true → BytesIn N.memory g fun o => M.memory (g * 4096 + o)

theorem Touched.refl (h : Simulates M s made known) : Touched M s made known P s M :=
  ⟨h, .refl s, fun _ _ => rfl, rfl, rfl, fun _ _ _ _ _ => rfl⟩

theorem Touched.trans {N' : PhysicalPaging} (h : Touched M s made known P t N) (h' : Touched N t made known P u N') :
    Touched M s made known P u N' where
  simulates := h'.simulates
  step := h.step.trans h'.step
  entries q hq := by
    have hfirst := h.entries q hq
    rw [h'.entries q (by rw [hfirst]; exact hq), hfirst]
  balance := by
    have hfirst := h.balance
    have hsecond := h'.balance
    omega
  faults := by
    have hfirst := h.faults
    have hsecond := h'.faults
    omega
  kept g hlt hused o ho := (h'.kept g hlt (h.step.used g hused) o ho).trans (h.kept g hlt hused o ho)

namespace Simulates

/-- The processor finds a page of the heap where the state maps it. -/
theorem walk_heap (h : Simulates M s made known) (hp : IsHeapPage p) :
    (walk M.memory M.cr3 (p * pageSize)).isSome = (s.getPte p).present := by
  have hpage := changeable_heap hp
  have hwalk := h.describes.walk_page (o := 0) hpage.lt hpage.window (h.kernel_present (isKernelTable_heap hp)) (by decide)
  have haddr : p * pageSize = p * 4096 + 0 := (Nat.add_zero _).symm
  rw [h.cr3, haddr, hwalk]
  split_ifs with hpresent
  · exact hpresent.symm
  · exact (Bool.eq_false_iff.mpr hpresent).symm

theorem touchPage (h : Simulates M s made known) (hs : s.KernelReady) (hp : IsHeapPage p) (hmem : p ∈ P)
    (hfree : unmapped s P ≤ s.phyFramesMap.freeBelow 0x100) :
    Together (s.touchPage p) (M.touchPage p) (Touched M s made known P) := by
  cases hpresent : (s.getPte p).present with
  | true =>
    rw [Paging.touchPage, PhysicalPaging.touchPage, h.walk_heap hp, hpresent]
    exact together_ok (.refl h)
  | false =>
    have hpage := changeable_heap hp
    have hdiv : p * pageSize / pageSize = p := Nat.mul_div_cancel p (by decide)
    have htable := h.kernel_present (isKernelTable_heap hp)
    have hpos := unmapped_pos hmem hpresent
    obtain ⟨f, m', hf, hrun, hrun', hkept, hsim⟩ := h.mapAbsent (v := p * pageSize) (by rw [hdiv]; exact hpage)
      (by rw [hdiv]; exact htable) (by rw [hdiv]; exact hpresent) (by omega) 1
    have hs' : s.touchPage p = .ok (mapped s (p * pageSize) f) := by
      rw [Paging.touchPage, hpresent, if_neg Bool.false_ne_true, Paging.pageFaultHandler]
      change s.mapPageWithFrameImpl 2 (p * pageSize / pageSize * pageSize) (-1) = _
      rw [hdiv]
      exact hrun
    have hself : (mapped s (p * pageSize) f).getPte p = .mapTo f := by
      have hmapped := getPte_mapped (s := s) (v := p * pageSize) f
      rwa [hdiv] at hmapped
    have hother : ∀ q, q ≠ p → (mapped s (p * pageSize) f).getPte q = s.getPte q := by
      intro q hq
      exact getPte_setPte_of_ne (hdiv.symm ▸ hq)
    have hmap : (mapped s (p * pageSize) f).phyFramesMap = s.phyFramesMap.setBit f := phyFramesMap_setPte
    have hbelow : (s.phyFramesMap.setBit f).freeBelow 8192 + 1 = s.phyFramesMap.freeBelow 8192 :=
      Bitmap.freeBelow_taken (by have := hf.lt; omega) hf.free hf.test
    refine ⟨_, hs', { M with
      phyFramesMap := s.phyFramesMap.setBit f
      memory := m'
      pageFaults := M.pageFaults + 1 }, ?_, ?_, ?_, fun q hq => ?_, ?_, ?_, fun g hlt hused => ?_⟩
    · rw [PhysicalPaging.touchPage, h.walk_heap hp, hpresent, if_neg Bool.false_ne_true, pageFaultHandler, mapPage,
        mapPageWithFrame, hdiv, hrun']
      rfl
    · have hweak : Simulates _ _ made known := hsim.weaken fun g hg => .inr hg
      exact ⟨hweak.describes, hweak.phyFramesMap, hweak.size, hweak.ready, hweak.counts, hweak.dirsNum, hweak.crt, hweak.dirs,
        hweak.released⟩
    · exact (Paging.touchPage_spec hs hp.kernel).of_ok hs'
    · refine hother q ?_
      rintro rfl
      rw [hpresent] at hq
      cases hq
    · rw [hmap]
      have hleft := hf.left
      have hcard := unmapped_mapped hmem hpresent (by rw [hself]; rfl) hother
      omega
    · rw [hmap]
      change (s.phyFramesMap.setBit f).freeBelow 8192 + (M.pageFaults + 1) = _
      omega
    · have hrange := kernelTable_range (isKernelTable_heap hp)
      have hpde : s.getPde (p / 1024) = .mapTo (kernelTable (p / 1024)) :=
        h.describes.kernelPde _ _ h.describes.crtDir_dirAt _ (isKernelTable_heap hp)
      refine hkept g ?_ ?_
      · rw [hdiv, hpde]
        change g ≠ kernelTable (p / 1024)
        omega
      · rintro rfl
        rw [hf.free] at hused
        cases hused

/-- Accesses to pages of the heap, while enough frames are free for those that are not mapped. -/
theorem touchPages (h : Simulates M s made known) (hs : s.KernelReady) {pages : List Nat} (hp : ∀ p ∈ pages, IsHeapPage p)
    (hmem : ∀ p ∈ pages, p ∈ P) (hfree : unmapped s P ≤ s.phyFramesMap.freeBelow 0x100) :
    Together (s.touchPages pages) (M.touchPages pages) (Touched M s made known P) := by
  refine together_foldlM (I := fun _ => Touched M s made known P) (.refl h) ?_
  intro done p rest t N hsplit ht
  have hin : p ∈ pages := by
    rw [hsplit]
    exact List.mem_append_right done List.mem_cons_self
  have hbalance := ht.balance
  exact (ht.simulates.touchPage (hs.kernelStep ht.step) (hp p hin) (hmem p hin) (by omega)).mono fun u N' hu => ht.trans hu

end Simulates

/-- The number of frames that accesses to pages of the heap take. -/
def heapFrames (s : PhysicalPaging) (pages : List Nat) : Nat :=
  (pages.toFinset.filter fun p => (walk s.memory s.cr3 (p * pageSize)).isNone).card

theorem Simulates.heapFrames_eq (h : Simulates M s made known) {pages : List Nat} (hp : ∀ p ∈ pages, IsHeapPage p) :
    M.heapFrames pages = unmapped s pages.toFinset := by
  refine congrArg Finset.card (Finset.filter_congr fun p hmem => ?_)
  rw [Option.isNone_iff_eq_none, ← Option.not_isSome_iff_eq_none, h.walk_heap (hp p (List.mem_toFinset.mp hmem)),
    Bool.not_eq_true]

/-- Page faults of the heap between two operations. -/
theorem Represents.touchPages (h : Represents M s) {pages : List Nat} (hp : ∀ p ∈ pages, IsHeapPage p)
    (hfree : M.heapFrames pages ≤ M.phyFramesMap.freeBelow 0x100) :
    Together (s.touchPages pages) (M.touchPages pages) fun t N => Represents N t := by
  rw [h.simulates.heapFrames_eq hp, h.simulates.phyFramesMap] at hfree
  refine (h.simulates.touchPages h.wf.kernelReady hp (fun p hmem => List.mem_toFinset.mpr hmem) hfree).mono fun t N ht => ?_
  refine ⟨h.wf.kernelStep ht.step, ht.simulates.weaken fun g hg => ?_⟩
  rw [Paging.isMapped_iff, ht.step.refs] at hg
  exact Paging.isMapped_iff.mpr hg

end LuckOS.PhysicalPaging
