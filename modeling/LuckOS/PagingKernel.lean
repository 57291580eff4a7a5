import LuckOS.PagingStore

/-!
# Kernel-half mappings

Mapping, touching and unmapping pages of the kernel half keeps the user half: each of
these operations is a `KernelStep`.
-/

namespace LuckOS.Paging

open CopyOnWrite Outcome

/-- A page of the kernel half of the address space. -/
def IsKernelPage (p : Nat) : Prop := p < 2 ^ 20 ∧ ¬ isUserPage p

theorem IsHeapPage.kernel {p : Nat} (h : IsHeapPage p) : IsKernelPage p := by
  simp only [IsHeapPage, kheapStart, kheapMax, pageSize] at h
  simp only [IsKernelPage, isUserPage, decide_eq_true_eq]
  omega

theorem isKernelPage_copiedPage : IsKernelPage (copiedPageVaddr / pageSize) := by
  simp [IsKernelPage, copiedPageVaddr, pageSize, isUserPage]

variable {s t : Paging}

theorem getPte_kernel {p : Nat} (hp : IsKernelPage p) : s.getPte p = s.kernelPte p := by
  simp [getPte, hp.2]

theorem setPte_kernel {p : Nat} (hp : IsKernelPage p) (e : Pte) :
    s.setPte p e = { s with kernelPte := Function.update s.kernelPte p e } := by
  simp [setPte, hp.2]

theorem kernelStep_setPte {p : Nat} (hp : IsKernelPage p) {e : Pte} (he : e.present → e.rw) :
    KernelStep s (s.setPte p e) := by
  rw [setPte_kernel hp]
  refine ⟨rfl, rfl, rfl, rfl, rfl, rfl, rfl, fun _ h => h, fun _ _ => rfl, fun hk q => ?_⟩
  by_cases hq : q = p
  · subst hq
    simpa using he
  · simpa [hq] using hk q

/-- What the kernel half needs of a state. -/
structure KernelReady (s : Paging) : Prop where
  kernel_pde : ∀ i, i < 1024 → ¬ isUserTable i → (s.getPde i).present
  kernel_rw : ∀ p, (s.kernelPte p).present → (s.kernelPte p).rw
  size : s.phyFramesMap.sizes = (256, 256)

theorem Wf.kernelReady (hs : s.Wf) : s.KernelReady := ⟨hs.kernel_pde _ hs.crt_lt, hs.kernel_rw, hs.size⟩

theorem KernelReady.kernelStep (hs : s.KernelReady) (h : KernelStep s t) : t.KernelReady where
  kernel_pde := by
    simp only [getPde, crtDir, h.dirs, h.crt]
    exact hs.kernel_pde
  kernel_rw := h.kernel_rw hs.kernel_rw
  size := h.size.trans hs.size

theorem KernelReady.pde_present (hs : s.KernelReady) {p : Nat} (hp : IsKernelPage p) :
    (s.getPde (p / 1024)).present := by
  apply hs.kernel_pde
  · have h := hp.1
    omega
  · rw [isUserTable_div]
    exact hp.2

theorem ensurePageTable_present {i : Nat} (h : (s.getPde i).present) : s.ensurePageTable i = .ok s := by
  simp [ensurePageTable, h]

theorem div_table (virtualAddr : Nat) : virtualAddr / 2 ^ 22 = virtualAddr / pageSize / 1024 := by
  rw [Nat.div_div_eq_div_mul]
  rfl

/-- A given frame is mapped. -/
theorem mapPageWithFrameImpl_frame {virtualAddr : Nat} (hpde : (s.getPde (virtualAddr / pageSize / 1024)).present)
    (depth : Nat) {f : Nat} (hf : 0 < f) :
    s.mapPageWithFrameImpl (depth + 1) virtualAddr f = .ok (s.setPte (virtualAddr / pageSize) (.mapTo f)) := by
  have hpos : (0 : Int) < f := by exact_mod_cast hf
  rw [mapPageWithFrameImpl, div_table, ensurePageTable_present hpde]
  simp only [bind, Except.bind, hpos, if_true]
  rfl

/-- Without a frame a new one is taken, unless the page is mapped. -/
theorem mapPageWithFrameImpl_kernel (hs : s.KernelReady) {virtualAddr : Nat} (hp : IsKernelPage (virtualAddr / pageSize))
    (depth : Nat) {frame : Int} (hframe : ¬ 0 < frame) :
    Ensures Panic.OutOfFrames (s.mapPageWithFrameImpl (depth + 1) virtualAddr frame) (KernelStep s) := by
  rw [mapPageWithFrameImpl, div_table, ensurePageTable_present (hs.pde_present hp)]
  simp only [bind, Except.bind, hframe, if_false]
  rw [show virtualAddr / 2 ^ 12 = virtualAddr / pageSize from rfl, getPte_kernel hp]
  cases hpresent : (s.kernelPte (virtualAddr / pageSize)).present with
  | true =>
    have hrw := hs.kernel_rw _ hpresent
    simpa [hrw] using KernelStep.refl s
  | false =>
    simp only [Bool.not_false, if_true]
    cases ha : s.allocatePhyFrame with
    | none => simp [Panic.OutOfFrames]
    | some r =>
      obtain ⟨f, t⟩ := r
      obtain ⟨hstep, hfree, -⟩ := allocatePhyFrame_spec hs.size ha
      have hset := kernelStep_setPte (s := t) hp (e := .mapTo f) (fun _ => rfl)
      have hu := hstep.trans hset
      simp only [ensures_ok]
      refine ⟨hu.dirs, hu.dirsNum, hu.crt, hu.ready, hu.counts, hu.released, hu.size, hu.used, ?_, hu.kernel_rw⟩
      intro g hg
      have hget : (t.setPte (virtualAddr / pageSize) (.mapTo f)).getPte (virtualAddr / pageSize) = .mapTo f := by
        rw [getPte_kernel hp, setPte_kernel hp]
        simp
      have hne : g ≠ f := by
        rintro rfl
        simp [hfree] at hg
      rw [clearPage, hget]
      simp only [Pte.mapTo, Function.update_of_ne hne]
      exact hu.bytes g hg

theorem mapPageWithFrame_kernel (hs : s.KernelReady) {virtualAddr : Nat} (hp : IsKernelPage (virtualAddr / pageSize))
    (frame : Nat) : Ensures Panic.OutOfFrames (s.mapPageWithFrame virtualAddr frame) (KernelStep s) := by
  rcases Nat.eq_zero_or_pos frame with rfl | hpos
  · exact mapPageWithFrameImpl_kernel hs hp 1 (by simp)
  · rw [mapPageWithFrame, mapPageWithFrameImpl_frame (hs.pde_present hp) 1 hpos]
    exact kernelStep_setPte hp (fun _ => rfl)

theorem touchPage_spec (hs : s.KernelReady) {p : Nat} (hp : IsKernelPage p) :
    Ensures Panic.OutOfFrames (s.touchPage p) (KernelStep s) := by
  have hdiv : p * pageSize / pageSize * pageSize / pageSize = p := by
    simp [pageSize]
  rw [touchPage]
  split_ifs
  · exact KernelStep.refl s
  · rw [pageFaultHandler, mapPage, mapPageWithFrame]
    exact mapPageWithFrameImpl_kernel hs (by rw [hdiv]; exact hp) 1 (by simp)

/-- A kernel page that is not present gets a new frame. -/
theorem touchPage_absent (hs : s.KernelReady) (hp : IsKernelPage p) (habsent : (s.kernelPte p).present = false) :
    s.touchPage p = s.allocatePhyFrame.elim (.error (.noFrameForAddr (p * pageSize))) fun r =>
      .ok ((r.2.setPte p (.mapTo r.1)).clearPage (p * pageSize)) := by
  have hdiv : p * pageSize / pageSize = p := by
    simp [pageSize]
  rw [touchPage, getPte_kernel hp, habsent, pageFaultHandler, mapPage, mapPageWithFrame, mapPageWithFrameImpl,
    div_table, hdiv, hdiv, ensurePageTable_present (hs.pde_present hp)]
  rw [show p * pageSize / 2 ^ 12 = p from hdiv]
  simp only [bind, Except.bind, Bool.false_eq_true, if_false, show ¬ (0 : Int) < -1 by decide, getPte_kernel hp,
    habsent, Bool.not_false, if_true]
  cases s.allocatePhyFrame with
  | none => rfl
  | some r => rfl

theorem touchPages_spec (hs : s.KernelReady) {pages : List Nat} (hp : ∀ p ∈ pages, IsHeapPage p) :
    Ensures Panic.OutOfFrames (s.touchPages pages) (KernelStep s) := by
  refine ensures_foldlM (I := fun _ t => KernelStep s t) (KernelStep.refl s) ?_
  intro done p rest t hpages hstep
  have hmem : p ∈ pages := by simp [hpages]
  exact (touchPage_spec (hs.kernelStep hstep) (hp p hmem).kernel).mono fun u hu => hstep.trans hu

/-- Releasing one page is one call of `release_page`, if the page has a table. -/
theorem releasePages_one {virtualAddr : Nat} (hp : virtualAddr / pageSize < 2 ^ 20) (freeFrame : Bool) :
    s.releasePages virtualAddr 1 freeFrame =
      if (s.getPde (virtualAddr / pageSize / 1024)).present then
        s.releasePage (virtualAddr / pageSize * pageSize) freeFrame
      else s := by
  have hend : u32 (virtualAddr / pageSize + 1) = virtualAddr / pageSize + 1 := by
    rw [u32, Nat.mod_eq_of_lt (by omega)]
  have hlast : u32 (virtualAddr / pageSize + 1 + (2 ^ 32 - 1)) = virtualAddr / pageSize := by
    rw [u32, Nat.add_assoc, show 1 + (2 ^ 32 - 1) = 2 ^ 32 from rfl, Nat.add_mod_right, Nat.mod_eq_of_lt (by omega)]
  have hmax : max (virtualAddr / pageSize) (virtualAddr / pageSize / 1024 * 1024) = virtualAddr / pageSize := by
    omega
  have hmin : min (virtualAddr / pageSize + 1) (virtualAddr / pageSize / 1024 * 1024 + 1024) =
      virtualAddr / pageSize + 1 := by
    omega
  simp only [releasePages, hend, hlast, forRange, Nat.add_sub_cancel_left, List.range'_one, List.foldl_cons,
    List.foldl_nil, hmax, hmin]
  cases (s.getPde (virtualAddr / pageSize / 1024)).present <;> simp

theorem releasePages_kernel (hs : s.KernelReady) {virtualAddr : Nat} (hp : IsKernelPage (virtualAddr / pageSize)) :
    KernelStep s (s.releasePages virtualAddr 1 false) := by
  have hdiv : virtualAddr / pageSize * pageSize / pageSize = virtualAddr / pageSize := by
    simp [pageSize]
  rw [releasePages_one hp.1, if_pos (hs.pde_present hp), releasePage, hdiv]
  cases (s.getPte (virtualAddr / pageSize)).present with
  | false => exact KernelStep.refl s
  | true => exact kernelStep_setPte hp (by simp [Pte.zero])

end LuckOS.Paging
