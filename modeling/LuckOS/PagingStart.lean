import LuckOS.FreeFrames
import LuckOS.PagingBoot

/-!
# States that are written out

The state behind `init_paging`, and behind the first accesses to consecutive pages of the kernel heap while
consecutive frames are free.
-/

namespace LuckOS.Paging

variable {s t : Paging} {bytes : Nat → Nat → Byte} {n page frame p f : Nat} {b : Bitmap}

theorem bitmap_eq {a b : Bitmap} (harray : a.array = b.array) (halloc : a.allocArray = b.allocArray)
    (hsize : a.arraySize = b.arraySize) (htotal : a.totalBits = b.totalBits) : a = b := by
  cases a
  cases b
  simp only at harray halloc hsize htotal
  subst harray halloc hsize htotal
  rfl

/-! ## The state behind `init_paging` -/

/-- The frame bitmap with the frame of the kernel stack as the only one in use. -/
def stackBitmap : Bitmap where
  array := List.replicate 255 0 ++ [0x80000000]
  allocArray := false
  arraySize := 256
  totalBits := 8192
  size_le := by
    rw [List.length_append, List.length_replicate]
    exact Nat.le_refl 256

/-- `init_paging`, when the first `n` pages of the kernel binary are released. -/
def releasedBinary (bytes : Nat → Nat → Byte) (n : Nat) : Paging :=
  { loaderPaging bytes with
    phyFramesMap := stackBitmap
    kernelPte := fun p => if 0xFFF00 ≤ p ∧ p < 0xFFF00 + n then .zero else loaderPte p
    released := (List.range' 7935 n).reverse }

theorem create_stackBitmap :
    (Bitmap.create (some reservedBitarray) (physicalMemSize / pageSize)).setBit (physicalMemSize / pageSize - 1) =
      stackBitmap := by
  have harray : ((Bitmap.create (some reservedBitarray) (physicalMemSize / pageSize)).setBit
      (physicalMemSize / pageSize - 1)).array = stackBitmap.array := by decide +kernel
  exact bitmap_eq harray rfl rfl rfl

theorem stackBitmap_free (hf : f < 8191) : stackBitmap.testBit f = false := by
  have hused := (initial_created fun _ _ => 0).used f (by omega)
  rw [create_stackBitmap] at hused
  rw [hused, decide_eq_false_iff_not]
  omega

/-- The next page of the binary is released. -/
theorem releasePage_binary (hn : n < 256) :
    (releasedBinary bytes n).releasePage ((0xFFF00 + n) * pageSize) true = releasedBinary bytes (n + 1) := by
  have hkernel : IsKernelPage (0xFFF00 + n) := ⟨by omega, by
    rw [isUserPage, decide_eq_true_eq]
    omega⟩
  have hpte : (releasedBinary bytes n).kernelPte (0xFFF00 + n) = .mapTo (7935 + n) := by
    rw [releasedBinary]
    simp only
    rw [if_neg (by omega), loaderPte_binary (by omega) (by omega)]
    exact congrArg Pte.mapTo (by omega)
  rw [releasePage_notReady rfl hkernel (by rw [hpte]; rfl), hpte, setPte_kernel hkernel, releasePhyFrame, releasedBinary,
    releasedBinary]
  simp only [Pte.mapTo]
  rw [Bitmap.clearBit_of_free (stackBitmap_free (by omega)), List.range'_concat, List.reverse_append]
  simp only [loaderPaging, Paging.mk.injEq, List.reverse_singleton, List.singleton_append, Nat.one_mul, and_true, true_and]
  funext p
  by_cases hp : p = 0xFFF00 + n
  · rw [hp, Function.update_self, if_pos (by omega)]
  · rw [Function.update_of_ne hp]
    exact if_congr (by omega) rfl rfl

theorem releaseBinary_eq (hn : n ≤ 256) :
    (List.range' 0xFFF00 n).foldl (fun s p => s.releasePage (p * pageSize) true) (releasedBinary bytes 0) =
      releasedBinary bytes n := by
  induction n with
  | zero => rfl
  | succ n ih =>
    rw [List.range'_concat, List.foldl_append, ih (by omega), Nat.one_mul]
    exact releasePage_binary hn

theorem initPaging_eq : initPaging (loaderPaging bytes) = releasedBinary bytes 256 := by
  have hfirst : (0xFFFFFFFF - kernelBinLoadSize + 1) / pageSize = 0xFFF00 := rfl
  have hlast : u32 (0xFFF00 + kernelBinLoadSize / pageSize) = 0x100000 := rfl
  have htable : u32 (0x100000 + (2 ^ 32 - 1)) / 1024 + 1 = 1024 := rfl
  have hpages : List.range' (0xFFF00 / 1024) (1024 - 0xFFF00 / 1024) = [1023] := rfl
  have hstart : { loaderPaging bytes with phyFramesMap := stackBitmap, crt := 0 } = releasedBinary bytes 0 := by
    rw [releasedBinary]
    simp only [loaderPaging, Paging.mk.injEq, true_and]
    refine ⟨?_, rfl⟩
    funext p
    rw [if_neg (by omega)]
  have hpresent : ((releasedBinary bytes 0).getPde 1023).present = true := rfl
  rw [initPaging, create_stackBitmap, hstart, releasePages, hfirst, hlast, htable, forRange, hpages, List.foldl_cons,
    List.foldl_nil, hpresent, if_neg (by decide)]
  exact releaseBinary_eq (Nat.le_refl 256)

/-! ## The growth of the heap -/

/-- The page takes the first free frame. -/
theorem touchPage_allocates (hs : s.KernelReady) (hp : IsKernelPage p) (habsent : (s.kernelPte p).present = false)
    (ha : s.phyFramesMap.allocateFirstFree = some (f, b)) : s.touchPage p = .ok { s with
      phyFramesMap := b
      kernelPte := Function.update s.kernelPte p (.mapTo f)
      bytes := Function.update s.bytes f fun _ => 0 } := by
  have hdiv : p * pageSize / pageSize = p := by
    simp [pageSize]
  rw [touchPage_absent hs hp habsent, allocatePhyFrame, ha, Option.map_some, Option.elim_some, setPte_kernel hp, clearPage,
    getPte_kernel (p := p * pageSize / pageSize) (by rw [hdiv]; exact hp)]
  simp only [hdiv, Function.update_self, Pte.mapTo]
/-- The heap pages from `page` on are mapped to the frames from `frame` on. -/
def mapFrom (s : Paging) (page frame n : Nat) : Paging :=
  { s with
    phyFramesMap := (List.range' frame n).foldl Bitmap.setBit s.phyFramesMap
    kernelPte := fun p => if page ≤ p ∧ p < page + n then .mapTo (frame + (p - page)) else s.kernelPte p
    bytes := fun f => if frame ≤ f ∧ f < frame + n then fun _ => 0 else s.bytes f }

theorem mapFrom_zero : s.mapFrom page frame 0 = s := by
  have hnone : ∀ a b : Nat, ¬ (a ≤ b ∧ b < a + 0) := fun a b h => by omega
  simp only [mapFrom, hnone, if_false, List.range'_zero, List.foldl_nil]

theorem mapFrom_succ : s.mapFrom page frame (n + 1) = { s.mapFrom page frame n with
    phyFramesMap := (s.mapFrom page frame n).phyFramesMap.setBit (frame + n)
    kernelPte := Function.update (s.mapFrom page frame n).kernelPte (page + n) (.mapTo (frame + n))
    bytes := Function.update (s.mapFrom page frame n).bytes (frame + n) fun _ => 0 } := by
  simp only [mapFrom, Paging.mk.injEq, true_and, and_true]
  refine ⟨?_, ?_, ?_⟩
  · rw [List.range'_concat, List.foldl_append, Nat.one_mul]
    rfl
  · funext p
    by_cases hp : p = page + n
    · rw [hp, Function.update_self, if_pos (by omega)]
      exact congrArg Pte.mapTo (by omega)
    · rw [Function.update_of_ne hp]
      exact if_congr (by omega) rfl rfl
  · funext f
    by_cases hf : f = frame + n
    · rw [hf, Function.update_self, if_pos (by omega)]
    · rw [Function.update_of_ne hf]
      exact if_congr (by omega) rfl rfl

theorem mapFrom_bitmap (hsize : s.phyFramesMap.sizes = (256, 256)) (hn : frame + n ≤ 8192) :
    (s.mapFrom page frame n).phyFramesMap.sizes = (256, 256) ∧
    ∀ f, (s.mapFrom page frame n).phyFramesMap.testBit f =
      (decide (frame ≤ f ∧ f < frame + n) || s.phyFramesMap.testBit f) := by
  induction n with
  | zero =>
    rw [mapFrom_zero]
    refine ⟨hsize, fun f => ?_⟩
    rw [decide_eq_false (by omega), Bool.false_or]
  | succ n ih =>
    obtain ⟨hsizes, htest⟩ := ih (by omega)
    have hlength : (s.mapFrom page frame n).phyFramesMap.array.length = 256 := congrArg Prod.snd hsizes
    rw [mapFrom_succ]
    refine ⟨(Bitmap.sizes_setBit _ _).trans hsizes, fun f => ?_⟩
    rw [Bitmap.testBit_setBit _ (by omega), htest, ← Bool.or_assoc, ← Bool.decide_or]
    exact congrArg (· || _) (decide_eq_decide.mpr (by omega))

/-- The frames from `frame` on are the first free ones, and none of the pages from `page` on is mapped. -/
structure CanMapFrom (s : Paging) (page frame n : Nat) : Prop where
  used : ∀ f < frame, s.phyFramesMap.testBit f = true
  free : ∀ f ∈ List.range' frame n, s.phyFramesMap.testBit f = false
  absent : ∀ p ∈ List.range' page n, (s.kernelPte p).present = false

instance : Decidable (s.CanMapFrom page frame n) :=
  decidable_of_iff ((∀ f < frame, s.phyFramesMap.testBit f = true) ∧
    (∀ f ∈ List.range' frame n, s.phyFramesMap.testBit f = false) ∧
    ∀ p ∈ List.range' page n, (s.kernelPte p).present = false)
    ⟨fun h => ⟨h.1, h.2.1, h.2.2⟩, fun h => ⟨h.used, h.free, h.absent⟩⟩

theorem CanMapFrom.of_succ (h : s.CanMapFrom page frame (n + 1)) : s.CanMapFrom page frame n := by
  refine ⟨h.used, fun f hf => h.free f ?_, fun p hp => h.absent p ?_⟩
  · rw [List.mem_range'_1] at hf ⊢
    omega
  · rw [List.mem_range'_1] at hp ⊢
    omega

/-- The first accesses to consecutive pages. -/
theorem touchPages_mapFrom (hs : s.KernelReady) (hheap : ∀ p ∈ List.range' page n, IsHeapPage p)
    (h : s.CanMapFrom page frame n) (hn : frame + n ≤ 8192) :
    s.touchPages (List.range' page n) = .ok (s.mapFrom page frame n) := by
  induction n with
  | zero =>
    rw [mapFrom_zero]
    rfl
  | succ n ih =>
    have hlast : page + n ∈ List.range' page (n + 1) := List.mem_range'_1.mpr (by omega)
    have hfirst := ih (fun p hp => hheap p (by rw [List.mem_range'_1] at hp ⊢; omega)) h.of_succ (by omega)
    have hready := hs.kernelStep ((touchPages_spec hs fun p hp => by
      rw [List.mem_range'_1] at hp
      exact hheap p (List.mem_range'_1.mpr (by omega))).of_ok hfirst)
    obtain ⟨hsizes, htest⟩ := @mapFrom_bitmap s n page frame hs.size (by omega)
    have hpage : ((s.mapFrom page frame n).kernelPte (page + n)).present = false := by
      rw [mapFrom]
      simp only
      rw [if_neg (by omega)]
      exact h.absent (page + n) hlast
    have harray : (s.mapFrom page frame n).phyFramesMap.arraySize = 256 := congrArg Prod.fst hsizes
    have hused : ∀ f < frame + n, (s.mapFrom page frame n).phyFramesMap.testBit f = true := by
      intro f hf
      rw [htest, Bool.or_eq_true, decide_eq_true_eq]
      by_cases hlow : f < frame
      · exact .inr (h.used f hlow)
      · exact .inl (by omega)
    have hfree : (s.mapFrom page frame n).phyFramesMap.testBit (frame + n) = false := by
      rw [htest, h.free (frame + n) (List.mem_range'_1.mpr (by omega)), decide_eq_false (by omega)]
      rfl
    have ha := Bitmap.allocateFirstFree_first (by omega) hused hfree
    rw [touchPages, List.range'_concat, List.foldlM_append, Nat.one_mul]
    rw [touchPages] at hfirst
    rw [hfirst]
    change (s.mapFrom page frame n).touchPages [page + n] = _
    rw [touchPages, List.foldlM_cons, touchPage_allocates hready (hheap _ hlast).kernel hpage ha, mapFrom_succ]
    rfl

end LuckOS.Paging
