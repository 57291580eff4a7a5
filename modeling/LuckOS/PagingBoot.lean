import LuckOS.PagingClone

/-!
# From the boot loader to the first process

The state that `main` leaves to the first process satisfies `Wf` and maps no user page.
The first page faults of the kernel heap take the frames 0 and 1, so that no later
allocation returns them.
-/

namespace LuckOS.Paging

open CopyOnWrite Outcome

variable {s t : Paging}

/-- The states during `init_paging`, up to the release of the loaded kernel binary. -/
structure Initial (s : Paging) : Prop where
  dirs : ∀ d, s.dirs d = loaderDir
  dirsNum : s.dirsNum = 1
  crt : s.crt = 0
  ready : s.copyOnWriteReady = false
  kernel : ∀ p, s.kernelPte p = .zero ∨ s.kernelPte p = loaderPte p
  size : s.phyFramesMap.sizes = (256, 256)
  used : ∀ f, f < 8192 → s.phyFramesMap.testBit f = decide (f = 8191)

theorem loaderPte_rw {p : Nat} (h : (loaderPte p).present) : (loaderPte p).rw := by
  rw [loaderPte] at h ⊢
  split_ifs at h ⊢ <;> first | rfl | cases h

theorem loaderDir_pde {i : Nat} (hi : i < 1024) : (loaderDir.pde i).present = !isUserTable i := by
  rw [loaderDir]
  simp only [isUserTable]
  by_cases h : i = 0 ∨ i = 768
  · have hk : ¬ (1 ≤ i ∧ i < 768) := by omega
    simp [h, hk, Pte.mapTo]
  · by_cases h' : 769 ≤ i ∧ i < 1024
    · have hk : ¬ (1 ≤ i ∧ i < 768) := by omega
      simp [h, h', hk, Pte.mapTo]
    · have hk : 1 ≤ i ∧ i < 768 := by omega
      simp [h, h', hk, Pte.zero]

/-- The frames of the loaded kernel binary. -/
theorem loaderPte_binary {p : Nat} (hp : 0xFFF00 ≤ p) (hp' : p < 0x100000) :
    loaderPte p = .mapTo (p - 0xFFF00 + 7935) := by
  have hlow : ¬ p < 256 := by omega
  have hlow' : ¬ (768 * 1024 ≤ p ∧ p < 768 * 1024 + 256) := by omega
  have himage : ¬ (0xC0800 ≤ p ∧ p < 0xC0900) := by omega
  have hstack : ¬ (0xEFFFF ≤ p ∧ p < 0xF0001) := by omega
  rw [loaderPte, if_neg hlow, if_neg hlow', if_neg himage, if_neg hstack, if_pos ⟨hp, hp'⟩]

theorem releasePage_notReady {p : Nat} (hready : s.copyOnWriteReady = false) (hp : IsKernelPage p)
    (hpresent : (s.kernelPte p).present) :
    s.releasePage (p * pageSize) true = (s.releasePhyFrame (s.kernelPte p).frame).setPte p .zero := by
  have hdiv : p * pageSize / pageSize = p := by
    simp [pageSize]
  rw [Paging.releasePage, hdiv, getPte_kernel hp, changeCowFrameRefcount, hready]
  simp [hpresent]

theorem Initial.releasePage (hs : s.Initial) {p : Nat} (hp : IsKernelPage p)
    (hframe : (loaderPte p).frame ≠ 8191) : (s.releasePage (p * pageSize) true).Initial := by
  by_cases hpresent : (s.kernelPte p).present
  · have hpte : s.kernelPte p = loaderPte p := by
      rcases hs.kernel p with h | h
      · simp [h, Pte.zero] at hpresent
      · exact h
    rw [releasePage_notReady hs.ready hp hpresent, setPte_kernel hp]
    refine ⟨hs.dirs, hs.dirsNum, hs.crt, hs.ready, ?_, (Bitmap.sizes_clearBit _ _).trans hs.size, ?_⟩
    · intro q
      by_cases hq : q = p
      · rw [hq]
        exact .inl (Function.update_self _ _ _)
      · simp only [Function.update_of_ne hq]
        exact hs.kernel q
    · intro f hf
      simp only [releasePhyFrame, Bitmap.testBit_clearBit, hs.used f hf, hpte]
      by_cases h : f = 8191
      · simp [h, Ne.symm hframe]
      · simp [h]
  · have hdiv : p * pageSize / pageSize = p := by
      simp [pageSize]
    rw [Paging.releasePage, hdiv, getPte_kernel hp, if_pos (by simp [hpresent])]
    exact hs

theorem sizes_reserved :
    (Bitmap.create (some reservedBitarray) (physicalMemSize / pageSize)).sizes = (256, 256) := by
  have hlength : reservedBitarray.length = 256 := by
    simp only [reservedBitarray, List.length_append, List.length_replicate]
    rfl
  have hwords : physicalMemSize / pageSize / 32 = 256 := rfl
  simp only [Bitmap.sizes, Bitmap.create, Bitmap.init, Bitmap.clearWords, hwords, Option.getD_some, List.length_append,
    List.length_replicate, List.length_drop, hlength]

/-- The state of `init_paging` with its new frame bitmap. -/
theorem initial_created (bytes : Nat → Nat → Byte) : Initial { loaderPaging bytes with
    phyFramesMap := (Bitmap.create (some reservedBitarray) (physicalMemSize / pageSize)).setBit
      (physicalMemSize / pageSize - 1)
    crt := 0 } := by
  refine ⟨fun _ => rfl, rfl, rfl, rfl, fun p => .inr rfl, (Bitmap.sizes_setBit _ _).trans sizes_reserved, ?_⟩
  intro f hf
  have hlen := (Bitmap.create (some reservedBitarray) (physicalMemSize / pageSize)).size_le
  have hwords : (Bitmap.create (some reservedBitarray) (physicalMemSize / pageSize)).arraySize = 256 := rfl
  have hlast : physicalMemSize / pageSize - 1 = 8191 := rfl
  have hzero : (Bitmap.create (some reservedBitarray) (physicalMemSize / pageSize)).testBit f = false :=
    Bitmap.testBit_init _ _ (by
      have htotal : physicalMemSize / pageSize / 32 = 256 := rfl
      omega)
  simp only [hlast]
  rw [Bitmap.testBit_setBit _ (by omega), hzero, Bool.or_false]

/-- After `init_paging` the kernel stack is the only frame in use. -/
theorem initPaging_initial (bytes : Nat → Nat → Byte) : (initPaging (loaderPaging bytes)).Initial := by
  have hstart := initial_created bytes
  have hfirst : (0xFFFFFFFF - kernelBinLoadSize + 1) / pageSize = 0xFFF00 := rfl
  have hlast : u32 (0xFFF00 + kernelBinLoadSize / pageSize) = 0x100000 := rfl
  have htable : u32 (0x100000 + (2 ^ 32 - 1)) / 1024 + 1 = 1024 := rfl
  rw [initPaging, releasePages, hfirst, hlast, htable, forRange]
  refine foldl_invariant (I := fun _ t => Initial t) hstart ?_
  intro done i rest t hsplit ht
  by_cases hpresent : (t.getPde i).present
  · rw [if_neg (by simp [hpresent]), forRange]
    refine foldl_invariant (I := fun _ t => Initial t) ht ?_
    intro visited p pages u hpages hu
    have hp : p ∈ List.range' (max 0xFFF00 (i * 1024)) (min 0x100000 (i * 1024 + 1024) - max 0xFFF00 (i * 1024)) := by
      simp [hpages]
    rw [List.mem_range'_1] at hp
    have hframe := loaderPte_binary (p := p) (by omega) (by omega)
    refine hu.releasePage ⟨by omega, ?_⟩ ?_
    · simp only [isUserPage, decide_eq_true_eq]
      omega
    · rw [hframe]
      change p - 0xFFF00 + 7935 ≠ 8191
      omega
  · rw [if_pos (by simp [hpresent])]
    exact ht

theorem Initial.kernelReady (hs : s.Initial) : s.KernelReady where
  kernel_pde i hi hk := by
    rw [getPde, crtDir, hs.dirs, loaderDir_pde hi]
    simpa using hk
  kernel_rw p hp := by
    rcases hs.kernel p with h | h
    · simp [h, Pte.zero] at hp
    · rw [h] at hp ⊢
      exact loaderPte_rw hp
  size := hs.size

/-- A fault on a missing kernel page takes the first free frame. -/
theorem touchPage_takes {p f : Nat} (hs : s.KernelReady) (hp : IsKernelPage p) (habsent : (s.kernelPte p).present = false)
    (hf : s.phyFramesMap.testBit f = false) (hbelow : ∀ m, m < f → s.phyFramesMap.testBit m = true) :
    Ensures Panic.OutOfFrames (s.touchPage p) (fun t =>
      (∀ g, t.phyFramesMap.testBit g = (decide (g = f) || s.phyFramesMap.testBit g)) ∧
      ∀ q, q ≠ p → t.kernelPte q = s.kernelPte q) := by
  rw [touchPage_absent hs hp habsent]
  cases ha : s.allocatePhyFrame with
  | none => trivial
  | some r =>
    obtain ⟨g, t⟩ := r
    obtain ⟨⟨n, b⟩, hn, he⟩ := Option.map_eq_some_iff.mp ha
    cases he
    have hbit := Bitmap.testBit_allocateFirstFree hn
    obtain ⟨hfind, rfl⟩ := Bitmap.allocateFirstFree_eq_some hn
    obtain ⟨-, hfree, hleast⟩ := Bitmap.findFirstFree_eq_some hfind
    have heq : n = f := by
      rcases Nat.lt_trichotomy n f with h | h | h
      · simp [hbelow n h] at hfree
      · exact h
      · simp [hleast f h] at hf
    subst heq
    refine ⟨fun g => ?_, fun q hq => ?_⟩
    · simpa [clearPage, setPte_kernel hp] using hbit g
    · simp [clearPage, setPte_kernel hp, hq]

/-- The states between two operations of the booted system. -/
structure Booted (s : Paging) : Prop where
  wf : s.Wf
  crt : s.crt = 0
  dirsNum : s.dirsNum = 1
  refs : ∀ x, s.refs x = none

theorem Initial.refs_eq_none (hs : s.Initial) (ht : KernelStep s t) (x : Nat × Nat) : t.refs x = none := by
  rw [ht.refs, refs, hs.dirs]
  simp [PageDir.ref, loaderDir, Pte.zero]

theorem Initial.booted (hs : s.Initial) (ht : KernelStep s t) (hzero : t.phyFramesMap.testBit 0 = true)
    (hone : t.phyFramesMap.testBit 1 = true) : Booted (initPagingStage2 t) := by
  have hrefs : ∀ x, (initPagingStage2 t).refs x = none := fun x => hs.refs_eq_none ht x
  have hsharers : ∀ f, (initPagingStage2 t).store.sharers f = ∅ := by
    intro f
    apply Set.eq_empty_of_forall_notMem
    rintro k ⟨w, hk⟩
    rw [store] at hk
    simp [hrefs k] at hk
  have hdirs : ∀ d, (initPagingStage2 t).dirs d = loaderDir := by
    intro d
    change t.dirs d = _
    rw [ht.dirs, hs.dirs]
  have hnum : (initPagingStage2 t).dirsNum = 1 := ht.dirsNum.trans hs.dirsNum
  have howner : ∀ x f, (initPagingStage2 t).owner x = some f →
      x = (0, 0) ∧ f = 0 ∨ x = (0, 768) ∧ f = 1 := by
    rintro ⟨d, j⟩ f hx
    simp only [owner, hnum, hdirs] at hx
    split_ifs at hx with h1 h2 h3 h4 h5
    · simp only [Option.some.injEq] at hx
      simp [h2, h3, ← hx]
    · omega
    · simp only [Option.some.injEq] at hx
      exact .inr ⟨h4, hx.symm⟩
    · obtain ⟨huser, hpresent⟩ := h5
      have hj : j < 1024 := by
        simp only [isUserTable, decide_eq_true_eq] at huser
        omega
      rw [loaderDir_pde hj, huser] at hpresent
      simp at hpresent
  refine ⟨⟨?_, rfl, ?_, ?_, ?_, ?_, ?_, ?_, ?_, ?_, ?_, ?_⟩, ht.crt.trans hs.crt, hnum, hrefs⟩
  · constructor
    · intro f
      rw [hsharers]
      exact Set.finite_empty
    · intro k r hk
      rw [store] at hk
      simp [hrefs k] at hk
    · intro f
      rw [hsharers]
      simp [store, cowCount, initPagingStage2]
    · intro k f hk
      rw [store] at hk
      simp [hrefs k] at hk
  · intro f c hc
    simp [initPagingStage2] at hc
  · rw [hnum]
    change t.crt < 1
    rw [ht.crt, hs.crt]
    exact Nat.zero_lt_one
  · intro d _ p _ hp
    rw [hdirs] at hp
    simp [loaderDir, Pte.zero] at hp
  · intro d _ i hi hk
    rw [hdirs, loaderDir_pde hi]
    simpa using hk
  · exact ht.kernel_rw hs.kernelReady.kernel_rw
  · exact ht.size.trans hs.size
  · intro x f hx
    rcases howner x f hx with ⟨-, rfl⟩ | ⟨-, rfl⟩
    · exact hzero
    · exact hone
  · intro x f _ k r hk
    simp [hrefs k] at hk
  · intro x y f hx hy
    rcases howner x f hx with ⟨rfl, rfl⟩ | ⟨rfl, rfl⟩ <;> rcases howner y _ hy with ⟨rfl, hf⟩ | ⟨rfl, hf⟩
    · rfl
    · simp at hf
    · simp at hf
    · rfl
  · intro k k' r r' hk
    simp [hrefs k] at hk

theorem Booted.kernelStep (hs : s.Booted) (ht : KernelStep s t) : t.Booted where
  wf := hs.wf.kernelStep ht
  crt := ht.crt.trans hs.crt
  dirsNum := ht.dirsNum.trans hs.dirsNum
  refs := by
    rw [ht.refs]
    exact hs.refs

theorem isHeapPage_createKheapPages : ∀ p ∈ createKheapPages, IsHeapPage p := by
  simp [createKheapPages, IsHeapPage, kheapStart, kheapMax, pageSize]

theorem loaderPte_heap {p : Nat} (hp : IsHeapPage p) : loaderPte p = .zero := by
  simp only [IsHeapPage, kheapStart, kheapMax, pageSize] at hp
  have hlow : ¬ p < 256 := by omega
  have hlow' : ¬ (768 * 1024 ≤ p ∧ p < 768 * 1024 + 256) := by omega
  have himage : ¬ (0xC0800 ≤ p ∧ p < 0xC0900) := by omega
  have hstack : ¬ (0xEFFFF ≤ p ∧ p < 0xF0001) := by omega
  have hbinary : ¬ (0xFFF00 ≤ p ∧ p < 0x100000) := by omega
  rw [loaderPte, if_neg hlow, if_neg hlow', if_neg himage, if_neg hstack, if_neg hbinary]

theorem Initial.not_present (hs : s.Initial) {p : Nat} (hp : IsHeapPage p) : (s.kernelPte p).present = false := by
  rcases hs.kernel p with h | h
  · rw [h]
    rfl
  · rw [h, loaderPte_heap hp]
    rfl

/-- `create_kheap` takes the frames 0 and 1 into use. -/
theorem Initial.createKheap (hs : s.Initial) : Ensures Panic.OutOfFrames (s.touchPages createKheapPages)
    (fun t => KernelStep s t ∧ t.phyFramesMap.testBit 0 = true ∧ t.phyFramesMap.testBit 1 = true) := by
  have hheap := isHeapPage_createKheapPages
  have hpage₀ : IsHeapPage 0xC0C80 := hheap _ (by simp [createKheapPages])
  have hpage₁ : IsHeapPage 0xC0EFF := hheap _ (by simp [createKheapPages])
  have hpage₂ : IsHeapPage 0xC0C00 := hheap _ (by simp [createKheapPages])
  have hfree₀ : s.phyFramesMap.testBit 0 = false := by
    rw [hs.used 0 (by omega)]
    rfl
  have hfree₁ : s.phyFramesMap.testBit 1 = false := by
    rw [hs.used 1 (by omega)]
    rfl
  have hfirst := touchPage_takes hs.kernelReady hpage₀.kernel (hs.not_present hpage₀) hfree₀ (by simp)
  simp only [createKheapPages, touchPages, List.foldlM_cons, List.foldlM_nil]
  refine Ensures.bind ((touchPage_spec hs.kernelReady hpage₀.kernel).and hfirst) fun t ht => ?_
  obtain ⟨hstep, hbit, hpte⟩ := ht
  have hready := hs.kernelReady.kernelStep hstep
  have hsecond := touchPage_takes (f := 1) hready hpage₁.kernel
    (by rw [hpte _ (by simp)]; exact hs.not_present hpage₁) (by simp [hbit, hfree₁])
    (fun m hm => by simp [hbit, Nat.lt_one_iff.mp hm])
  refine Ensures.bind ((touchPage_spec hready hpage₁.kernel).and hsecond) fun u hu => ?_
  obtain ⟨hstep', hbit', -⟩ := hu
  refine Ensures.bind (touchPage_spec (hready.kernelStep hstep') hpage₂.kernel) fun v hv => ?_
  refine ⟨hstep.trans (hstep'.trans hv), hv.used 0 ?_, hv.used 1 ?_⟩
  · simp [hbit', hbit]
  · simp [hbit']

/-- `main` reaches the first process, or the frames do not suffice. -/
theorem boot_spec (bytes : Nat → Nat → Byte) {pages : List Nat} (hpages : ∀ p ∈ pages, IsHeapPage p) :
    Ensures Panic.OutOfFrames (boot bytes pages) Booted := by
  have hinit := initPaging_initial bytes
  simp only [boot]
  generalize initPaging (loaderPaging bytes) = s at hinit ⊢
  refine hinit.createKheap.bind fun t ht => ?_
  have hbooted := hinit.booted ht.1 ht.2.1 ht.2.2
  exact (touchPages_spec hbooted.wf.kernelReady hpages).mono fun u hu => hbooted.kernelStep hu

end LuckOS.Paging
