import LuckOS.PhysicalHeapFaults
import LuckOS.PagingBoot

/-!
# From the boot loader to the first process in physical memory

`init_paging` releases the pages of the loaded kernel binary, whose frames lie far behind the tables. The first page
faults of the heap then take the lowest frames. What is left to the first process is a state of `Paging`.
-/

namespace LuckOS.PhysicalPaging

open ByteMemory PageWalk BootLoader FrameContents Outcome
open Paging (Pte PageDir Initial Booted KernelStep isUserPage isUserTable)

variable {M N : PhysicalPaging} {m : Memory} {s t : Paging} {f i j p : Nat} {x : Nat × Nat}

/-! ## The tables of the loader -/

/-- The state of `Paging` in `init_paging`, with its new frame bitmap. -/
def started (b : Bitmap) : Paging := { Paging.loaderPaging fun _ _ => 0 with phyFramesMap := b }

theorem loaderDir_kernel (hi : IsKernelTable i) : Paging.loaderDir.pde i = .mapTo (kernelTable i) := by
  obtain ⟨hlt, hne, huser⟩ := hi
  rw [isUserTable, decide_eq_true_eq] at huser
  rw [kernelTable]
  by_cases hlow : i = 0 ∨ i = 768
  · rw [if_pos hlow]
    exact if_pos hlow
  · rw [if_neg hlow]
    exact (if_neg hlow).trans (if_pos (by omega))

theorem dirAt_started {b : Bitmap} {d : Nat} {dir : PageDir} (h : dirAt (started b) none d = some dir) :
    d = 0 ∧ dir = Paging.loaderDir := by
  rw [dirAt] at h
  split_ifs at h with hlt
  exact ⟨Nat.lt_one_iff.mp hlt, (Option.some.inj h).symm⟩

theorem tableFrame_started {b : Bitmap} (h : tableFrame (started b) none x = some f) : x = (0, 769) ∧ f = 0x101 := by
  rw [tableFrame] at h
  obtain ⟨dir, hdir, h⟩ := Option.bind_eq_some_iff.mp h
  obtain ⟨hd, rfl⟩ := dirAt_started hdir
  split_ifs at h with hself huser
  · exact ⟨Prod.ext hd hself, (Option.some.inj h).symm⟩
  · have hpresent := huser.2
    rw [Paging.loaderDir_pde (isUserTable_ne huser.1).2, huser.1] at hpresent
    cases hpresent

/-- The entries of a table of the kernel. -/
theorem entriesIn_kernelTable (h : Mapped m) (hi : IsKernelTable i) :
    EntriesIn entryOf m (kernelTable i) fun j => Paging.loaderPte (i * 1024 + j) := by
  intro j hj
  have hindex : (i * 1024 + j) / 1024 = i := by omega
  have hoffset : (i * 1024 + j) % 1024 = j := by omega
  obtain ⟨hlt, hne, huser⟩ := hi
  rw [isUserTable, decide_eq_true_eq] at huser
  have hentry := h.pages (i * 1024 + j) (by omega) (by rw [hindex]; exact hne)
  have haddr : entryAddr (i * 1024 + j) = some (kernelTable i * 4096 + 4 * j) := by
    rw [entryAddr, kernelTable, hindex, hoffset]
    split_ifs with hlow hkernel
    · rfl
    · refine congrArg some ?_
      omega
    · omega
  rw [pageEntry, h.directory.pteAddr (by omega), haddr] at hentry
  exact hentry

/-- The memory that the loader leaves. -/
theorem describes_started (h : Mapped m) (b : Bitmap) : Describes m (started b) none fun _ => False := by
  refine ⟨Nat.one_pos, fun f e hc => ?_, fun d dir hdir => ?_, fun d dir hdir i hi => ?_, fun x f hx => ?_,
    fun x y f hx hy => ?_, fun _ hf => hf.elim⟩
  · cases hc with
    | directory d dir hdir =>
      obtain ⟨-, rfl⟩ := dirAt_started hdir
      intro i hi
      rw [← entryOf_pdeWord hi, ← h.directory i hi]
      rfl
    | user d dir i hdir hi hpresent =>
      obtain ⟨-, rfl⟩ := dirAt_started hdir
      rw [Paging.loaderDir_pde (isUserTable_ne hi).2, hi] at hpresent
      cases hpresent
    | kernel i hi => exact entriesIn_kernelTable h hi
  · obtain ⟨-, rfl⟩ := dirAt_started hdir
    rfl
  · obtain ⟨-, rfl⟩ := dirAt_started hdir
    exact loaderDir_kernel hi
  · exact .inr (tableFrame_started hx)
  · rw [(tableFrame_started hx).1, (tableFrame_started hy).1]

theorem simulates_started (h : Mapped m) {b : Bitmap} (hsize : b.sizes = (256, 256)) :
    Simulates { loaded m with phyFramesMap := b } (started b) none fun _ => False := by
  have hphy : Paging.kernelPageDirPhy = Paging.loaderDir.frame * 4096 := by decide
  exact ⟨describes_started h b, rfl, hsize, rfl, rfl, rfl, rfl, fun _ _ => hphy, rfl⟩

/-! ## `init_paging` -/

/-- The release of a page of the loaded kernel binary. -/
theorem Simulates.releaseBinary (h : Simulates M s none fun _ => False) (hs : s.Initial) (hp : 0xFFF00 ≤ p)
    (hp' : p < 0x100000) : Returns (M.releasePage (p * pageSize) true) fun N =>
      Simulates N (s.releasePage (p * pageSize) true) none (fun _ => False) ∧
      (s.releasePage (p * pageSize) true).Initial := by
  have hbinary := Paging.loaderPte_binary hp hp'
  have hkernel : Paging.IsKernelPage p := by
    refine ⟨by omega, ?_⟩
    rw [isUserPage, decide_eq_true_eq]
    omega
  have hpage : Changeable p := changeable_kernel (by omega) (by omega)
  have htable : IsKernelTable (p / 1024) := isKernelTable_of (by omega) (by omega)
  refine (h.releasePage hpage (h.kernel_present htable) true fun _ hpresent hframe => ?_).mono fun N hN => ⟨?_, ?_⟩
  · rw [Paging.getPte_kernel hkernel] at hpresent hframe
    rcases hs.kernel p with hzero | hentry
    · rw [hzero] at hpresent
      cases hpresent
    · rw [hentry, hbinary] at hframe
      have hlow := h.describes.isTable_range hframe
      change _ ∧ p - 0xFFF00 + 7935 < 0x100 ∨ _ ∧ p - 0xFFF00 + 7935 < 0x200 at hlow
      omega
  · exact hN.1.weaken fun g hg => hg.elim
  · refine hs.releasePage hkernel ?_
    rw [hbinary]
    change p - 0xFFF00 + 7935 ≠ 8191
    omega

/-- The pages of the loaded kernel binary are released. -/
theorem Simulates.releaseBinaryPages (h : Simulates M s none fun _ => False) (hs : s.Initial) :
    Returns (M.releasePages (0xFFFFFFFF - Paging.kernelBinLoadSize + 1) (Paging.kernelBinLoadSize / pageSize) true) fun N =>
      Simulates N (s.releasePages (0xFFFFFFFF - Paging.kernelBinLoadSize + 1) (Paging.kernelBinLoadSize / pageSize) true)
        none fun _ => False := by
  have hfirst : (0xFFFFFFFF - Paging.kernelBinLoadSize + 1) / pageSize = 0xFFF00 := rfl
  have hlast : Paging.u32 (0xFFF00 + Paging.kernelBinLoadSize / pageSize) = 0x100000 := rfl
  have htable : Paging.u32 (0x100000 + (2 ^ 32 - 1)) / 1024 + 1 = 1024 := rfl
  have hindex : 0xFFF00 / 1024 = 1023 := rfl
  rw [PhysicalPaging.releasePages, Paging.releasePages]
  change Returns (forRange (_ / 1024) _ M _) fun N => Simulates N (Paging.forRange (_ / 1024) _ s _) none _
  simp only [hfirst, hlast, htable, hindex, forRange, Paging.forRange]
  have hloop := returns_beside (R := fun (N : PhysicalPaging) (t : Paging) => Simulates N t none (fun _ => False) ∧ t.Initial)
    (l := List.range' 1023 (1024 - 1023))
    (f := fun (N : PhysicalPaging) (i : Nat) => N.loadEntry (pdeAt i) >>= fun pde => if !pde.present then .ok N
      else (List.range' (max 0xFFF00 (i * 1024)) (min 0x100000 (i * 1024 + 1024) - max 0xFFF00 (i * 1024))).foldlM
        (fun (N : PhysicalPaging) j => N.releasePage (j * pageSize) true) N)
    (g := fun (t : Paging) (i : Nat) => if !(t.getPde i).present then t
      else (List.range' (max 0xFFF00 (i * 1024)) (min 0x100000 (i * 1024 + 1024) - max 0xFFF00 (i * 1024))).foldl
        (fun (t : Paging) j => t.releasePage (j * Paging.pageSize) true) t) ⟨h, hs⟩
    fun i hi N t hN => by
      rw [List.mem_range'_1] at hi
      rw [hN.1.loadEntry_pde (by omega)]
      simp only [bind, Except.bind]
      by_cases hpresent : (t.getPde i).present = true
      · rw [if_neg (by rw [hpresent]; decide), if_neg (by rw [hpresent]; decide)]
        refine returns_beside (R := fun (N : PhysicalPaging) (t : Paging) => Simulates N t none (fun _ => False) ∧ t.Initial)
          hN fun j hj N t hN => ?_
        rw [List.mem_range'_1] at hj
        exact hN.1.releaseBinary hN.2 (by omega) (by omega)
      · rw [if_pos (by simpa using hpresent), if_pos (by simpa using hpresent)]
        exact ⟨N, rfl, hN⟩
  exact hloop.mono fun N hN => hN.1

/-- `init_paging` on both sides. -/
theorem initPaging_simulates (h : Mapped m) : Returns (initPaging (loaded m)) fun N =>
    Simulates N (Paging.initPaging (Paging.loaderPaging fun _ _ => 0)) none fun _ => False := by
  have hinitial := Paging.initial_created fun _ _ => 0
  have hstart := simulates_started h hinitial.size
  have hreleased := hstart.releaseBinaryPages hinitial
  rw [Paging.initPaging]
  exact hreleased

/-! ## The heap -/

theorem initial_free (hs : s.Initial) : s.phyFramesMap.freeBelow 0x100 = 0x100 := by
  rw [Bitmap.freeBelow, Finset.filter_true_of_mem fun f hf => ?_, Finset.card_range]
  have hlt := Finset.mem_range.mp hf
  rw [hs.used f (by omega), decide_eq_false (by omega)]

/-- The boot loader and `main` leave a state of `Paging` to the first process. -/
theorem boot_together (hzero : TablesZero m) :
    Together (Paging.boot (fun _ _ => 0) []) (boot m) fun s N => Represents N s ∧ s.Booted := by
  have hmapped := mapped_kernelTables hzero
  have hinitial := Paging.initPaging_initial fun _ _ => 0
  obtain ⟨M, hM, hsim⟩ := initPaging_simulates hmapped
  have hheap := Paging.isHeapPage_createKheapPages
  obtain ⟨t, ht, N, hN, htouched⟩ := hsim.touchPages (P := Paging.createKheapPages.toFinset) hinitial.kernelReady hheap
    (fun p hp => List.mem_toFinset.mpr hp) (by
      rw [initial_free hinitial]
      refine (Finset.card_filter_le _ _).trans ?_
      exact (List.toFinset_card_le _).trans (by decide))
  have hbooted : Ensures Paging.Panic.OutOfFrames (Paging.boot (fun _ _ => 0) []) Booted :=
    Paging.boot_spec (fun _ _ => 0) fun _ hp => absurd hp List.not_mem_nil
  have hrun : Paging.boot (fun _ _ => 0) [] = .ok (Paging.initPagingStage2 t) := by
    have hnil : ∀ u : Paging, u.touchPages [] = .ok u := fun _ => rfl
    simp only [Paging.boot, ht, hnil, bind, Except.bind]
  have hload : setUpPaging m = some (kernelTables (setupPage m)) := allocatePagesForKernel_eq (setupPage_hasDir m)
  have hrun' : boot m = .ok (initPagingStage2 N) := by
    rw [boot, hload, Option.elim_some, mainUpToStage2, hM, ok_bind, hN, ok_bind]
  have hready := hbooted.of_ok hrun
  have hsim' : Simulates (initPagingStage2 N) (Paging.initPagingStage2 t) none fun _ => False := by
    have h := htouched.simulates
    exact ⟨h.describes.congr rfl rfl rfl rfl (fun _ _ hused => hused) fun _ hf => hf.elim, h.phyFramesMap,
      h.size, rfl, rfl, h.dirsNum, h.crt, h.dirs, h.released⟩
  refine ⟨Paging.initPagingStage2 t, hrun, initPagingStage2 N, hrun', ⟨hready.wf, hsim'.weaken fun f hf => ?_⟩, hready⟩
  obtain ⟨k, r, hk, -⟩ := Paging.isMapped_iff.mp hf
  rw [hready.refs] at hk
  cases hk

end LuckOS.PhysicalPaging
