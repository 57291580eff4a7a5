import LuckOS.KernelStores

/-!
# Runs of the whole memory system

From the boot loader on, processes access their memory, fork, release their user space
and make system calls that store to their buffers, and the clean thread destroys
processes. Every state that is reached satisfies `Wf`.
-/

namespace LuckOS.Paging

open CopyOnWrite Outcome

variable {s t : Paging}

/-- `destroy_process`, as far as frames are concerned. -/
def destroyProcess (s : Paging) (d : Nat) : Paging := s.releasePhyFrame (s.dirs d).pageDirEntriesPhy

inductive SystemOp where
  | user (op : UserOp)
  | fault (addr : UserAddr)
  | call (c : UserCall)
  | destroy (d : Nat)

/-- One uninterrupted operation. The first process is never destroyed. -/
def systemStep (s : Paging) : SystemOp → Except Panic Paging
  | .user op => do
    let r ← s.userOp op
    .ok r.2
  | .fault addr => s.pageFaultHandler addr.1
  | .call c => s.kernelStores c.1.stores
  | .destroy d => .ok (if 1 ≤ d ∧ d < s.dirsNum then s.destroyProcess d else s)

/-- The states that the system reaches from the boot loader on. -/
def Reachable (s : Paging) : Prop :=
  ∃ (bytes : Nat → Nat → Byte) (pages : HeapPages) (ops : List SystemOp),
    (boot bytes pages.1 >>= fun s => ops.foldlM systemStep s) = .ok s

/-- A cloned directory lies behind the first two frames. -/
theorem Wf.two_le_frame (hs : s.Wf) {d : Nat} (hd : 1 ≤ d) (hlt : d < s.dirsNum) : 2 ≤ (s.dirs d).frame := by
  have howner : s.owner (d, 0) = some (s.dirs d).frame := by
    simp [owner, hlt, Nat.ne_of_gt hd]
  have hzero : (s.dirs d).frame ≠ 0 := by
    intro h
    have heq := hs.owner_inj (d, 0) (0, 0) 0 (by rw [howner, h]) hs.owner_zero
    simp only [Prod.mk.injEq] at heq
    omega
  have hone : (s.dirs d).frame ≠ 1 := by
    intro h
    have heq := hs.owner_inj (d, 0) (0, 768) 1 (by rw [howner, h]) hs.owner_one
    simp only [Prod.mk.injEq] at heq
    omega
  omega

/-- The argument that `destroy_process` passes is no frame number. -/
theorem Wf.pageDirEntriesPhy_ge (hs : s.Wf) {d : Nat} (hd : 1 ≤ d) (hlt : d < s.dirsNum) :
    8192 ≤ (s.dirs d).pageDirEntriesPhy := by
  have hframe := hs.two_le_frame hd hlt
  simp only [PageDir.pageDirEntriesPhy, pageSize]
  omega

theorem Wf.destroyProcess_testBit (hs : s.Wf) {d : Nat} (hd : 1 ≤ d) (hlt : d < s.dirsNum) (f : Nat) :
    (s.destroyProcess d).phyFramesMap.testBit f = s.phyFramesMap.testBit f := by
  simp only [destroyProcess, releasePhyFrame, Bitmap.testBit_clearBit]
  by_cases hf : f = (s.dirs d).pageDirEntriesPhy
  · have hge := hs.pageDirEntriesPhy_ge hd hlt
    have hfree : s.phyFramesMap.testBit f = false := by
      by_contra hused
      have hbound := hs.used_lt (by simpa using hused)
      omega
    rw [hfree, Bool.and_false]
  · simp [hf]

theorem Wf.destroyProcess (hs : s.Wf) {d : Nat} (hd : 1 ≤ d) (hlt : d < s.dirsNum) : (s.destroyProcess d).Wf where
  sound := sound_of_eq hs.sound rfl rfl fun f hf => by rw [hs.destroyProcess_testBit hd hlt]; exact hf
  ready := hs.ready
  counts_pos := hs.counts_pos
  crt_lt := hs.crt_lt
  tables := hs.tables
  kernel_pde := hs.kernel_pde
  kernel_rw := hs.kernel_rw
  size := (Bitmap.sizes_clearBit _ _).trans hs.size
  owner_used x f hx := by
    rw [hs.destroyProcess_testBit hd hlt]
    exact hs.owner_used x f hx
  owner_private := hs.owner_private
  owner_inj := hs.owner_inj
  aligned := hs.aligned

/-- Every state refines the reference memory that it shows. -/
theorem Wf.refines_view (hs : s.Wf) : Refines s ⟨fun d p => s.pageView (d, p), s.dirsNum, s.crt⟩ :=
  ⟨hs, rfl, rfl, fun _ _ _ => rfl⟩

theorem num_le_userOp (m : EagerMemory) (op : UserOp) : m.num ≤ (m.userOp op).2.num := by
  cases op with
  | switchTo d =>
    simp only [EagerMemory.userOp]
    split_ifs <;> exact le_refl _
  | fork heap => exact Nat.le_succ _
  | _ => exact le_refl _

theorem systemStep_spec (hs : s.Wf) (op : SystemOp) :
    Ensures Panic.OutOfFrames (s.systemStep op) (fun t => t.Wf ∧ s.dirsNum ≤ t.dirsNum) := by
  cases op with
  | user op =>
    refine (userOp_spec hs.refines_view op).bind fun r hr => ⟨hr.2.wf, ?_⟩
    rw [← hr.2.num]
    exact num_le_userOp ⟨fun d p => s.pageView (d, p), s.dirsNum, s.crt⟩ op
  | fault addr => exact (pageFaultHandler_user hs addr.2).mono fun t ht => ⟨ht.wf, ht.dirsNum.ge⟩
  | call c =>
    exact (kernelStores_spec hs c.2).mono fun t ht => ⟨ht.wf, ht.dirsNum.ge⟩
  | destroy d =>
    rw [systemStep]
    split_ifs with hd
    · exact ⟨hs.destroyProcess hd.1 hd.2, le_refl _⟩
    · exact ⟨hs, le_refl _⟩

theorem systemSteps_spec (hs : s.Wf) (ops : List SystemOp) :
    Ensures Panic.OutOfFrames (ops.foldlM systemStep s) (fun t => t.Wf ∧ s.dirsNum ≤ t.dirsNum) := by
  refine ensures_foldlM (I := fun _ (t : Paging) => t.Wf ∧ s.dirsNum ≤ t.dirsNum) ⟨hs, le_refl _⟩ ?_
  rintro done op rest t - ⟨ht, hle⟩
  exact (systemStep_spec ht op).mono fun u hu => ⟨hu.1, hle.trans hu.2⟩

theorem Reachable.wf (h : s.Reachable) : s.Wf := by
  obtain ⟨bytes, pages, ops, hrun⟩ := h
  have hsystem : Ensures Panic.OutOfFrames (boot bytes pages.1 >>= fun s => ops.foldlM systemStep s) Wf :=
    Ensures.bind (boot_spec bytes pages.2) fun s hs => (systemSteps_spec hs.wf ops).mono fun t ht => ht.1
  exact hsystem.of_ok hrun

end LuckOS.Paging
