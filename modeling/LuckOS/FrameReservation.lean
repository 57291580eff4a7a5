import LuckOS.PagingBoot
import LuckOS.Runs

/-!
# The reserved frames

`init_paging` marks the first 3 MB in the static array of the frame bitmap and then
creates the bitmap on this array, which clears it again. The runs below allocate and
release frames after `init_paging`; only frames that are handed out are released.
-/

namespace LuckOS.Paging

open Runs

/-- The frames that `init_paging` means to reserve: the first 3 MB and the kernel stack. -/
def IsReserved (f : Nat) : Prop := f < 3 * 1024 * 1024 / pageSize ∨ f = physicalMemSize / pageSize - 1

inductive FrameCall where
  | allocate
  | release (frame : Nat)

/-- The steps of a run, with the frames that are handed out. -/
inductive FrameStep : Paging × List Nat → FrameCall → Paging × List Nat → Prop
  | allocated {s t : Paging} {handed : List Nat} {f : Nat} (h : s.allocatePhyFrame = some (f, t)) :
      FrameStep (s, handed) .allocate (t, f :: handed)
  | exhausted {s : Paging} {handed : List Nat} (h : s.allocatePhyFrame = none) :
      FrameStep (s, handed) .allocate (s, handed)
  | released {s : Paging} {handed : List Nat} {f : Nat} (h : f ∈ handed) :
      FrameStep (s, handed) (.release f) (s.releasePhyFrame f, handed.erase f)

/-- The next allocation returns a frame that is neither reserved nor handed out, or fails
because all frames that are not reserved are handed out. -/
def AllocationReserved (st : Paging × List Nat) : Prop :=
  match st.1.allocatePhyFrame with
  | some (f, _) => ¬ IsReserved f ∧ f ∉ st.2 ∧ f < 8192
  | none => ∀ f, f < 8192 → ¬ IsReserved f → f ∈ st.2

/-- What the next allocation guarantees: the kernel stack alone is reserved. -/
def AllocationSafe (st : Paging × List Nat) : Prop :=
  match st.1.allocatePhyFrame with
  | some (f, _) => f ≠ 8191 ∧ f ∉ st.2 ∧ f < 8192
  | none => ∀ f, f < 8192 → f ≠ 8191 → f ∈ st.2

/-- The bitmap holds the frames that are handed out and the kernel stack. -/
structure FramesTracked (st : Paging × List Nat) : Prop where
  size : st.1.phyFramesMap.sizes = (256, 256)
  nodup : st.2.Nodup
  stack : 8191 ∉ st.2
  used : ∀ f, f < 8192 → (st.1.phyFramesMap.testBit f = true ↔ f ∈ st.2 ∨ f = 8191)

theorem Initial.framesTracked {s : Paging} (hs : s.Initial) : FramesTracked (s, []) := by
  refine ⟨hs.size, List.nodup_nil, List.not_mem_nil, fun f hf => ?_⟩
  rw [hs.used f hf]
  simp

variable {st st' : Paging × List Nat}

theorem FramesTracked.allocate_some (h : FramesTracked st) {f : Nat} {t : Paging}
    (ha : st.1.allocatePhyFrame = some (f, t)) :
    f < 8192 ∧ f ∉ st.2 ∧ f ≠ 8191 ∧ ∀ m, m < f → m ∈ st.2 := by
  obtain ⟨-, hfree, -, hlt, -⟩ := allocatePhyFrame_spec h.size ha
  obtain ⟨⟨n, b⟩, hn, he⟩ := Option.map_eq_some_iff.mp ha
  cases he
  obtain ⟨-, -, hleast⟩ := Bitmap.findFirstFree_eq_some (Bitmap.allocateFirstFree_eq_some hn).1
  have hnot : ¬ (n ∈ st.2 ∨ n = 8191) := by
    rw [← h.used n hlt, hfree]
    simp
  rw [not_or] at hnot
  refine ⟨hlt, hnot.1, hnot.2, fun m hm => ?_⟩
  exact ((h.used m (by omega)).mp (hleast m hm)).resolve_right (by omega)

theorem FramesTracked.allocate_none (h : FramesTracked st) (ha : st.1.allocatePhyFrame = none) {f : Nat}
    (hf : f < 8192) (hne : f ≠ 8191) : f ∈ st.2 := by
  have hnone := Bitmap.allocateFirstFree_eq_none (Option.map_eq_none_iff.mp ha)
  have harray : st.1.phyFramesMap.arraySize = 256 := congrArg Prod.fst h.size
  have hbit := Bitmap.findFirstFree_eq_none hnone (n := f) (by omega)
  exact ((h.used f hf).mp hbit).resolve_right hne

theorem FramesTracked.step {a : FrameCall} (h : FramesTracked st) (hstep : FrameStep st a st') :
    FramesTracked st' := by
  cases hstep with
  | exhausted ha => exact h
  | @allocated s t handed f ha =>
    obtain ⟨hlt, hnot, hstack, -⟩ := h.allocate_some ha
    obtain ⟨hkernel, -, -, -, -, -, hused⟩ := allocatePhyFrame_spec h.size ha
    refine ⟨hkernel.size.trans h.size, List.nodup_cons.mpr ⟨hnot, h.nodup⟩, ?_, ?_⟩
    · intro hmem
      rcases List.mem_cons.mp hmem with hmem | hmem
      · exact hstack hmem.symm
      · exact h.stack hmem
    · intro g hg
      have hold := h.used g hg
      simp only at hold
      rw [hused, Bool.or_eq_true, hold, decide_eq_true_iff, List.mem_cons, or_assoc]
  | @released s handed f hf =>
    refine ⟨(Bitmap.sizes_clearBit _ _).trans h.size, h.nodup.erase f, fun hmem => h.stack (List.mem_of_mem_erase hmem), ?_⟩
    intro g hg
    have hold := h.used g hg
    have hne : f ≠ 8191 := by
      rintro rfl
      exact h.stack hf
    simp only at hold
    simp only [releasePhyFrame, Bitmap.testBit_clearBit, Bool.and_eq_true, Bool.not_eq_true', decide_eq_false_iff_not,
      hold, h.nodup.mem_erase_iff]
    constructor
    · rintro ⟨hgf, hmem | hstack⟩
      · exact .inl ⟨hgf, hmem⟩
      · exact .inr hstack
    · rintro (⟨hgf, hmem⟩ | rfl)
      · exact ⟨hgf, .inl hmem⟩
      · exact ⟨Ne.symm hne, .inr rfl⟩

theorem FramesTracked.run {acts : List FrameCall} (h : FramesTracked st) (hrun : Run FrameStep st acts st') :
    FramesTracked st' :=
  hrun.invariant (fun h hstep => FramesTracked.step h hstep) h

theorem FramesTracked.allocationSafe (h : FramesTracked st) : AllocationSafe st := by
  rw [AllocationSafe]
  cases ha : st.1.allocatePhyFrame with
  | none => exact fun f hf hne => h.allocate_none ha hf hne
  | some r =>
    obtain ⟨hlt, hnot, hstack, -⟩ := h.allocate_some ha
    exact ⟨hstack, hnot, hlt⟩

theorem FramesTracked.allocationReserved_iff (h : FramesTracked st) :
    AllocationReserved st ↔ ∀ f, f < 768 → f ∈ st.2 := by
  have hreserved : ∀ f, IsReserved f ↔ f < 768 ∨ f = 8191 := fun f => Iff.rfl
  rw [AllocationReserved]
  cases ha : st.1.allocatePhyFrame with
  | none =>
    refine ⟨fun _ f hf => h.allocate_none ha (by omega) (by omega), fun _ f hf hnot => ?_⟩
    rw [hreserved, not_or] at hnot
    exact h.allocate_none ha hf hnot.2
  | some r =>
    obtain ⟨hlt, hfree, hstack, hbelow⟩ := h.allocate_some ha
    constructor
    · rintro ⟨hnot, -⟩ f hf
      rw [hreserved, not_or] at hnot
      exact hbelow f (by omega)
    · intro hall
      refine ⟨?_, hfree, hlt⟩
      rw [hreserved, not_or]
      exact ⟨fun hlow => hfree (hall _ hlow), hstack⟩

/-- In every run the frames of the first 3 MB are protected only once all of them are
handed out. -/
theorem allocation_reserved_iff_low_frames_handed_out (bytes : Nat → Nat → Byte) {acts : List FrameCall}
    (hrun : Run FrameStep (initPaging (loaderPaging bytes), []) acts st) :
    AllocationSafe st ∧ (AllocationReserved st ↔ ∀ f, f < 768 → f ∈ st.2) := by
  have h := (initPaging_initial bytes).framesTracked.run hrun
  exact ⟨h.allocationSafe, h.allocationReserved_iff⟩

theorem first_allocation_eq_zero (bytes : Nat → Nat → Byte) :
    ∃ t, (initPaging (loaderPaging bytes)).allocatePhyFrame = some (0, t) := by
  have hinit := initPaging_initial bytes
  have h := hinit.framesTracked
  cases ha : (initPaging (loaderPaging bytes)).allocatePhyFrame with
  | none =>
    have hmem := h.allocate_none ha (f := 0) (by omega) (by omega)
    simp at hmem
  | some r =>
    obtain ⟨f, t⟩ := r
    obtain ⟨-, -, -, hbelow⟩ := h.allocate_some ha
    rcases Nat.eq_zero_or_pos f with rfl | hpos
    · exact ⟨t, rfl⟩
    · have hmem := hbelow 0 hpos
      simp at hmem

theorem allocation_reserved_iff_after_first_frame : ∃ st : Paging × List Nat,
    Run FrameStep (initPaging (loaderPaging fun _ _ => 0), []) [.allocate] st ∧
    AllocationSafe st ∧ (AllocationReserved st ↔ ∀ f, f < 768 → f ∈ st.2) := by
  obtain ⟨t, ht⟩ := first_allocation_eq_zero fun _ _ => 0
  have hrun : Run FrameStep (initPaging (loaderPaging fun _ _ => 0), []) [.allocate] (t, [0]) :=
    .cons (.allocated ht) (.nil _)
  exact ⟨(t, [0]), hrun, allocation_reserved_iff_low_frames_handed_out _ hrun⟩

/-- The first allocation returns frame 0. -/
theorem first_allocation_is_reserved : ¬ AllocationReserved (initPaging (loaderPaging fun _ _ => 0), []) := by
  obtain ⟨t, ht⟩ := first_allocation_eq_zero fun _ _ => 0
  intro h
  simp only [AllocationReserved, ht] at h
  exact h.1 (.inl (by decide))

end LuckOS.Paging
