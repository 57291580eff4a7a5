import LuckOS.Paging
import LuckOS.CopyOnWrite
import LuckOS.Outcome

/-!
# User pages as a copy-on-write store

The user half of all directories, the counts and the frame bitmap form a store in the
sense of `CopyOnWrite`: a key is a directory with a user page of it. `Wf` adds to the
soundness of this store what the code needs of its tables: every page table and every
cloned directory has a frame of its own.
-/

namespace LuckOS.Paging

open CopyOnWrite Outcome

/-- The frame and the permission of a mapped page of a directory. -/
def PageDir.ref (d : PageDir) (p : Nat) : Option (Ref Nat) :=
  if isUserPage p ∧ (d.pde (p / 1024)).present ∧ (d.pte p).present then some ⟨(d.pte p).frame, (d.pte p).rw⟩
  else none

def refs (s : Paging) (x : Nat × Nat) : Option (Ref Nat) :=
  if x.1 < s.dirsNum then (s.dirs x.1).ref x.2 else none

/-- The count of a frame, zero when the table has none. -/
def cowCount (s : Paging) (f : Nat) : ℕ := ((s.frameCowRefCounts f).getD 0).toNat

def usedFrames (s : Paging) : Set Nat := {f | s.phyFramesMap.testBit f = true}

/-- The copy-on-write store of the user pages. -/
def store (s : Paging) : Store (Nat × Nat) Nat (Nat → Byte) := ⟨s.refs, s.cowCount, s.usedFrames, s.bytes⟩

/-- The frame of the page table with index `x.2` of directory `x.1`; index 0 stands for
a cloned directory itself. In the first directory the indexes 0 and 768 stand for the
kernel heap, whose first pages have the frames 0 and 1. -/
def owner (s : Paging) (x : Nat × Nat) : Option Nat :=
  if x.1 < s.dirsNum then
    if x.2 = 0 then some (if x.1 = 0 then 0 else (s.dirs x.1).frame)
    else if x = (0, 768) then some 1
    else if isUserTable x.2 ∧ ((s.dirs x.1).pde x.2).present then some ((s.dirs x.1).pde x.2).frame
    else none
  else none

/-- Only pages of the same number share a frame. -/
def Aligned (refs : Nat × Nat → Option (Ref Nat)) : Prop :=
  ∀ k k' r r', refs k = some r → refs k' = some r' → r.frame = r'.frame → k.2 = k'.2

theorem Aligned.update_none {refs : Nat × Nat → Option (Ref Nat)} (h : Aligned refs) (k : Nat × Nat) :
    Aligned (Function.update refs k none) := by
  intro x x' r r' hx hx' hframe
  by_cases hxk : x = k
  · simp [hxk] at hx
  · by_cases hxk' : x' = k
    · simp [hxk'] at hx'
    · rw [Function.update_of_ne hxk] at hx
      rw [Function.update_of_ne hxk'] at hx'
      exact h x x' r r' hx hx' hframe

/-- A page may refer to a frame that pages of its number refer to. -/
theorem Aligned.update_some {refs : Nat × Nat → Option (Ref Nat)} (h : Aligned refs) (d : Nat) {p : Nat} {a : Ref Nat}
    (ha : ∀ k r, refs k = some r → r.frame = a.frame → k.2 = p) : Aligned (Function.update refs (d, p) (some a)) := by
  intro x x' r r' hx hx' hframe
  by_cases hxk : x = (d, p) <;> by_cases hxk' : x' = (d, p)
  · rw [hxk, hxk']
  · rw [hxk, Function.update_self] at hx
    rw [Function.update_of_ne hxk'] at hx'
    cases hx
    rw [hxk, ha x' r' hx' hframe.symm]
  · rw [hxk', Function.update_self] at hx'
    rw [Function.update_of_ne hxk] at hx
    cases hx'
    rw [hxk', ha x r hx hframe]
  · rw [Function.update_of_ne hxk] at hx
    rw [Function.update_of_ne hxk'] at hx'
    exact h x x' r r' hx hx' hframe

/-- What every state between two uninterrupted operations satisfies. -/
structure Wf (s : Paging) : Prop where
  sound : s.store.Sound
  ready : s.copyOnWriteReady = true
  counts_pos : ∀ f c, s.frameCowRefCounts f = some c → 0 < c
  crt_lt : s.crt < s.dirsNum
  tables : ∀ d, d < s.dirsNum → ∀ p, isUserPage p → ((s.dirs d).pte p).present →
    ((s.dirs d).pde (p / 1024)).present
  kernel_pde : ∀ d, d < s.dirsNum → ∀ i, i < 1024 → ¬ isUserTable i → ((s.dirs d).pde i).present
  kernel_rw : ∀ p, (s.kernelPte p).present → (s.kernelPte p).rw
  size : s.phyFramesMap.sizes = (256, 256)
  owner_used : ∀ x f, s.owner x = some f → s.phyFramesMap.testBit f = true
  owner_private : ∀ x f, s.owner x = some f → ∀ k r, s.refs k = some r → r.frame ≠ f
  owner_inj : ∀ x y f, s.owner x = some f → s.owner y = some f → x = y
  aligned : Aligned s.refs

theorem Wf.owner_zero {s : Paging} (hs : s.Wf) : s.owner (0, 0) = some 0 := by
  simp [owner, Nat.zero_lt_of_lt hs.crt_lt]

theorem Wf.owner_one {s : Paging} (hs : s.Wf) : s.owner (0, 768) = some 1 := by
  simp [owner, Nat.zero_lt_of_lt hs.crt_lt]

theorem isUserTable_ne {i : Nat} (hi : isUserTable i) : i ≠ 0 ∧ i ≠ 768 := by
  simp only [isUserTable, decide_eq_true_eq] at hi
  omega

/-- What holds of all owned frames and of a new one holds after an update. -/
theorem owner_update_forall {o : Nat × Nat → Option Nat} {P : Nat → Prop} (ho : ∀ x f, o x = some f → P f)
    (key : Nat × Nat) {g : Nat} (hg : P g) : ∀ x f, Function.update o key (some g) x = some f → P f := by
  intro x f hx
  by_cases hkey : x = key
  · rw [hkey, Function.update_self] at hx
    cases hx
    exact hg
  · rw [Function.update_of_ne hkey] at hx
    exact ho x f hx

theorem owner_update_inj {o : Nat × Nat → Option Nat} (ho : ∀ x y f, o x = some f → o y = some f → x = y)
    (key : Nat × Nat) {g : Nat} (hg : ∀ x, o x ≠ some g) : ∀ x y f, Function.update o key (some g) x = some f →
      Function.update o key (some g) y = some f → x = y := by
  intro x y f hx hy
  by_cases hxk : x = key <;> by_cases hyk : y = key
  · rw [hxk, hyk]
  · rw [hxk, Function.update_self] at hx
    rw [Function.update_of_ne hyk, ← hx] at hy
    exact absurd hy (hg y)
  · rw [hyk, Function.update_self] at hy
    rw [Function.update_of_ne hxk, ← hy] at hx
    exact absurd hx (hg x)
  · rw [Function.update_of_ne hxk] at hx
    rw [Function.update_of_ne hyk] at hy
    exact ho x y f hx hy

theorem isUserTable_div {p : Nat} : isUserTable (p / 1024) = isUserPage p := by
  simp only [isUserTable, isUserPage, decide_eq_decide]
  omega

theorem Wf.ref_eq {s : Paging} (hs : s.Wf) {d p : Nat} (hd : d < s.dirsNum) (hp : isUserPage p)
    (h : ((s.dirs d).pte p).present) :
    s.refs (d, p) = some ⟨((s.dirs d).pte p).frame, ((s.dirs d).pte p).rw⟩ := by
  simp [refs, PageDir.ref, hd, hp, h, hs.tables d hd p hp h]

theorem refs_of_absent {s : Paging} {d p : Nat} (h : ((s.dirs d).pte p).present = false) :
    s.refs (d, p) = none := by
  simp [refs, PageDir.ref, h]

theorem refs_of_not_user {s : Paging} {d p : Nat} (hp : ¬ isUserPage p) : s.refs (d, p) = none := by
  simp [refs, PageDir.ref, hp]

/-- The effect of page faults and mappings in the kernel half: some unused frames are
taken into use and the user half stays as it is. -/
structure KernelStep (s t : Paging) : Prop where
  dirs : t.dirs = s.dirs
  dirsNum : t.dirsNum = s.dirsNum
  crt : t.crt = s.crt
  ready : t.copyOnWriteReady = s.copyOnWriteReady
  counts : t.frameCowRefCounts = s.frameCowRefCounts
  released : t.released = s.released
  size : t.phyFramesMap.sizes = s.phyFramesMap.sizes
  used : ∀ f, s.phyFramesMap.testBit f = true → t.phyFramesMap.testBit f = true
  bytes : ∀ f, s.phyFramesMap.testBit f = true → t.bytes f = s.bytes f
  kernel_rw : (∀ p, (s.kernelPte p).present → (s.kernelPte p).rw) →
    ∀ p, (t.kernelPte p).present → (t.kernelPte p).rw

namespace KernelStep

variable {s t u : Paging}

theorem refl (s : Paging) : KernelStep s s :=
  ⟨rfl, rfl, rfl, rfl, rfl, rfl, rfl, fun _ h => h, fun _ _ => rfl, fun h => h⟩

theorem trans (h : KernelStep s t) (h' : KernelStep t u) : KernelStep s u where
  dirs := h'.dirs.trans h.dirs
  dirsNum := h'.dirsNum.trans h.dirsNum
  crt := h'.crt.trans h.crt
  ready := h'.ready.trans h.ready
  counts := h'.counts.trans h.counts
  released := h'.released.trans h.released
  size := h'.size.trans h.size
  used f hf := h'.used f (h.used f hf)
  bytes f hf := (h'.bytes f (h.used f hf)).trans (h.bytes f hf)
  kernel_rw hk := h'.kernel_rw (h.kernel_rw hk)

theorem refs (h : KernelStep s t) : t.refs = s.refs := by
  funext x
  simp [Paging.refs, h.dirs, h.dirsNum]

theorem owner (h : KernelStep s t) : t.owner = s.owner := by
  funext x
  simp [Paging.owner, h.dirs, h.dirsNum]

theorem cowCount (h : KernelStep s t) : t.cowCount = s.cowCount := by
  funext f
  simp [Paging.cowCount, h.counts]

end KernelStep

/-- Used frames stay in use and keep their bytes, and page tables get unused frames only. -/
structure FramesKept (s t : Paging) : Prop where
  used : ∀ f, s.phyFramesMap.testBit f = true → t.phyFramesMap.testBit f = true
  bytes : ∀ f, s.phyFramesMap.testBit f = true → t.bytes f = s.bytes f
  owner : ∀ x f, t.owner x = some f → s.owner x = some f ∨ s.phyFramesMap.testBit f = false

theorem FramesKept.refl (s : Paging) : FramesKept s s := ⟨fun _ h => h, fun _ _ => rfl, fun _ _ h => .inl h⟩

theorem FramesKept.trans {s t u : Paging} (h : FramesKept s t) (h' : FramesKept t u) : FramesKept s u where
  used f hf := h'.used f (h.used f hf)
  bytes f hf := (h'.bytes f (h.used f hf)).trans (h.bytes f hf)
  owner x f hx := by
    rcases h'.owner x f hx with hold | hfree
    · exact h.owner x f hold
    · refine .inr ?_
      by_contra hused
      have hkept := h.used f (by simpa using hused)
      simp [hfree] at hkept

/-- Soundness of the store is about references, counters and used frames only. -/
theorem sound_of_eq {s t : Paging} (hs : s.store.Sound) (hr : t.refs = s.refs) (hc : t.cowCount = s.cowCount)
    (hu : ∀ f, s.phyFramesMap.testBit f = true → t.phyFramesMap.testBit f = true) : t.store.Sound where
  finite f := by
    have h := hs.finite f
    rw [Store.sharers, store] at h ⊢
    rw [hr]
    exact h
  used k r h := hu _ (hs.used k r (by rw [store] at h ⊢; rw [← hr]; exact h))
  count f := by
    have h := hs.count f
    simp only [Store.sharers, store] at h ⊢
    rw [hr, hc]
    exact h
  writable k f h := by
    have h' := hs.writable k f (by rw [store] at h ⊢; rw [← hr]; exact h)
    simp only [Store.sharers, store] at h' ⊢
    rw [hr]
    exact h'

theorem Wf.kernelStep {s t : Paging} (hs : s.Wf) (h : KernelStep s t) : t.Wf where
  sound := sound_of_eq hs.sound h.refs h.cowCount h.used
  ready := h.ready.trans hs.ready
  counts_pos f c hc := hs.counts_pos f c (by rw [← h.counts]; exact hc)
  crt_lt := by
    rw [h.crt, h.dirsNum]
    exact hs.crt_lt
  tables := by
    rw [h.dirs, h.dirsNum]
    exact hs.tables
  kernel_pde := by
    rw [h.dirs, h.dirsNum]
    exact hs.kernel_pde
  kernel_rw := h.kernel_rw hs.kernel_rw
  size := h.size.trans hs.size
  owner_used x f hx := h.used f (hs.owner_used x f (by rw [← h.owner]; exact hx))
  owner_private := by
    rw [h.owner, h.refs]
    exact hs.owner_private
  owner_inj := by
    rw [h.owner]
    exact hs.owner_inj
  aligned := by
    rw [h.refs]
    exact hs.aligned

/-- The bytes of a user page, zero when it is not mapped. -/
def pageView (s : Paging) (x : Nat × Nat) : Nat → Byte := s.store.view (fun _ => 0) x

theorem Wf.pageView_kernelStep {s t : Paging} (hs : s.Wf) (h : KernelStep s t) : t.pageView = s.pageView := by
  funext x
  refine Store.view_congr (s := s.store) (t := t.store) (congrFun h.refs x) ?_
  intro r hr
  exact h.bytes _ (hs.sound.used x r hr)

/-- `allocate_phy_frame` returns an unused frame below 8192 and takes it into use. -/
theorem allocatePhyFrame_spec {s t : Paging} {f : Nat} (hsize : s.phyFramesMap.sizes = (256, 256))
    (h : s.allocatePhyFrame = some (f, t)) :
    KernelStep s t ∧ s.phyFramesMap.testBit f = false ∧ t.phyFramesMap.testBit f = true ∧ f < 8192 ∧
      t.kernelPte = s.kernelPte ∧ t.bytes = s.bytes ∧
      (∀ g, t.phyFramesMap.testBit g = (decide (g = f) || s.phyFramesMap.testBit g)) := by
  obtain ⟨⟨n, b⟩, hn, he⟩ := Option.map_eq_some_iff.mp h
  cases he
  have hbit := Bitmap.testBit_allocateFirstFree hn
  obtain ⟨hfind, rfl⟩ := Bitmap.allocateFirstFree_eq_some hn
  obtain ⟨hlt, hfree, -⟩ := Bitmap.findFirstFree_eq_some hfind
  refine ⟨⟨rfl, rfl, rfl, rfl, rfl, rfl, Bitmap.sizes_setBit _ _, ?_, fun _ _ => rfl, fun hk => hk⟩, hfree, ?_, ?_,
    rfl, rfl, hbit⟩
  · intro g hg
    simp [hbit, hg]
  · simp [hbit]
  · have harray : s.phyFramesMap.arraySize = 256 := congrArg Prod.fst hsize
    omega

theorem Wf.used_lt {s : Paging} (hs : s.Wf) {f : Nat} (hf : s.phyFramesMap.testBit f = true) : f < 8192 := by
  have hlt := Bitmap.lt_of_testBit hf
  have hlength : s.phyFramesMap.array.length = 256 := congrArg Prod.snd hs.size
  omega

end LuckOS.Paging
