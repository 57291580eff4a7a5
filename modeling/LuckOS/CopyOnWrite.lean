import Mathlib.Data.Set.Card
import Mathlib.Logic.Function.Basic

/-!
# Copy-on-write sharing of frames

Keys refer to frames, a frame holds a page, and a counter holds the number of
references to a frame beyond the first one. The primitive operations below change
one reference, one counter or one page. Each of them keeps `Store.Sound`, and the
page seen through a key is tracked by `Store.view`.
-/

namespace LuckOS.CopyOnWrite

universe u v w

/-- A reference to a frame, with its write permission. -/
structure Ref (φ : Type v) where
  frame : φ
  writable : Bool

/-- References, counters of extra references, frames in use and their pages. -/
structure Store (κ : Type u) (φ : Type v) (β : Type w) where
  ref : κ → Option (Ref φ)
  count : φ → ℕ
  used : Set φ
  page : φ → β

namespace Store

variable {κ : Type u} {φ : Type v} {β : Type w}

/-- The keys that refer to a frame. -/
def sharers (s : Store κ φ β) (f : φ) : Set κ := {k | ∃ w, s.ref k = some ⟨f, w⟩}

/-- The page read through a key; an absent reference reads as `zero`. -/
def view (s : Store κ φ β) (zero : β) (k : κ) : β :=
  match s.ref k with
  | none => zero
  | some r => s.page r.frame

/-- Referenced frames are in use, a counter is one less than the number of
references, and a writable reference is the only one. -/
structure Sound (s : Store κ φ β) : Prop where
  finite : ∀ f, (s.sharers f).Finite
  used : ∀ k r, s.ref k = some r → r.frame ∈ s.used
  count : ∀ f, s.count f = (s.sharers f).ncard - 1
  writable : ∀ k f, s.ref k = some ⟨f, true⟩ → s.sharers f = {k}

theorem mem_sharers {s : Store κ φ β} {k : κ} {r : Ref φ} (h : s.ref k = some r) : k ∈ s.sharers r.frame :=
  ⟨r.writable, h⟩

theorem view_of_ref {s : Store κ φ β} {zero : β} {k : κ} {r : Ref φ} (h : s.ref k = some r) :
    s.view zero k = s.page r.frame := by
  simp [view, h]

theorem view_of_none {s : Store κ φ β} {zero : β} {k : κ} (h : s.ref k = none) : s.view zero k = zero := by
  simp [view, h]

/-- Two stores with the same reference and the same referenced page have the same view. -/
theorem view_congr {s t : Store κ φ β} {zero : β} {k : κ} (hr : t.ref k = s.ref k)
    (hp : ∀ r, s.ref k = some r → t.page r.frame = s.page r.frame) : t.view zero k = s.view zero k := by
  cases h : s.ref k with
  | none => rw [view_of_none h, view_of_none (hr.trans h)]
  | some r => rw [view_of_ref h, view_of_ref (hr.trans h), hp r h]

namespace Sound

variable {s : Store κ φ β}

theorem sharers_eq_empty (hs : s.Sound) {f : φ} (hf : f ∉ s.used) : s.sharers f = ∅ := by
  apply Set.eq_empty_of_forall_notMem
  rintro k ⟨w, hk⟩
  exact hf (hs.used k _ hk)

theorem ncard_pos (hs : s.Sound) {k : κ} {r : Ref φ} (hk : s.ref k = some r) : 0 < (s.sharers r.frame).ncard :=
  (Set.ncard_pos (hs.finite _)).mpr ⟨k, mem_sharers hk⟩

/-- Without extra references a sharer is the only one. -/
theorem sharers_eq_singleton (hs : s.Sound) {k : κ} {r : Ref φ} (hk : s.ref k = some r)
    (hc : s.count r.frame = 0) : s.sharers r.frame = {k} := by
  have hpos := hs.ncard_pos hk
  have hcount := hs.count r.frame
  obtain ⟨a, ha⟩ := Set.ncard_eq_one.mp (by omega : (s.sharers r.frame).ncard = 1)
  have hmem : k ∈ s.sharers r.frame := mem_sharers hk
  rw [ha] at hmem ⊢
  rw [Set.mem_singleton_iff.mp hmem]

/-- With an extra reference there is a second sharer. -/
theorem exists_other (hs : s.Sound) {k : κ} {f : φ} (hc : 0 < s.count f) : ∃ k', k' ≠ k ∧ k' ∈ s.sharers f := by
  have hcount := hs.count f
  obtain ⟨k', hk', hne⟩ := Set.exists_ne_of_one_lt_ncard (by omega : 1 < (s.sharers f).ncard) k
  exact ⟨k', hne, hk'⟩

end Sound

/-- Take a frame into use and fill it. -/
def reserve [DecidableEq φ] (s : Store κ φ β) (f : φ) (b : β) : Store κ φ β :=
  { s with used := insert f s.used, page := Function.update s.page f b }

/-- Give back a frame. -/
def discard (s : Store κ φ β) (f : φ) : Store κ φ β := { s with used := s.used \ {f} }

/-- Let an absent reference refer to a frame, writable. -/
def attach [DecidableEq κ] (s : Store κ φ β) (k : κ) (f : φ) : Store κ φ β :=
  { s with ref := Function.update s.ref k (some ⟨f, true⟩) }

/-- Remove a reference to a frame; the counter of a single reference stays zero. -/
def detach [DecidableEq κ] [DecidableEq φ] (s : Store κ φ β) (k : κ) (f : φ) : Store κ φ β :=
  { s with ref := Function.update s.ref k none, count := Function.update s.count f (s.count f - 1) }

/-- Make the only reference to a frame writable. -/
def own [DecidableEq κ] (s : Store κ φ β) (k : κ) (f : φ) : Store κ φ β :=
  { s with ref := Function.update s.ref k (some ⟨f, true⟩) }

/-- Let a second key refer to the frame of a first one, both read-only. -/
def share [DecidableEq κ] [DecidableEq φ] (s : Store κ φ β) (k k' : κ) (f : φ) : Store κ φ β :=
  { s with
    ref := Function.update (Function.update s.ref k (some ⟨f, false⟩)) k' (some ⟨f, false⟩)
    count := Function.update s.count f (s.count f + 1) }

/-- Replace the page of a frame. -/
def put [DecidableEq φ] (s : Store κ φ β) (f : φ) (b : β) : Store κ φ β :=
  { s with page := Function.update s.page f b }

variable {s : Store κ φ β}

theorem notMem_sharers {k : κ} (hk : s.ref k = none) (f : φ) : k ∉ s.sharers f := by
  rintro ⟨w, hw⟩
  simp [hk] at hw

/-- Changing one reference changes the sharers of the old and of the new frame only. -/
theorem mem_sharers_update [DecidableEq κ] (s : Store κ φ β) (c : φ → ℕ) (u : Set φ) (p : φ → β) (k a : κ)
    (r : Option (Ref φ)) (f : φ) :
    a ∈ sharers ⟨Function.update s.ref k r, c, u, p⟩ f ↔
      if a = k then ∃ w, r = some ⟨f, w⟩ else a ∈ s.sharers f := by
  by_cases h : a = k
  · subst h
    simp [sharers]
  · simp [sharers, h]

theorem Sound.reserve [DecidableEq φ] (hs : s.Sound) (f : φ) (b : β) : (s.reserve f b).Sound where
  finite := hs.finite
  used k r h := Set.mem_insert_of_mem _ (hs.used k r h)
  count := hs.count
  writable := hs.writable

theorem view_reserve [DecidableEq φ] (hs : s.Sound) {f : φ} (hf : f ∉ s.used) (b zero : β) (k : κ) :
    (s.reserve f b).view zero k = s.view zero k := by
  refine view_congr (t := s.reserve f b) rfl ?_
  intro r hr
  have hne : r.frame ≠ f := by
    rintro rfl
    exact hf (hs.used k r hr)
  exact Function.update_of_ne hne _ _

theorem Sound.discard (hs : s.Sound) {f : φ} (hf : s.sharers f = ∅) : (s.discard f).Sound where
  finite := hs.finite
  used k r h := by
    refine ⟨hs.used k r h, ?_⟩
    rintro rfl
    have hmem : k ∈ s.sharers r.frame := mem_sharers h
    simp [hf] at hmem
  count := hs.count
  writable := hs.writable

theorem Sound.put [DecidableEq φ] (hs : s.Sound) (f : φ) (b : β) : (s.put f b).Sound :=
  ⟨hs.finite, hs.used, hs.count, hs.writable⟩

theorem view_put_of_ref [DecidableEq φ] {k : κ} {r : Ref φ} (hk : s.ref k = some r) (b zero : β) :
    (s.put r.frame b).view zero k = b := by
  rw [view_of_ref (show (s.put r.frame b).ref k = some r from hk)]
  exact Function.update_self _ _ _

theorem view_put_of_notMem [DecidableEq φ] {k : κ} {f : φ} (hk : k ∉ s.sharers f) (b zero : β) :
    (s.put f b).view zero k = s.view zero k := by
  refine view_congr (t := s.put f b) rfl ?_
  intro r hr
  have hne : r.frame ≠ f := by
    rintro rfl
    exact hk (mem_sharers hr)
  exact Function.update_of_ne hne _ _

/-- A store through a writable reference is seen through this reference only. -/
theorem view_put [DecidableEq κ] [DecidableEq φ] (hs : s.Sound) {k : κ} {f : φ} (hk : s.ref k = some ⟨f, true⟩)
    (b zero : β) (a : κ) : (s.put f b).view zero a = if a = k then b else s.view zero a := by
  by_cases h : a = k
  · subst h
    simpa using view_put_of_ref hk b zero
  · rw [if_neg h]
    apply view_put_of_notMem
    simpa [hs.writable k f hk] using h

/-- A key shares no frame but its own. -/
theorem notMem_sharers_of_ne {k : κ} {r : Ref φ} (hk : s.ref k = some r) {g : φ} (hg : g ≠ r.frame) :
    k ∉ s.sharers g := by
  rintro ⟨w, hw⟩
  rw [hk, Option.some.injEq] at hw
  exact hg (by rw [hw])

section References

variable [DecidableEq κ]

theorem sharers_update_self (s : Store κ φ β) (c : φ → ℕ) (u : Set φ) (p : φ → β) (k : κ) (f : φ) (w : Bool) :
    sharers ⟨Function.update s.ref k (some ⟨f, w⟩), c, u, p⟩ f = insert k (s.sharers f) := by
  ext a
  rw [mem_sharers_update]
  by_cases ha : a = k <;> simp [ha]

theorem sharers_update_of_ne (s : Store κ φ β) (c : φ → ℕ) (u : Set φ) (p : φ → β) {k : κ} {f g : φ}
    (w : Bool) (hg : g ≠ f) (hk : k ∉ s.sharers g) :
    sharers ⟨Function.update s.ref k (some ⟨f, w⟩), c, u, p⟩ g = s.sharers g := by
  ext a
  rw [mem_sharers_update]
  by_cases ha : a = k
  · simp [ha, hk, hg.symm]
  · simp [ha]

theorem sharers_update_none (s : Store κ φ β) (c : φ → ℕ) (u : Set φ) (p : φ → β) (k : κ) (f : φ) :
    sharers ⟨Function.update s.ref k none, c, u, p⟩ f = s.sharers f \ {k} := by
  ext a
  rw [mem_sharers_update]
  by_cases ha : a = k <;> simp [ha]

theorem Sound.attach (hs : s.Sound) {k : κ} {f : φ} (hk : s.ref k = none) (hf : f ∈ s.used)
    (hempty : s.sharers f = ∅) : (s.attach k f).Sound := by
  have hself : (s.attach k f).sharers f = {k} := by
    rw [Store.attach, sharers_update_self, hempty, insert_empty_eq]
  have hother : ∀ g, g ≠ f → (s.attach k f).sharers g = s.sharers g := fun g hg =>
    sharers_update_of_ne s _ _ _ true hg (notMem_sharers hk g)
  constructor
  · intro g
    by_cases hg : g = f
    · rw [hg, hself]
      exact Set.finite_singleton k
    · rw [hother g hg]
      exact hs.finite g
  · intro a r h
    by_cases ha : a = k
    · subst ha
      simp only [Store.attach, Function.update_self, Option.some.injEq] at h
      rw [← h]
      exact hf
    · simp only [Store.attach, Function.update_of_ne ha] at h
      exact hs.used a r h
  · intro g
    have hc : (s.attach k f).count g = (s.sharers g).ncard - 1 := hs.count g
    by_cases hg : g = f
    · subst hg
      rw [hc, hself, hempty]
      simp
    · rw [hc, hother g hg]
  · intro a g h
    by_cases ha : a = k
    · subst ha
      simp only [Store.attach, Function.update_self, Option.some.injEq, Ref.mk.injEq, and_true] at h
      rw [← h, hself]
    · simp only [Store.attach, Function.update_of_ne ha] at h
      have hg : g ≠ f := by
        rintro rfl
        have hmem : a ∈ s.sharers g := mem_sharers h
        simp [hempty] at hmem
      rw [hother g hg]
      exact hs.writable a g h

theorem view_attach (s : Store κ φ β) (k a : κ) (f : φ) (zero : β) :
    (s.attach k f).view zero a = if a = k then s.page f else s.view zero a := by
  by_cases h : a = k
  · subst h
    simp [view, attach]
  · simp [view, attach, h]

theorem Sound.own (hs : s.Sound) {k : κ} {r : Ref φ} (hk : s.ref k = some r) (hc : s.count r.frame = 0) :
    (s.own k r.frame).Sound := by
  have hself : (s.own k r.frame).sharers r.frame = {k} := by
    rw [Store.own, sharers_update_self, hs.sharers_eq_singleton hk hc, Set.insert_eq_of_mem (Set.mem_singleton k)]
  have hother : ∀ g, g ≠ r.frame → (s.own k r.frame).sharers g = s.sharers g := fun g hg =>
    sharers_update_of_ne s _ _ _ true hg (notMem_sharers_of_ne hk hg)
  constructor
  · intro g
    by_cases hg : g = r.frame
    · rw [hg, hself]
      exact Set.finite_singleton k
    · rw [hother g hg]
      exact hs.finite g
  · intro a q h
    by_cases ha : a = k
    · subst ha
      simp only [Store.own, Function.update_self, Option.some.injEq] at h
      rw [← h]
      exact hs.used a r hk
    · simp only [Store.own, Function.update_of_ne ha] at h
      exact hs.used a q h
  · intro g
    have hcount : (s.own k r.frame).count g = s.count g := rfl
    by_cases hg : g = r.frame
    · rw [hcount, hg, hself, hc, Set.ncard_singleton]
    · rw [hcount, hother g hg, hs.count g]
  · intro a g h
    by_cases ha : a = k
    · subst ha
      simp only [Store.own, Function.update_self, Option.some.injEq, Ref.mk.injEq, and_true] at h
      rw [← h, hself]
    · simp only [Store.own, Function.update_of_ne ha] at h
      have hg : g ≠ r.frame := by
        rintro rfl
        have hmem : a ∈ s.sharers r.frame := ⟨true, h⟩
        rw [hs.sharers_eq_singleton hk hc] at hmem
        exact ha hmem
      rw [hother g hg]
      exact hs.writable a g h

theorem view_own {k : κ} {r : Ref φ} (hk : s.ref k = some r) (zero : β) (a : κ) :
    (s.own k r.frame).view zero a = s.view zero a := by
  by_cases ha : a = k
  · subst ha
    rw [view_of_ref hk]
    simp [view, own]
  · simp [view, own, ha]

theorem sharers_detach [DecidableEq φ] (s : Store κ φ β) (k : κ) (f g : φ) :
    (s.detach k f).sharers g = s.sharers g \ {k} :=
  sharers_update_none s _ _ _ k g

theorem Sound.detach [DecidableEq φ] (hs : s.Sound) {k : κ} {r : Ref φ} (hk : s.ref k = some r) :
    (s.detach k r.frame).Sound := by
  constructor
  · intro g
    rw [sharers_detach]
    exact (hs.finite g).sdiff
  · intro a q h
    by_cases ha : a = k
    · simp [Store.detach, ha] at h
    · simp only [Store.detach, Function.update_of_ne ha] at h
      exact hs.used a q h
  · intro g
    rw [sharers_detach]
    by_cases hg : g = r.frame
    · subst hg
      have hmem : k ∈ s.sharers r.frame := mem_sharers hk
      have hcount := hs.count r.frame
      simp only [Store.detach, Function.update_self]
      rw [Set.ncard_sdiff_singleton_of_mem hmem, hcount]
    · simp only [Store.detach, Function.update_of_ne hg]
      rw [Set.sdiff_singleton_eq_self (notMem_sharers_of_ne hk hg), hs.count g]
  · intro a g h
    rw [sharers_detach]
    by_cases ha : a = k
    · simp [Store.detach, ha] at h
    · simp only [Store.detach, Function.update_of_ne ha] at h
      rw [hs.writable a g h]
      exact Set.sdiff_singleton_eq_self (fun hmem => ha (Set.mem_singleton_iff.mp hmem).symm)

theorem view_detach [DecidableEq φ] (s : Store κ φ β) (k a : κ) (f : φ) (zero : β) :
    (s.detach k f).view zero a = if a = k then zero else s.view zero a := by
  by_cases h : a = k
  · subst h
    simp [view, detach]
  · simp [view, detach, h]

theorem sharers_share_self [DecidableEq φ] {k : κ} {r : Ref φ} (hk : s.ref k = some r) (k' : κ) :
    (s.share k k' r.frame).sharers r.frame = insert k' (s.sharers r.frame) := by
  have hmem : k ∈ s.sharers r.frame := mem_sharers hk
  rw [share, sharers_update_self ⟨Function.update s.ref k (some ⟨r.frame, false⟩), s.count, s.used, s.page⟩,
    sharers_update_self, Set.insert_eq_of_mem hmem]

theorem sharers_share_of_ne [DecidableEq φ] {k k' : κ} {r : Ref φ} (hk : s.ref k = some r) (hk' : s.ref k' = none)
    {g : φ} (hg : g ≠ r.frame) : (s.share k k' r.frame).sharers g = s.sharers g := by
  have hfirst := sharers_update_of_ne s s.count s.used s.page false hg (notMem_sharers_of_ne hk hg)
  have hnot : k' ∉ sharers ⟨Function.update s.ref k (some ⟨r.frame, false⟩), s.count, s.used, s.page⟩ g := by
    rw [hfirst]
    exact notMem_sharers hk' g
  rw [share, sharers_update_of_ne ⟨Function.update s.ref k (some ⟨r.frame, false⟩), s.count, s.used, s.page⟩
    _ _ _ false hg hnot, hfirst]

theorem Sound.share [DecidableEq φ] (hs : s.Sound) {k k' : κ} {r : Ref φ} (hk : s.ref k = some r)
    (hk' : s.ref k' = none) : (s.share k k' r.frame).Sound := by
  have hself := sharers_share_self hk k'
  have hother := fun g (hg : g ≠ r.frame) => sharers_share_of_ne hk hk' hg
  constructor
  · intro g
    by_cases hg : g = r.frame
    · rw [hg, hself]
      exact (hs.finite _).insert k'
    · rw [hother g hg]
      exact hs.finite g
  · intro a q h
    by_cases ha' : a = k'
    · subst ha'
      simp only [Store.share, Function.update_self, Option.some.injEq] at h
      rw [← h]
      exact hs.used k r hk
    · simp only [Store.share, Function.update_of_ne ha'] at h
      by_cases ha : a = k
      · subst ha
        simp only [Function.update_self, Option.some.injEq] at h
        rw [← h]
        exact hs.used a r hk
      · simp only [Function.update_of_ne ha] at h
        exact hs.used a q h
  · intro g
    by_cases hg : g = r.frame
    · have hpos := hs.ncard_pos hk
      have hcount := hs.count r.frame
      rw [hg, hself, Set.ncard_insert_of_notMem (notMem_sharers hk' _) (hs.finite _)]
      simp only [Store.share, Function.update_self]
      omega
    · rw [hother g hg]
      simp only [Store.share, Function.update_of_ne hg]
      exact hs.count g
  · intro a g h
    by_cases ha' : a = k'
    · subst ha'
      simp [Store.share] at h
    · simp only [Store.share, Function.update_of_ne ha'] at h
      by_cases ha : a = k
      · subst ha
        simp at h
      · simp only [Function.update_of_ne ha] at h
        have hw := hs.writable a g h
        have hg : g ≠ r.frame := by
          rintro rfl
          have hmem : k ∈ s.sharers r.frame := mem_sharers hk
          rw [hw] at hmem
          exact ha (Set.mem_singleton_iff.mp hmem).symm
        rw [hother g hg, hw]

theorem view_share [DecidableEq φ] {k k' : κ} {r : Ref φ} (hk : s.ref k = some r) (zero : β) (a : κ) :
    (s.share k k' r.frame).view zero a = if a = k' then s.view zero k else s.view zero a := by
  rw [view_of_ref hk]
  by_cases ha' : a = k'
  · subst ha'
    simp [view, share]
  · rw [if_neg ha']
    by_cases ha : a = k
    · subst ha
      rw [view_of_ref hk]
      simp [view, share, ha']
    · simp [view, share, ha, ha']

end References

end Store

end LuckOS.CopyOnWrite
