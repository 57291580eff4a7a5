import LuckOS.IdPool
import LuckOS.Runs
import Mathlib.Data.Finset.Card

/-!
# Sequential histories of the calls of `utils/id_pool.c`

The calls with their lock, their result, a byte, and the arithmetic of `uint32`. A call that leaves
the lock taken is the last one that returns. `expand` has no return statement behind a successful
expansion, so its result there is an argument.
-/

namespace LuckOS

open Runs

/-- A pool with its lock, and the ids in use: those that were set or delivered and not freed since. -/
structure LockedIdPool where
  pool : IdPool
  locked : Bool
  inUse : Finset Nat

namespace LockedIdPool

/-- `id_pool_init`. It passes the size on to `bitmap_init` as an `int`: for a negative one there is no
array. -/
def init (size maxSize : Nat) : Option LockedIdPool :=
  if size < 2 ^ 31 then some ⟨IdPool.init size maxSize, false, ∅⟩ else none

/-- `id_pool_set_id`. -/
def setId (s : LockedIdPool) (id : Nat) : LockedIdPool :=
  { s with pool := s.pool.setId id, inUse := insert id s.inUse }

/-- `id_pool_free_id`. -/
def freeId (s : LockedIdPool) (id : Nat) : LockedIdPool :=
  { s with pool := s.pool.freeId id, inUse := s.inUse.erase id }

/-- `expand`, with the value that is found in place of its result. `bitmap_expand` returns true. -/
def expand (p : IdPool) (undefined : BitVec 8) : BitVec 8 × IdPool :=
  let newSize := min ((p.size + p.expandSize) % 2 ^ 32) p.maxSize
  if newSize = p.size then (0, p)
  else (undefined, { p with idMap := p.idMap.expand newSize, size := newSize })

/-- What `bitmap_allocate_first_free` returns and stores. -/
def allocateFirstFree (s : LockedIdPool) (p : IdPool) : BitVec 8 × Option Nat × LockedIdPool :=
  match p.idMap.allocateFirstFree with
  | some (id, idMap) => (1, some id, ⟨{ p with idMap := idMap }, false, insert id s.inUse⟩)
  | none => (0, none, ⟨p, false, s.inUse⟩)

/-- `id_pool_allocate_id` with its result and the id that it stores. It does not return when the lock
is taken. -/
def allocateId (s : LockedIdPool) (undefined : BitVec 8) : Option (BitVec 8 × Option Nat × LockedIdPool) :=
  if s.locked then none
  else match s.pool.idMap.allocateFirstFree with
    | some _ => some (s.allocateFirstFree s.pool)
    | none =>
      if s.pool.size = s.pool.maxSize then some (-1, none, s)
      else
        let (success, p) := expand s.pool undefined
        if success = 0 then some (0, none, ⟨p, true, s.inUse⟩) else some (s.allocateFirstFree p)

inductive Action where
  | setId (id : Nat)
  | allocateId (undefined : BitVec 8)
  | freeId (id : Nat)
  deriving DecidableEq

def step (s : LockedIdPool) : Action → Option LockedIdPool
  | .setId id => some (s.setId id)
  | .allocateId undefined => (s.allocateId undefined).map fun r => r.2.2
  | .freeId id => some (s.freeId id)

/-- An id is delivered: the least one that was not in use, and no other id changes. -/
def Delivers (s : LockedIdPool) (stored : Option Nat) (s' : LockedIdPool) : Prop :=
  ∃ id, stored = some id ∧ id ∉ s.inUse ∧ (∀ i, i < id → i ∈ s.inUse) ∧ s'.inUse = insert id s.inUse ∧
    ∀ i, s'.pool.used i = true ↔ i ∈ s'.inUse

/-- The call returns with the lock free, returns true if and only if an id is stored, delivers an id
when there is one, and returns false when there is none. -/
def Correct (s : LockedIdPool) (undefined : BitVec 8) : Prop :=
  ∃ result stored s', s.allocateId undefined = some (result, stored, s') ∧ s'.locked = false ∧
    (result ≠ 0 ↔ stored ≠ none) ∧ s'.pool.size ≤ s.pool.maxSize ∧ s'.pool.maxSize = s.pool.maxSize ∧
    (s.inUse.card < s.pool.maxSize → result ≠ 0 ∧ Delivers s stored s') ∧
    (s.inUse.card = s.pool.maxSize → result = 0)

/-- There is a free id, and an expansion that is needed enlarges the pool and is found to have
succeeded. -/
def Enough (s : LockedIdPool) (undefined : BitVec 8) : Prop :=
  s.inUse.card < s.pool.maxSize ∧ (s.inUse.card = s.pool.size →
    0 < s.pool.expandSize ∧ s.pool.size + s.pool.expandSize < 2 ^ 32 ∧ undefined ≠ 0)

/-- Ids that are set or freed are those of the bitmap, and allocations find enough. -/
def Fits (s : LockedIdPool) : Action → Prop
  | .setId id | .freeId id => id < s.pool.size
  | .allocateId undefined => s.Enough undefined

instance (s : LockedIdPool) (undefined : BitVec 8) : Decidable (s.Enough undefined) :=
  inferInstanceAs (Decidable (_ ∧ _))

instance (s : LockedIdPool) (a : Action) : Decidable (s.Fits a) :=
  match a with
  | .setId id | .freeId id => inferInstanceAs (Decidable (id < s.pool.size))
  | .allocateId undefined => inferInstanceAs (Decidable (s.Enough undefined))

/-- The bits of the bitmap are the ids in use, and the lock is free. -/
structure Inv (s : LockedIdPool) : Prop where
  whole : s.pool.Whole
  words : 32 ∣ s.pool.size
  maxWords : 32 ∣ s.pool.maxSize
  bits : ∀ i, s.pool.used i = true ↔ i ∈ s.inUse
  stepWords : 32 ∣ s.pool.expandSize
  stepBound : s.pool.expandSize ≤ s.pool.maxSize
  word : s.pool.maxSize < 2 ^ 32
  free : s.locked = false

variable {s s' : LockedIdPool} {p : IdPool} {undefined : BitVec 8} {id size maxSize : Nat}

theorem size_eq (hwhole : p.Whole) (hwords : 32 ∣ p.size) : 32 * p.idMap.arraySize = p.size := by
  rw [hwhole.arraySize]
  exact Nat.mul_div_cancel' hwords

theorem Inv.subset (h : Inv s) : s.inUse ⊆ Finset.range s.pool.size := by
  intro i hi
  have hlt := Bitmap.lt_of_testBit ((h.bits i).mpr hi)
  have hlength := h.whole.array
  have hsize := size_eq h.whole h.words
  rw [Finset.mem_range]
  omega

theorem Inv.card_le (h : Inv s) : s.inUse.card ≤ s.pool.size := by
  have hle := Finset.card_le_card h.subset
  rwa [Finset.card_range] at hle

/-- The search fails if and only if all ids of the bitmap are in use. -/
theorem card_eq_size (h : Inv s) : s.inUse.card = s.pool.size ↔ s.pool.idMap.allocateFirstFree = none := by
  have hsize := size_eq h.whole h.words
  constructor
  · intro hcard
    have hall : s.inUse = Finset.range s.pool.size :=
      Finset.eq_of_subset_of_card_le h.subset (by rw [Finset.card_range, hcard])
    cases hfirst : s.pool.idMap.allocateFirstFree with
    | none => rfl
    | some r =>
      have hfind : s.pool.idMap.findFirstFree = some r.1 := (Bitmap.allocateFirstFree_eq_some hfirst).1
      obtain ⟨hlt, hclear, -⟩ := Bitmap.findFirstFree_eq_some hfind
      have hmem : r.1 ∈ s.inUse := by
        rw [hall, Finset.mem_range]
        omega
      exact absurd ((h.bits r.1).mpr hmem) (by simp [IdPool.used, hclear])
  · intro hnone
    have hall : s.inUse = Finset.range s.pool.size := by
      refine Finset.Subset.antisymm h.subset fun i hi => (h.bits i).mp ?_
      rw [Finset.mem_range] at hi
      exact Bitmap.findFirstFree_eq_none (Bitmap.allocateFirstFree_eq_none hnone) (by omega)
    rw [hall, Finset.card_range]

/-- The search delivers the least free id. -/
theorem allocateFirstFree_spec (hinv : Inv ⟨p, false, s.inUse⟩) (hcard : s.inUse.card < p.size) :
    ∃ id s', s.allocateFirstFree p = (1, some id, s') ∧ Inv s' ∧ Delivers s (some id) s' ∧ s'.pool.size = p.size ∧
      s'.pool.maxSize = p.maxSize := by
  cases hfirst : p.idMap.allocateFirstFree with
  | none => exact absurd ((card_eq_size hinv).mpr hfirst) (Nat.ne_of_lt hcard)
  | some r =>
    obtain ⟨id, idMap⟩ := r
    obtain ⟨hfind, rfl⟩ := Bitmap.allocateFirstFree_eq_some hfirst
    obtain ⟨-, hclear, hleast⟩ := Bitmap.findFirstFree_eq_some hfind
    have hbits' : ∀ i, (p.idMap.setBit id).testBit i = true ↔ i ∈ insert id s.inUse := by
      intro i
      rw [Bitmap.testBit_allocateFirstFree hfirst, Finset.mem_insert, Bool.or_eq_true, decide_eq_true_iff]
      exact or_congr_right (hinv.bits i)
    refine ⟨id, ⟨{ p with idMap := p.idMap.setBit id }, false, insert id s.inUse⟩, by rw [allocateFirstFree, hfirst],
      ⟨IdPool.whole_mark hinv.whole (by simp), hinv.words, hinv.maxWords, hbits', hinv.stepWords, hinv.stepBound, hinv.word, rfl⟩, ⟨id, rfl, ?_, ?_, rfl, hbits'⟩, rfl, rfl⟩
    · intro hmem
      exact absurd ((hinv.bits id).mpr hmem) (by simp [IdPool.used, hclear])
    · exact fun i hi => (hinv.bits i).mp (hleast i hi)

/-- An expansion within `uint32` keeps the ids in use. -/
theorem expand_spec (undefined : BitVec 8) (hinv : Inv s) (hfits : s.pool.size + s.pool.expandSize < 2 ^ 32) (hpos : 0 < s.pool.expandSize)
    (hlt : s.pool.size < s.pool.maxSize) :
    ∃ p, expand s.pool undefined = (undefined, p) ∧ Inv ⟨p, false, s.inUse⟩ ∧ s.pool.size < p.size ∧
      p.maxSize = s.pool.maxSize := by
  have hne : min (s.pool.size + s.pool.expandSize) s.pool.maxSize ≠ s.pool.size := by omega
  have heq : expand s.pool undefined = (undefined, s.pool.expand) := by
    rw [expand, Nat.mod_eq_of_lt hfits]
    exact if_neg hne
  have hwords : 32 ∣ s.pool.expand.size := by
    change 32 ∣ min (s.pool.size + s.pool.expandSize) s.pool.maxSize
    have hsum := Nat.dvd_add hinv.words hinv.stepWords
    rcases Nat.le_total (s.pool.size + s.pool.expandSize) s.pool.maxSize with hle | hle
    · rwa [Nat.min_eq_left hle]
    · rw [Nat.min_eq_right hle]
      exact hinv.maxWords
  refine ⟨s.pool.expand, heq, ⟨IdPool.whole_expand hinv.whole, hwords, hinv.maxWords, fun i => ?_, hinv.stepWords,
    hinv.stepBound, hinv.word, rfl⟩, ?_, rfl⟩
  · change s.pool.expand.used i = true ↔ i ∈ s.inUse
    rw [IdPool.used_expand hinv.whole]
    exact hinv.bits i
  · change s.pool.size < min (s.pool.size + s.pool.expandSize) s.pool.maxSize
    omega

/-- A call that finds enough delivers the least free id. -/
theorem allocateId_spec (h : Inv s) (henough : s.Enough undefined) :
    ∃ id s', s.allocateId undefined = some (1, some id, s') ∧ Inv s' ∧ Delivers s (some id) s' ∧
      s'.pool.maxSize = s.pool.maxSize := by
  obtain ⟨hcard, hexpand⟩ := henough
  have hself : Inv ⟨s.pool, false, s.inUse⟩ := ⟨h.whole, h.words, h.maxWords, h.bits, h.stepWords, h.stepBound, h.word, rfl⟩
  rw [allocateId, h.free, if_neg (by decide)]
  cases hfirst : s.pool.idMap.allocateFirstFree with
  | some r =>
    have hne : s.inUse.card ≠ s.pool.size := fun heq => by simp [(card_eq_size h).mp heq] at hfirst
    obtain ⟨id, s', heq, hinv, hdelivers, hsize, hmax⟩ := allocateFirstFree_spec hself (Nat.lt_of_le_of_ne h.card_le hne)
    exact ⟨id, s', congrArg some heq, hinv, hdelivers, hmax⟩
  | none =>
    have hfull := (card_eq_size h).mpr hfirst
    obtain ⟨hpos, hfits, hsuccess⟩ := hexpand hfull
    rw [hfull] at hcard
    obtain ⟨p, hp, hinv, hlt, hmax⟩ := expand_spec undefined h hfits hpos hcard
    obtain ⟨id, s', heq, hinv', hdelivers, hsize, hmax'⟩ := allocateFirstFree_spec hinv (hfull ▸ hlt)
    refine ⟨id, s', ?_, hinv', hdelivers, hmax'.trans hmax⟩
    dsimp only
    rw [if_neg (Nat.ne_of_lt hcard), hp]
    exact (if_neg hsuccess).trans (congrArg some heq)

/-- A search fails when the array has become smaller and the words that are left are full. -/
theorem allocateFirstFree_shrunk {n : Nat} (h : Inv s) (hfull : s.inUse.card = s.pool.size) (hn : n ≤ s.pool.size) :
    (s.pool.idMap.expand n).allocateFirstFree = none := by
  cases hfirst : (s.pool.idMap.expand n).allocateFirstFree with
  | none => rfl
  | some r =>
    have hfind : (s.pool.idMap.expand n).findFirstFree = some r.1 := (Bitmap.allocateFirstFree_eq_some hfirst).1
    obtain ⟨hlt, hclear, -⟩ := Bitmap.findFirstFree_eq_some hfind
    have hsize := size_eq h.whole h.words
    have hlt' : r.1 < 32 * s.pool.idMap.arraySize := by
      have hless : 32 * (n / 32) ≤ s.pool.size := (Nat.mul_div_le n 32).trans hn
      rw [hsize]
      exact Nat.lt_of_lt_of_le hlt hless
    rw [Bitmap.testBit_expand h.whole.array] at hclear
    have hset := Bitmap.findFirstFree_eq_none (Bitmap.allocateFirstFree_eq_none ((card_eq_size h).mp hfull)) hlt'
    rw [hclear] at hset
    cases hset

/-- An expansion beyond `uint32` makes the array smaller. -/
theorem wrapped_lt (h : Inv s) (hwrap : 2 ^ 32 ≤ s.pool.size + s.pool.expandSize) :
    min ((s.pool.size + s.pool.expandSize) % 2 ^ 32) s.pool.maxSize < s.pool.size := by
  have hbound := h.whole.bound
  have hstep := h.stepBound
  have hword := h.word
  omega

/-- Otherwise the call goes wrong. -/
theorem incorrect_of_not_enough (h : Inv s) (henough : ¬ s.Enough undefined) : ¬ s.Correct undefined := by
  rintro ⟨result, stored, s', hcall, hfree, -, -, -, havailable, hexhausted⟩
  have hle := h.card_le
  have hbound := h.whole.bound
  rw [Enough, not_and_or, Classical.not_imp] at henough
  have hfull : s.inUse.card = s.pool.size := by omega
  have hsearch := (card_eq_size h).mp hfull
  rw [allocateId, h.free, if_neg (by decide), hsearch] at hcall
  dsimp only at hcall
  by_cases hmax : s.pool.size = s.pool.maxSize
  · rw [if_pos hmax] at hcall
    have hresult : (-1 : BitVec 8) = result := congrArg Prod.fst (Option.some.inj hcall)
    rw [← hresult] at hexhausted
    exact absurd (hexhausted (hfull.trans hmax)) (by decide)
  · rw [if_neg hmax] at hcall
    have hlt : s.inUse.card < s.pool.maxSize := by omega
    obtain ⟨hresult, -⟩ := havailable hlt
    apply hresult
    rw [expand] at hcall
    by_cases hsame : min ((s.pool.size + s.pool.expandSize) % 2 ^ 32) s.pool.maxSize = s.pool.size
    · rw [if_pos hsame, if_pos rfl] at hcall
      exact (congrArg Prod.fst (Option.some.inj hcall)).symm
    · rw [if_neg hsame] at hcall
      dsimp only at hcall
      by_cases hsuccess : undefined = 0
      · rw [if_pos hsuccess] at hcall
        exact (congrArg Prod.fst (Option.some.inj hcall)).symm
      · have hwrap : 2 ^ 32 ≤ s.pool.size + s.pool.expandSize := by
          by_contra hless
          rw [Nat.mod_eq_of_lt (by omega)] at hsame
          have hpos : 0 < s.pool.expandSize := by omega
          exact henough.elim (absurd hlt) fun hno => hno.2 ⟨hpos, by omega, hsuccess⟩
        have hnone := allocateFirstFree_shrunk h hfull (Nat.le_of_lt (wrapped_lt h hwrap))
        rw [if_neg hsuccess, allocateFirstFree, hnone] at hcall
        exact (congrArg Prod.fst (Option.some.inj hcall)).symm

/-- A call is right if and only if it finds enough. -/
theorem correct_iff (h : Inv s) : s.Correct undefined ↔ s.Enough undefined := by
  constructor
  · intro hcorrect
    by_contra henough
    exact incorrect_of_not_enough h henough hcorrect
  · intro henough
    obtain ⟨id, s', hcall, hinv, hdelivers, hmax⟩ := allocateId_spec h henough
    refine ⟨1, some id, s', hcall, hinv.free, by simp, ?_, hmax, fun _ => ⟨by decide, hdelivers⟩, fun hall => ?_⟩
    · rw [← hmax]
      exact hinv.whole.bound
    · exact absurd hall (Nat.ne_of_lt henough.1)

theorem init_inv (hwords : 32 ∣ size) (hmaxWords : 32 ∣ maxSize) (hle : size ≤ maxSize) (hword : maxSize < 2 ^ 32)
    (hinit : init size maxSize = some s) : Inv s := by
  rw [init] at hinit
  split_ifs at hinit
  obtain rfl := Option.some.inj hinit
  refine ⟨IdPool.init_whole hle, hwords, hmaxWords, fun i => ?_, hwords, hle, hword, rfl⟩
  have hnone : (IdPool.init size maxSize).used i = false := IdPool.used_init i
  simp [hnone]

theorem inv_step {a : Action} (h : Inv s) (hstep : Guarded Fits (Steps step) s a s') : Inv s' := by
  obtain ⟨hfits, hstep⟩ := hstep
  cases a with
  | setId id =>
    obtain rfl := Option.some.inj hstep
    have hlt : id / 32 < s.pool.idMap.array.length := by
      have hsize := size_eq h.whole h.words
      have hle := s.pool.idMap.size_le
      have hid : id < s.pool.size := hfits
      omega
    refine ⟨IdPool.whole_mark h.whole (by simp), h.words, h.maxWords, fun i => ?_, h.stepWords, h.stepBound, h.word, h.free⟩
    change (s.pool.idMap.setBit id).testBit i = true ↔ i ∈ insert id s.inUse
    rw [Bitmap.testBit_setBit _ hlt, Finset.mem_insert, Bool.or_eq_true, decide_eq_true_iff]
    exact or_congr_right (h.bits i)
  | freeId id =>
    obtain rfl := Option.some.inj hstep
    refine ⟨IdPool.whole_freeId h.whole, h.words, h.maxWords, fun i => ?_, h.stepWords, h.stepBound, h.word, h.free⟩
    change (s.pool.freeId id).used i = true ↔ i ∈ s.inUse.erase id
    rw [IdPool.used_freeId, Finset.mem_erase, Bool.and_eq_true, ← h.bits i]
    simp
  | allocateId undefined =>
    obtain ⟨id, t, hcall, hinv, -⟩ := allocateId_spec h hfits
    have ht : t = s' := by
      rw [Steps, step, hcall] at hstep
      exact Option.some.inj hstep
    rwa [← ht]

/-- In every history whose calls fit, the next call of `id_pool_allocate_id` is right if and only if it
finds enough. -/
theorem allocation_correct_iff {actions : List Action} (hwords : 32 ∣ size) (hmaxWords : 32 ∣ maxSize)
    (hle : size ≤ maxSize) (hword : maxSize < 2 ^ 32) (hinit : init size maxSize = some s)
    (hrun : Run (Guarded Fits (Steps step)) s actions s') (undefined : BitVec 8) :
    s'.Correct undefined ↔ s'.Enough undefined :=
  correct_iff (hrun.invariant inv_step (init_inv hwords hmaxWords hle hword hinit))

theorem expansion_correct : ∃ s s', init 32 64 = some s ∧
    Run (Guarded Fits (Steps step)) s ((List.range 32).map .setId) s' ∧ s'.Correct 1 := by
  have htest : (init 32 64).any (fun s => (execute (permit (fun s a => decide (s.Fits a)) step) s ((List.range 32).map .setId)).any
      fun s' => decide (s'.Enough 1)) = true := by decide +kernel
  rw [Option.any_eq_true] at htest
  obtain ⟨s, hinit, htest⟩ := htest
  rw [Option.any_eq_true] at htest
  obtain ⟨s', hexec, henough⟩ := htest
  have hrun : Run (Guarded Fits (Steps step)) s ((List.range 32).map .setId) s' :=
    run_of_execute_permit of_decide_eq_true hexec
  exact ⟨s, s', hinit, hrun, (allocation_correct_iff (by decide) (by decide) (by decide) (by decide) hinit hrun 1).mpr
    (of_decide_eq_true henough)⟩

/-- A pool whose ids are all in use returns -1, which is not false. -/
theorem exhaustion_is_success : ¬ ∀ size maxSize s actions s' undefined, 32 ∣ size → 32 ∣ maxSize → size ≤ maxSize →
    init size maxSize = some s → Run (Steps step) s actions s' → s'.Correct undefined := by
  intro hall
  have htest : (init 32 32).any (fun s => (execute step s (List.replicate 32 (.allocateId 1))).any fun s' =>
      decide (s'.inUse.card = s'.pool.maxSize ∧ (s'.allocateId 1).map Prod.fst = some 255)) = true := by decide +kernel
  rw [Option.any_eq_true] at htest
  obtain ⟨s, hinit, htest⟩ := htest
  rw [Option.any_eq_true] at htest
  obtain ⟨s', hexec, hfull⟩ := htest
  obtain ⟨hcard, hresult⟩ := of_decide_eq_true hfull
  obtain ⟨result, stored, t, hcall, -, -, -, -, -, hexhausted⟩ :=
    hall 32 32 s _ s' 1 (by decide) (by decide) (by decide) hinit (run_of_execute hexec)
  rw [hcall] at hresult
  have hzero : (0 : BitVec 8) = 255 := (hexhausted hcard).symm.trans (Option.some.inj hresult)
  exact absurd hzero (by decide)

end LockedIdPool

end LuckOS
