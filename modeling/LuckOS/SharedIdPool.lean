import LuckOS.IdPool
import LuckOS.Runs

/-!
# The id pool in the hands of several threads

The calls of `id_pool_allocate_id` and `id_pool_free_id`, interleaved at the loads and stores of the
words of the bitmap, of its array pointer and of its sizes. The first search of an allocation
and the expansion are under the lock. The search behind an expansion and every release are
not. What only the holder of the lock writes is read in one step by the holder.
-/

namespace LuckOS

open Runs Function

/-- The access to the word of a bit in `bitmap_set_bit` and `bitmap_clear_bit`: the array pointer
is loaded, then the word, and then the new word is stored. -/
inductive BitAccess where
  | array
  | load (ptr : Nat)
  | store (ptr : Nat) (ele : Word)
  deriving DecidableEq

/-- How far the call of a thread has come. The second search of an allocation is marked as `retry`. -/
inductive IdCall where
  | idle
  | search (retry : Bool) (i : Nat)
  | searchArray (retry : Bool) (i : Nat)
  | searchWord (retry : Bool) (i ptr : Nat)
  | mark (retry : Bool) (id : Nat) (access : BitAccess)
  | marked (retry : Bool) (id : Nat)
  | full
  | copy (newSize new i : Nat)
  | freeOld (newSize new : Nat)
  | setArraySize (newSize new : Nat)
  | setArray (newSize new : Nat)
  | setSize (newSize : Nat)
  | expanded
  | clear (id : Nat) (access : BitAccess)
  deriving DecidableEq

/-- The fields of `id_pool_t` and of its bitmap, the arrays that `kmalloc` has returned, the calls of
the threads, and the ids that each of them owns. -/
structure SharedIdPool where
  threads : Nat
  size : Nat
  maxSize : Nat
  expandSize : Nat
  array : Nat
  arraySize : Nat
  lock : Option Nat
  words : Nat → List Word
  next : Nat
  freed : List Nat
  call : Nat → IdCall
  owned : Nat → List Nat

/-- The actions of the threads. A successful `expand` has no return statement, so that its result
can be anything. A call that finds no free id in a pool of the maximum size returns -1, which is
not zero, and stores no id: the caller goes on with the value that its variable happens to have.
The memory of an array that was freed can be used for anything. -/
inductive IdAction where
  | allocate (t : Nat)
  | free (t id : Nat)
  | run (t : Nat)
  | expanded (t : Nat) (success : Bool)
  | exhausted (t garbage : Nat)
  | reuse (ptr : Nat) (words : List Word)

namespace BitAccess

/-- The access has loaded this array pointer. -/
def uses (ptr : Nat) : BitAccess → Bool
  | array => false
  | load p | store p _ => p == ptr

/-- The access has loaded a word of this array. -/
def loaded (ptr : Nat) : BitAccess → Bool
  | store p _ => p == ptr
  | _ => false

end BitAccess

namespace IdCall

/-- The call is in the section under the lock. -/
def locked : IdCall → Bool
  | search retry _ | searchArray retry _ | searchWord retry _ _ | mark retry _ _ | marked retry _ => !retry
  | full | copy .. | freeOld .. | setArraySize .. | setArray .. | setSize _ | expanded => true
  | idle | clear .. => false

/-- The call is between the allocation of the new array and the store to `size`. -/
def growing : IdCall → Bool
  | copy .. | freeOld .. | setArraySize .. | setArray .. | setSize _ => true
  | _ => false

/-- The call has freed the old array and not yet stored the pointer to the new one. -/
def switching : IdCall → Bool
  | setArraySize .. | setArray .. => true
  | _ => false

/-- The id that is marked and not yet returned, or given back and not yet cleared. -/
def claimed : IdCall → List Nat
  | marked _ id | clear id _ => [id]
  | _ => []

/-- The call has found this id free and is going to mark it. -/
def found (id : Nat) : IdCall → Bool
  | mark _ id' _ => id' == id
  | _ => false

/-- The call has loaded this array pointer and is going to use it. -/
def uses (ptr : Nat) : IdCall → Bool
  | searchWord _ _ p => p == ptr
  | mark _ _ access | clear _ access => access.uses ptr
  | _ => false

/-- The call has loaded this word of the array, and is going to store a word in its place or to
switch to its copy. -/
def loaded (ptr idx : Nat) : IdCall → Bool
  | mark _ id access | clear id access => access.loaded ptr && Bitmap.indexFromBit id == idx
  | copy _ _ i => decide (idx < i)
  | freeOld .. => true
  | _ => false

/-- The next step of a call does not race with the call `c` of another thread: it stores to no word
that `c` has loaded in order to replace or to copy it, and sets no bit that `c` is going to
set. The array is not in use by `c` when it is freed, and its pointer is not loaded behind that. -/
def quiet (array : Nat) : IdCall → IdCall → Bool
  | mark _ id (.store ptr _), c => !c.loaded ptr (Bitmap.indexFromBit id) && !c.found id
  | clear id (.store ptr _), c => !c.loaded ptr (Bitmap.indexFromBit id)
  | searchArray .., c | mark _ _ .array, c | clear _ .array, c => !c.switching
  | freeOld .., c => !c.uses array
  | _, _ => true

end IdCall

variable {s s' : SharedIdPool} {ws ws' : List Word} {p t u id idx i ptr : Nat} {c : IdCall} {ele : Word}

namespace SharedIdPool

/-- The pool behind `id_pool_init`. -/
def start (threads size maxSize : Nat) : SharedIdPool where
  threads := threads
  size := size
  maxSize := maxSize
  expandSize := size
  array := 0
  arraySize := size / 32
  lock := none
  words := fun _ => List.replicate (size / 32) 0
  next := 1
  freed := []
  call := fun _ => .idle
  owned := fun _ => []

def word (words : List Word) (idx : Nat) : Word := words.getD idx 0

/-- The call of thread `t` goes on. -/
def goto (s : SharedIdPool) (t : Nat) (c : IdCall) : SharedIdPool := { s with call := update s.call t c }

/-- The store of a word. -/
def storeWord (s : SharedIdPool) (ptr idx : Nat) (ele : Word) : SharedIdPool :=
  { s with words := update s.words ptr ((s.words ptr).set idx ele) }

/-- The next step of a call of thread `t`. -/
def run (s : SharedIdPool) (t : Nat) : IdCall → Option SharedIdPool
  | .search retry i =>
    some (s.goto t (if i < s.arraySize then .searchArray retry i else if retry then .idle else .full))
  | .searchArray retry i => some (s.goto t (.searchWord retry i s.array))
  | .searchWord retry i ptr =>
    let ele := word (s.words ptr) i
    some (s.goto t (if ele ≠ 0xFFFFFFFF then
      match Bitmap.findInWord ele with
      | some j => .mark retry (i * 32 + j) .array
      | none => .search retry (i + 1)
    else .search retry (i + 1)))
  | .mark retry id .array => some (s.goto t (.mark retry id (.load s.array)))
  | .mark retry id (.load ptr) =>
    some (s.goto t (.mark retry id (.store ptr (word (s.words ptr) (Bitmap.indexFromBit id)))))
  | .mark retry id (.store ptr ele) =>
    some ((s.storeWord ptr (Bitmap.indexFromBit id) (ele ||| Bitmap.mask (Bitmap.offsetFromBit id))).goto t (.marked retry id))
  | .marked retry id =>
    some { s.goto t .idle with
      lock := if retry then s.lock else none
      owned := update s.owned t (id :: s.owned t) }
  | .full =>
    let newSize := min (s.size + s.expandSize) s.maxSize
    if s.size = s.maxSize then none
    else if newSize = s.size then some (s.goto t .idle)
    else some { s.goto t (.copy newSize s.next 0) with
      words := update s.words s.next (List.replicate (newSize / 32) 0)
      next := s.next + 1 }
  | .copy newSize new i =>
    if i < s.arraySize then some ((s.storeWord new i (word (s.words s.array) i)).goto t (.copy newSize new (i + 1)))
    else some (s.goto t (.freeOld newSize new))
  | .freeOld newSize new => some { s.goto t (.setArraySize newSize new) with freed := s.array :: s.freed }
  | .setArraySize newSize new => some { s.goto t (.setArray newSize new) with arraySize := newSize / 32 }
  | .setArray newSize new => some { s.goto t (.setSize newSize) with array := new }
  | .setSize newSize => some { s.goto t .expanded with size := newSize }
  | .clear id .array => some (s.goto t (.clear id (.load s.array)))
  | .clear id (.load ptr) => some (s.goto t (.clear id (.store ptr (word (s.words ptr) (Bitmap.indexFromBit id)))))
  | .clear id (.store ptr ele) =>
    some ((s.storeWord ptr (Bitmap.indexFromBit id) (ele &&& ~~~Bitmap.mask (Bitmap.offsetFromBit id))).goto t .idle)
  | .idle | .expanded => none

def step (s : SharedIdPool) : IdAction → Option SharedIdPool
  | .allocate t =>
    if t < s.threads ∧ s.call t = .idle ∧ s.lock = none then some { s.goto t (.search false 0) with lock := some t }
    else none
  | .free t id =>
    if t < s.threads ∧ s.call t = .idle ∧ id ∈ s.owned t then
      some { s.goto t (.clear id .array) with owned := update s.owned t ((s.owned t).erase id) }
    else none
  | .run t => s.run t (s.call t)
  | .expanded t success =>
    if s.call t = .expanded then
      some (if success then { s.goto t (.search true 0) with lock := none } else s.goto t .idle)
    else none
  | .exhausted t garbage =>
    if s.call t = .full ∧ s.size = s.maxSize then
      some { s.goto t .idle with lock := none, owned := update s.owned t (garbage :: s.owned t) }
    else none
  | .reuse ptr words => if ptr ∈ s.freed then some { s with words := update s.words ptr words } else none

/-- The bit of an id in an array. -/
def isSet (words : List Word) (id : Nat) : Bool := (word words (Bitmap.indexFromBit id) &&& Bitmap.mask (Bitmap.offsetFromBit id)) != 0

/-- No id is owned twice. -/
def OwnedOnce (s : SharedIdPool) : Prop :=
  (∀ t, (s.owned t).Nodup) ∧ ∀ t u id, id ∈ s.owned t → id ∈ s.owned u → t = u

/-- The set bits are the ids that are owned, unless a call is in progress. -/
def Settled (s : SharedIdPool) : Prop :=
  (∀ t, s.call t = .idle) → ∀ id, isSet (s.words s.array) id = true ↔ ∃ t, id ∈ s.owned t

/-- The steps do not race, and no call finds the pool exhausted. -/
def RaceFree (s : SharedIdPool) : IdAction → Prop
  | .run t => ∀ u, u < s.threads → u ≠ t → (s.call t).quiet s.array (s.call u) = true
  | .exhausted .. => False
  | _ => True

instance (s : SharedIdPool) (a : IdAction) : Decidable (s.RaceFree a) :=
  match a with
  | .run t => inferInstanceAs (Decidable (∀ u, u < s.threads → u ≠ t → _))
  | .exhausted .. => isFalse fun h => h
  | .allocate _ | .free .. | .expanded .. | .reuse .. => isTrue trivial

theorem isSet_eq (ws : List Word) (id : Nat) : isSet ws id = (word ws (id / 32)).getLsbD (id % 32) :=
  Bitmap.testBit_eq ⟨ws, true, 0, 0, Nat.zero_le _⟩ id

theorem set_word (ws : List Word) (idx : Nat) (f : Word → Word) : ws.set idx (f (word ws idx)) = ws.modify idx f := by
  refine List.ext_getElem? fun i => ?_
  rw [List.getElem?_set, List.getElem?_modify, word, List.getD_eq_getElem?_getD]
  by_cases hi : idx = i
  · subst hi
    by_cases hlt : idx < ws.length
    · simp [hlt]
    · simp [hlt]
  · simp [hi]

theorem isSet_mark (h : id / 32 < ws.length) (i : Nat) :
    isSet (ws.set (id / 32) (word ws (id / 32) ||| Bitmap.mask (id % 32))) i = (decide (i = id) || isSet ws i) := by
  rw [set_word ws (id / 32) (· ||| Bitmap.mask (id % 32))]
  exact Bitmap.testBit_setBit ⟨ws, true, 0, 0, Nat.zero_le _⟩ h i

theorem isSet_clear (ws : List Word) (id i : Nat) :
    isSet (ws.set (id / 32) (word ws (id / 32) &&& ~~~Bitmap.mask (id % 32))) i = (!decide (i = id) && isSet ws i) := by
  rw [set_word ws (id / 32) (· &&& ~~~Bitmap.mask (id % 32))]
  exact Bitmap.testBit_clearBit ⟨ws, true, 0, 0, Nat.zero_le _⟩ id i

theorem word_append_zeros (ws : List Word) (n idx : Nat) : word (ws ++ List.replicate n 0) idx = word ws idx := by
  simp only [word, List.getD_eq_getElem?_getD]
  rcases Nat.lt_or_ge idx ws.length with hlt | hge
  · rw [List.getElem?_append_left hlt]
  · rw [List.getElem?_append_right hge, List.getElem?_eq_none hge, List.getElem?_replicate]
    split_ifs <;> rfl

theorem isSet_append_zeros (ws : List Word) (n id : Nat) : isSet (ws ++ List.replicate n 0) id = isSet ws id := by
  rw [isSet_eq, isSet_eq, word_append_zeros]

theorem isSet_zeros (n id : Nat) : isSet (List.replicate n 0) id = false := by
  have hzeros := isSet_append_zeros [] n id
  rw [List.nil_append] at hzeros
  rw [hzeros, isSet_eq]
  simp [word]

/-- A word is copied to the part of the new array that is still clear. -/
theorem set_copy {n : Nat} (hi : i < ws.length) :
    (ws.take i ++ List.replicate (n + 1) 0).set i (word ws i) = ws.take (i + 1) ++ List.replicate n 0 := by
  have hlen : (ws.take i).length = i := by simp [Nat.le_of_lt hi]
  rw [List.set_append_right _ _ (by omega), hlen, Nat.sub_self, List.replicate_succ, List.set_cons_zero,
    List.take_add_one, List.getElem?_eq_getElem hi, List.append_assoc]
  simp [word, hi]

/-- The ids of a thread: those that it owns, and the one that its call has marked or not yet cleared. -/
def holdings (s : SharedIdPool) (t : Nat) : List Nat := (s.call t).claimed ++ s.owned t

/-- Every id is held once, and the set bits are the ids that are held. -/
structure Held (holdings : Nat → List Nat) (ws : List Word) : Prop where
  nodup : ∀ t, (holdings t).Nodup
  disjoint : ∀ t u id, id ∈ holdings t → id ∈ holdings u → t = u
  bits : ∀ id, isSet ws id = true ↔ ∃ t, id ∈ holdings t

theorem Held.congr {hs hs' : Nat → List Nat} (h : Held hs ws) (hperm : ∀ t, (hs' t).Perm (hs t))
    (hbits : ∀ id, isSet ws' id = isSet ws id) : Held hs' ws' where
  nodup t := (hperm t).nodup_iff.mpr (h.nodup t)
  disjoint t u id ht hu := h.disjoint t u id ((hperm t).mem_iff.mp ht) ((hperm u).mem_iff.mp hu)
  bits id := by
    rw [hbits, h.bits]
    exact exists_congr fun t => (hperm t).mem_iff.symm

/-- A free id is marked for a thread. -/
theorem Held.mark {hs hs' : Nat → List Nat} (h : Held hs ws) (hfree : isSet ws id = false) (hself : hs' t = id :: hs t)
    (hothers : ∀ u, u ≠ t → hs' u = hs u) (hbits : ∀ i, isSet ws' i = (decide (i = id) || isSet ws i)) : Held hs' ws' := by
  have hnone : ∀ u, id ∉ hs u := by
    intro u hu
    have hset := (h.bits id).mpr ⟨u, hu⟩
    simp [hfree] at hset
  have hmem : ∀ u i, i ∈ hs' u ↔ i = id ∧ u = t ∨ i ∈ hs u := by
    intro u i
    by_cases hu : u = t
    · rw [hu, hself, List.mem_cons]
      simp
    · rw [hothers u hu]
      simp [hu]
  refine ⟨fun u => ?_, fun u v i hu hv => ?_, fun i => ?_⟩
  · by_cases hu : u = t
    · rw [hu, hself]
      exact List.nodup_cons.mpr ⟨hnone t, h.nodup t⟩
    · rw [hothers u hu]
      exact h.nodup u
  · rcases (hmem u i).mp hu with ⟨rfl, rfl⟩ | hu
    · rcases (hmem v i).mp hv with ⟨-, rfl⟩ | hv
      · rfl
      · exact absurd hv (hnone v)
    · rcases (hmem v i).mp hv with ⟨rfl, -⟩ | hv
      · exact absurd hu (hnone u)
      · exact h.disjoint u v i hu hv
  · rw [hbits, Bool.or_eq_true, decide_eq_true_iff, h.bits]
    constructor
    · rintro (rfl | ⟨u, hu⟩)
      · exact ⟨t, (hmem t i).mpr (.inl ⟨rfl, rfl⟩)⟩
      · exact ⟨u, (hmem u i).mpr (.inr hu)⟩
    · rintro ⟨u, hu⟩
      exact ((hmem u i).mp hu).imp And.left fun hu => ⟨u, hu⟩

/-- An id of a thread is cleared. -/
theorem Held.clear {hs hs' : Nat → List Nat} (h : Held hs ws) (hself : hs t = id :: hs' t)
    (hothers : ∀ u, u ≠ t → hs' u = hs u) (hbits : ∀ i, isSet ws' i = (!decide (i = id) && isSet ws i)) : Held hs' ws' := by
  have hnodup : id ∉ hs' t ∧ (hs' t).Nodup := by
    have hn := h.nodup t
    rw [hself] at hn
    exact List.nodup_cons.mp hn
  have hown : id ∈ hs t := by simp [hself]
  have hmem : ∀ u i, i ∈ hs' u ↔ i ≠ id ∧ i ∈ hs u := by
    intro u i
    by_cases hu : u = t
    · rw [hu, hself, List.mem_cons]
      constructor
      · intro hi
        exact ⟨fun heq => hnodup.1 (heq ▸ hi), .inr hi⟩
      · rintro ⟨hne, hi⟩
        exact hi.resolve_left hne
    · rw [hothers u hu]
      constructor
      · intro hi
        refine ⟨?_, hi⟩
        rintro rfl
        exact hu (h.disjoint u t i hi hown)
      · exact And.right
  refine ⟨fun u => ?_, fun u v i hu hv => ?_, fun i => ?_⟩
  · by_cases hu : u = t
    · rw [hu]
      exact hnodup.2
    · rw [hothers u hu]
      exact h.nodup u
  · exact h.disjoint u v i ((hmem u i).mp hu).2 ((hmem v i).mp hv).2
  · rw [hbits, Bool.and_eq_true, Bool.not_eq_true', decide_eq_false_iff_not, h.bits]
    constructor
    · rintro ⟨hne, u, hu⟩
      exact ⟨u, (hmem u i).mpr ⟨hne, hu⟩⟩
    · rintro ⟨u, hu⟩
      exact ⟨((hmem u i).mp hu).1, u, ((hmem u i).mp hu).2⟩

end SharedIdPool

open SharedIdPool

/-- What a loaded pointer and a loaded word are, if `ws` at `p` is the array that counts. -/
def BitAccess.Fits (ws : List Word) (p idx : Nat) : BitAccess → Prop
  | array => True
  | load ptr => ptr = p
  | store ptr ele => ptr = p ∧ ele = word ws idx

/-- What a call relies on, if `ws` at `p` is the array that counts. -/
def IdCall.Fits (ws : List Word) (p arraySize : Nat) : IdCall → Prop
  | searchArray _ i => i < arraySize
  | searchWord _ i ptr => ptr = p ∧ i < ws.length
  | mark _ id access => id / 32 < ws.length ∧ isSet ws id = false ∧ access.Fits ws p (id / 32)
  | clear id access => access.Fits ws p (id / 32)
  | _ => True

namespace SharedIdPool

/-- The state of an expansion to `newSize` before it frees the old array. -/
structure Growth (s : SharedIdPool) (p newSize new : Nat) : Prop where
  array : p = s.array
  ne : new ≠ p
  lt : new < s.next
  unfreed : new ∉ s.freed
  arraySize : s.arraySize = s.size / 32
  length : (s.words p).length = s.arraySize
  grown : s.size ≤ newSize
  bound : newSize ≤ s.maxSize

/-- What an expansion relies on. The array that counts is the new one from `kfree` on. -/
def Grows (s : SharedIdPool) (p : Nat) : IdCall → Prop
  | .copy newSize new i => s.Growth p newSize new ∧ i ≤ s.arraySize ∧
      s.words new = (s.words p).take i ++ List.replicate (newSize / 32 - i) 0
  | .freeOld newSize new => s.Growth p newSize new ∧
      s.words new = s.words p ++ List.replicate (newSize / 32 - s.arraySize) 0
  | .setArraySize newSize new => p = new ∧ (s.words p).length = newSize / 32 ∧ newSize ≤ s.maxSize
  | .setArray newSize new => p = new ∧ (s.words p).length = newSize / 32 ∧ s.arraySize = newSize / 32 ∧ newSize ≤ s.maxSize
  | .setSize newSize => (s.words p).length = newSize / 32 ∧ s.arraySize = newSize / 32 ∧ newSize ≤ s.maxSize
  | _ => True

/-- What holds along the runs without races. The array at `p` is the one that counts. -/
structure PoolInv (s : SharedIdPool) (p : Nat) : Prop where
  held : Held s.holdings (s.words p)
  fits : ∀ t, (s.call t).Fits (s.words p) p s.arraySize
  grows : ∀ t, s.Grows p (s.call t)
  locked : ∀ t, (s.call t).locked = true → s.lock = some t
  idle : ∀ t, s.threads ≤ t → s.call t = .idle
  bound : s.size ≤ s.maxSize
  arraySize : s.arraySize ≤ (s.words p).length
  sizes : (∀ t, (s.call t).growing = false) → s.arraySize = s.size / 32 ∧ (s.words p).length = s.arraySize
  current : (∀ t, (s.call t).switching = false) → p = s.array
  next : p < s.next
  freed : ∀ q ∈ s.freed, q < s.next ∧ q ≠ p

theorem locked_of_growing (hc : c.growing = true) : c.locked = true := by
  cases c <;> first | rfl | cases hc

theorem switching_of_not_growing (hc : c.growing = false) : c.switching = false := by
  cases c <;> first | rfl | cases hc

theorem grows_of_not_growing (hc : c.growing = false) : s.Grows p c := by
  cases c <;> trivial

/-- What an expansion relies on does not depend on the calls, the lock and the owners. -/
theorem Grows.frame {f : Nat → IdCall} {l : Option Nat} {o : Nat → List Nat} (h : s.Grows p c) :
    Grows { s with call := f, lock := l, owned := o } p c := by
  cases c <;> try exact h
  case copy newSize new i =>
    obtain ⟨hg, hrest⟩ := h
    exact ⟨⟨hg.array, hg.ne, hg.lt, hg.unfreed, hg.arraySize, hg.length, hg.grown, hg.bound⟩, hrest⟩
  case freeOld newSize new =>
    obtain ⟨hg, hrest⟩ := h
    exact ⟨⟨hg.array, hg.ne, hg.lt, hg.unfreed, hg.arraySize, hg.length, hg.grown, hg.bound⟩, hrest⟩

/-- No call has the property if none has it behind the step of one that does not have it. -/
theorem none_of_update {f : IdCall → Bool} (hold : f (s.call t) = false) (hnone : ∀ u, f (update s.call t c u) = false)
    (u : Nat) : f (s.call u) = false := by
  by_cases hu : u = t
  · rw [hu, hold]
  · have hcall := hnone u
    rwa [update_of_ne hu] at hcall

namespace PoolInv

theorem lt_threads (h : PoolInv s p) (hcall : s.call t ≠ .idle) : t < s.threads := by
  by_contra hge
  exact hcall (h.idle t (by omega))

/-- At most one call is in the section under the lock. -/
theorem unlocked (h : PoolInv s p) (ht : (s.call t).locked = true) (hu : u ≠ t) : (s.call u).locked = false := by
  by_contra hlocked
  have hlock := h.locked u (by simpa using hlocked)
  rw [h.locked t ht] at hlock
  exact hu (Option.some.inj hlock).symm

theorem not_growing (h : PoolInv s p) (ht : (s.call t).locked = true) (hu : u ≠ t) : (s.call u).growing = false := by
  by_contra hgrowing
  have hlocked := locked_of_growing (by simpa using hgrowing)
  rw [h.unlocked ht hu] at hlocked
  cases hlocked

/-- The call of a thread changes outside of an expansion. -/
theorem move {l : Option Nat} {o : Nat → List Nat} (h : PoolInv s p) (ht : t < s.threads)
    (hfits : c.Fits (s.words p) p s.arraySize) (hold : (s.call t).growing = false) (hnew : c.growing = false)
    (hself : c.locked = true → l = some t) (hothers : ∀ u, u ≠ t → (s.call u).locked = true → l = some u)
    (hperm : ∀ u, ((update s.call t c u).claimed ++ o u).Perm (s.holdings u)) :
    PoolInv { s with call := update s.call t c, lock := l, owned := o } p where
  held := h.held.congr hperm fun _ => rfl
  fits := (forall_update_iff s.call fun _ c => c.Fits (s.words p) p s.arraySize).mpr ⟨hfits, fun u _ => h.fits u⟩
  grows := (forall_update_iff s.call fun _ c => Grows _ p c).mpr ⟨grows_of_not_growing hnew, fun u _ => (h.grows u).frame⟩
  locked := (forall_update_iff s.call fun u c => c.locked = true → l = some u).mpr ⟨hself, hothers⟩
  idle := (forall_update_iff s.call fun u c => s.threads ≤ u → c = .idle).mpr
    ⟨fun hge => absurd ht (by omega), fun u _ => h.idle u⟩
  bound := h.bound
  arraySize := h.arraySize
  sizes hnone := h.sizes (none_of_update hold hnone)
  current hnone := h.current (none_of_update (switching_of_not_growing hold) hnone)
  next := h.next
  freed := h.freed

theorem claimed_goto (hclaimed : c.claimed = (s.call t).claimed) (u : Nat) :
    ((update s.call t c u).claimed ++ s.owned u).Perm (s.holdings u) := by
  rw [apply_place s.call t c IdCall.claimed hclaimed u]
  exact .refl _

/-- The call of a thread goes on outside of an expansion. -/
theorem goto (h : PoolInv s p) (hcall : s.call t ≠ .idle) (hfits : c.Fits (s.words p) p s.arraySize)
    (hold : (s.call t).growing = false) (hnew : c.growing = false) (hlocked : c.locked = true → (s.call t).locked = true)
    (hclaimed : c.claimed = (s.call t).claimed) : PoolInv (s.goto t c) p :=
  h.move (h.lt_threads hcall) hfits hold hnew (fun hc => h.locked t (hlocked hc)) (fun u _ => h.locked u)
    (claimed_goto hclaimed)

/-- A word of the array that counts is stored, in no other call's way. -/
theorem store (h : PoolInv s p) (hcall : s.call t ≠ .idle) (hold : (s.call t).growing = false) (hnew : c.growing = false)
    (hfits : ∀ ws aSize, c.Fits ws p aSize) (hlocked : c.locked = true → (s.call t).locked = true)
    (hquiet : ∀ u, u ≠ t → (s.call u).loaded p idx = false)
    (hothers : ∀ u, u ≠ t → (s.call u).Fits ((s.words p).set idx ele) p s.arraySize)
    (hheld : Held ((s.storeWord p idx ele).goto t c).holdings ((s.words p).set idx ele)) :
    PoolInv ((s.storeWord p idx ele).goto t c) p := by
  have hwords : ((s.storeWord p idx ele).goto t c).words p = (s.words p).set idx ele := update_self ..
  have hlength : ((s.words p).set idx ele).length = (s.words p).length := List.length_set
  refine ⟨?_, ?_, ?_, ?_, ?_, h.bound, ?_, ?_, ?_, h.next, h.freed⟩
  · rw [hwords]
    exact hheld
  · rw [hwords]
    exact (forall_update_iff s.call fun _ c => c.Fits _ p s.arraySize).mpr ⟨hfits _ _, hothers⟩
  · refine (forall_update_iff s.call fun _ c => Grows _ p c).mpr ⟨grows_of_not_growing hnew, fun u hu => ?_⟩
    have hgrows := h.grows u
    have hword := hquiet u hu
    cases hc : s.call u <;> rw [hc] at hgrows hword <;> try trivial
    case copy newSize new i =>
      obtain ⟨hgrowth, hi, hnew⟩ := hgrows
      have hle : i ≤ idx := by simpa [IdCall.loaded] using hword
      refine ⟨⟨hgrowth.array, hgrowth.ne, hgrowth.lt, hgrowth.unfreed, hgrowth.arraySize, ?_, hgrowth.grown, hgrowth.bound⟩, hi, ?_⟩
      · rw [hwords, hlength]
        exact hgrowth.length
      · rw [hwords, List.take_set_of_le hle, ← hnew]
        exact update_of_ne hgrowth.ne ..
    case setArraySize newSize new =>
      obtain ⟨hp, hlen, hbound⟩ := hgrows
      exact ⟨hp, by rw [hwords, hlength]; exact hlen, hbound⟩
    case setArray newSize new =>
      obtain ⟨hp, hlen, hrest⟩ := hgrows
      exact ⟨hp, by rw [hwords, hlength]; exact hlen, hrest⟩
    case setSize newSize =>
      obtain ⟨hlen, hrest⟩ := hgrows
      exact ⟨by rw [hwords, hlength]; exact hlen, hrest⟩
  · exact (forall_update_iff s.call fun u c => c.locked = true → s.lock = some u).mpr
      ⟨fun hc => h.locked t (hlocked hc), fun u _ => h.locked u⟩
  · exact (forall_update_iff s.call fun u c => s.threads ≤ u → c = .idle).mpr
      ⟨fun hge => absurd (h.idle t hge) hcall, fun u _ => h.idle u⟩
  · rw [hwords, hlength]
    exact h.arraySize
  · rw [hwords, hlength]
    exact fun hnone => h.sizes (none_of_update hold hnone)
  · exact fun hnone => h.current (none_of_update (switching_of_not_growing hold) hnone)

/-- The search goes on, or it has found a free bit. -/
theorem searchWord {retry : Bool} (h : PoolInv s p) (hcall : s.call t = .searchWord retry i ptr)
    (hrun : s.run t (.searchWord retry i ptr) = some s') : PoolInv s' p := by
  have hfits := h.fits t
  rw [hcall] at hfits
  obtain ⟨rfl, hlt⟩ := hfits
  obtain rfl := Option.some.inj hrun
  have hne : s.call t ≠ .idle := by simp [hcall]
  split_ifs with hfull
  · split
    next j hj =>
      obtain ⟨hj32, hfree, -⟩ := Bitmap.findInWord_eq_some hj
      have hdiv : (i * 32 + j) / 32 = i := by omega
      have hmod : (i * 32 + j) % 32 = j := by omega
      refine h.goto hne ⟨by omega, ?_, trivial⟩ (by rw [hcall]; rfl) rfl (by rw [hcall]; exact id) (by rw [hcall]; rfl)
      rw [isSet_eq, hdiv, hmod]
      exact hfree
    next => exact h.goto hne trivial (by rw [hcall]; rfl) rfl (by rw [hcall]; exact id) (by rw [hcall]; rfl)
  · exact h.goto hne trivial (by rw [hcall]; rfl) rfl (by rw [hcall]; exact id) (by rw [hcall]; rfl)

/-- The array pointer that a call loads is that of the array that counts. -/
theorem array_eq (h : PoolInv s p) (hself : (s.call t).switching = false)
    (hquiet : ∀ u, u < s.threads → u ≠ t → (!(s.call u).switching) = true) : s.array = p := by
  refine (h.current fun u => ?_).symm
  by_cases hu : u = t
  · rw [hu, hself]
  · by_cases hlt : u < s.threads
    · simpa using hquiet u hlt hu
    · rw [h.idle u (by omega)]
      rfl

/-- What the test of `quiet` says holds of all other threads. -/
theorem others {f : IdCall → Bool} (h : PoolInv s p) (hidle : f .idle = true)
    (hquiet : ∀ u, u < s.threads → u ≠ t → f (s.call u) = true) : ∀ u, u ≠ t → f (s.call u) = true := by
  intro u hu
  by_cases hlt : u < s.threads
  · exact hquiet u hlt hu
  · rw [h.idle u (by omega)]
    exact hidle

/-- Another call that has not loaded the stored word keeps what it relies on. -/
theorem fits_store (hfits : c.Fits ws p i) (hloaded : c.loaded p idx = false)
    (hbits : ∀ id, c.found id = true → isSet ws id = false → isSet (ws.set idx ele) id = false) :
    c.Fits (ws.set idx ele) p i := by
  have hword : ∀ {access : BitAccess} {id : Nat}, access.Fits ws p (id / 32) →
      (access.loaded p && Bitmap.indexFromBit id == idx) = false → access.Fits (ws.set idx ele) p (id / 32) := by
    intro access id haccess hnot
    cases access with
    | array => trivial
    | load ptr => exact haccess
    | store ptr ele' =>
      obtain ⟨rfl, rfl⟩ := haccess
      have hne : idx ≠ id / 32 := by
        rintro rfl
        simp [BitAccess.loaded, Bitmap.indexFromBit] at hnot
      refine ⟨rfl, ?_⟩
      simp only [word, List.getD_eq_getElem?_getD]
      rw [List.getElem?_set_ne hne]
  cases c <;> try exact hfits
  case searchWord retry j ptr =>
    obtain ⟨hptr, hlt⟩ := hfits
    exact ⟨hptr, by rwa [List.length_set]⟩
  case mark retry id access =>
    obtain ⟨hlt, hfree, haccess⟩ := hfits
    exact ⟨by rwa [List.length_set], hbits id (by simp [IdCall.found]) hfree, hword haccess hloaded⟩
  case clear id access => exact hword hfits hloaded

theorem markStore {retry : Bool} (h : PoolInv s p) (hcall : s.call t = .mark retry id (.store ptr ele))
    (hquiet : ∀ u, u < s.threads → u ≠ t → (s.call t).quiet s.array (s.call u) = true)
    (hrun : s.run t (.mark retry id (.store ptr ele)) = some s') : PoolInv s' p := by
  have hfits := h.fits t
  rw [hcall] at hfits
  obtain ⟨hlt, hfree, rfl, rfl⟩ := hfits
  obtain rfl := Option.some.inj hrun
  rw [hcall] at hquiet
  have hothers := h.others (f := fun c => !c.loaded ptr (id / 32) && !c.found id) rfl hquiet
  simp only [Bool.and_eq_true, Bool.not_eq_true'] at hothers
  refine h.store (by simp [hcall]) (by rw [hcall]; rfl) rfl (fun _ _ => trivial) (by rw [hcall]; exact fun hl => hl)
    (fun u hu => (hothers u hu).1) (fun u hu => ?_) ?_
  · refine fits_store (h.fits u) (hothers u hu).1 fun i hfound hclear => ?_
    have hne : i ≠ id := by
      rintro rfl
      rw [(hothers u hu).2] at hfound
      cases hfound
    exact (isSet_mark hlt i).trans (by simp [hne, hclear])
  · refine h.held.mark (t := t) hfree ?_ (fun u hu => ?_) (isSet_mark hlt)
    · simp [holdings, SharedIdPool.goto, storeWord, hcall, IdCall.claimed]
    · simp [holdings, SharedIdPool.goto, storeWord, update_of_ne hu]

theorem clearStore (h : PoolInv s p) (hcall : s.call t = .clear id (.store ptr ele))
    (hquiet : ∀ u, u < s.threads → u ≠ t → (s.call t).quiet s.array (s.call u) = true)
    (hrun : s.run t (.clear id (.store ptr ele)) = some s') : PoolInv s' p := by
  have hfits := h.fits t
  rw [hcall] at hfits
  obtain ⟨rfl, rfl⟩ := hfits
  obtain rfl := Option.some.inj hrun
  rw [hcall] at hquiet
  have hothers := h.others (f := fun c => !c.loaded ptr (id / 32)) rfl hquiet
  simp only [Bool.not_eq_true'] at hothers
  refine h.store (by simp [hcall]) (by rw [hcall]; rfl) rfl (fun _ _ => trivial) nofun hothers (fun u hu => ?_) ?_
  · exact fits_store (h.fits u) (hothers u hu) fun i _ hclear => (isSet_clear _ id i).trans (by simp [hclear])
  · refine h.held.clear (t := t) ?_ (fun u hu => ?_) (isSet_clear _ id)
    · simp [holdings, SharedIdPool.goto, storeWord, hcall, IdCall.claimed]
    · simp [holdings, SharedIdPool.goto, storeWord, update_of_ne hu]

/-- The holder of the lock takes a step of an expansion. -/
theorem expand {q : Nat} (h : PoolInv s p) (hlocked : (s.call t).locked = true) (hcall : s'.call = update s.call t c)
    (hframe : s'.lock = s.lock ∧ s'.owned = s.owned ∧ s'.threads = s.threads)
    (hclaimed : (s.call t).claimed = [] ∧ c.claimed = []) (hwords : s'.words q = ws)
    (hbits : ∀ id, isSet ws id = isSet (s.words p) id)
    (hfits : c.Fits ws q s'.arraySize ∧ ∀ u, u ≠ t → (s.call u).Fits ws q s'.arraySize)
    (hgrows : s'.Grows q c) (hbound : s'.size ≤ s'.maxSize) (hsize : s'.arraySize ≤ ws.length)
    (hsizes : c.growing = false → s'.arraySize = s'.size / 32 ∧ ws.length = s'.arraySize)
    (hcurrent : c.switching = false → q = s'.array) (hnext : q < s'.next) (hfreed : ∀ x ∈ s'.freed, x < s'.next ∧ x ≠ q) :
    PoolInv s' q := by
  obtain ⟨hlock, howned, hthreads⟩ := hframe
  have hself : s'.call t = c := by rw [hcall, update_self]
  subst hwords
  refine ⟨h.held.congr (fun u => ?_) hbits, ?_, ?_, ?_, ?_, hbound, hsize, fun hnone => hsizes ?_,
    fun hnone => hcurrent ?_, hnext, hfreed⟩
  · rw [holdings, holdings, hcall, howned,
      apply_place s.call t c IdCall.claimed (hclaimed.2.trans hclaimed.1.symm) u]
  · rw [hcall]
    exact (forall_update_iff s.call fun _ c => c.Fits _ q s'.arraySize).mpr hfits
  · rw [hcall]
    exact (forall_update_iff s.call fun _ c => s'.Grows q c).mpr
      ⟨hgrows, fun u hu => grows_of_not_growing (h.not_growing hlocked hu)⟩
  · rw [hcall, hlock]
    exact (forall_update_iff s.call fun u c => c.locked = true → s.lock = some u).mpr
      ⟨fun _ => h.locked t hlocked, fun u _ => h.locked u⟩
  · rw [hcall, hthreads]
    refine (forall_update_iff s.call fun u c => s.threads ≤ u → c = .idle).mpr ⟨fun hge => ?_, fun u _ => h.idle u⟩
    rw [h.idle t hge] at hlocked
    cases hlocked
  · rw [← hself]
    exact hnone t
  · rw [← hself]
    exact hnone t

/-- A new array is allocated and cleared. -/
theorem full (h : PoolInv s p) (hcall : s.call t = .full) (hrun : s.run t .full = some s') : PoolInv s' p := by
  have hlocked : (s.call t).locked = true := by rw [hcall]; rfl
  have hnone : ∀ u, (s.call u).growing = false := by
    intro u
    by_cases hu : u = t
    · rw [hu, hcall]
      rfl
    · exact h.not_growing hlocked hu
  obtain ⟨hsize, hlength⟩ := h.sizes hnone
  have hcurrent := h.current fun u => switching_of_not_growing (hnone u)
  have hbound := h.bound
  have hnext := h.next
  rw [SharedIdPool.run] at hrun
  simp only at hrun
  split_ifs at hrun with hmax hsame
  · obtain rfl := Option.some.inj hrun
    exact h.goto (by simp [hcall]) trivial (by rw [hcall]; rfl) rfl nofun (by rw [hcall]; rfl)
  · obtain rfl := Option.some.inj hrun
    have hgrown : s.size ≤ min (s.size + s.expandSize) s.maxSize := by omega
    have hwords : update s.words s.next (List.replicate (min (s.size + s.expandSize) s.maxSize / 32) 0) p = s.words p :=
      update_of_ne (by omega) ..
    have hfreed : ∀ x ∈ s.freed, x < s.next + 1 ∧ x ≠ p := fun x hx => ⟨by have := (h.freed x hx).1; omega, (h.freed x hx).2⟩
    refine h.expand hlocked rfl ⟨rfl, rfl, rfl⟩ ⟨by rw [hcall]; rfl, rfl⟩ hwords (fun _ => rfl) ⟨trivial, fun u _ => h.fits u⟩ ?_
      h.bound h.arraySize nofun (fun _ => hcurrent) (Nat.lt_succ_of_lt hnext) hfreed
    refine ⟨⟨hcurrent, by omega, Nat.lt_succ_self _, fun hin => ?_, hsize, ?_, hgrown, Nat.min_le_right ..⟩, Nat.zero_le _, ?_⟩
    · have hlt := (h.freed _ hin).1
      omega
    · exact (congrArg List.length hwords).trans hlength
    · exact update_self ..

/-- A word is copied. -/
theorem copy {newSize new : Nat} (h : PoolInv s p) (hcall : s.call t = .copy newSize new i)
    (hrun : s.run t (.copy newSize new i) = some s') : PoolInv s' p := by
  have hlocked : (s.call t).locked = true := by rw [hcall]; rfl
  have hgrows := h.grows t
  rw [hcall] at hgrows
  obtain ⟨hg, hi, hnew⟩ := hgrows
  rw [SharedIdPool.run] at hrun
  split_ifs at hrun with hlt
  · obtain rfl := Option.some.inj hrun
    have hlen : i < (s.words p).length := by
      rw [hg.length]
      exact hlt
    have hle : s.size / 32 ≤ newSize / 32 := Nat.div_le_div_right hg.grown
    have hsize := hg.arraySize
    have hrest : newSize / 32 - i = newSize / 32 - (i + 1) + 1 := by omega
    have hwords : ((s.storeWord new i (word (s.words s.array) i)).goto t (.copy newSize new (i + 1))).words p = s.words p :=
      update_of_ne hg.ne.symm ..
    refine h.expand hlocked rfl ⟨rfl, rfl, rfl⟩ ⟨by rw [hcall]; rfl, rfl⟩ hwords (fun _ => rfl) ⟨trivial, fun u _ => h.fits u⟩ ?_
      h.bound h.arraySize nofun (fun _ => hg.array) h.next h.freed
    refine ⟨⟨hg.array, hg.ne, hg.lt, hg.unfreed, hsize, (congrArg List.length hwords).trans hg.length, hg.grown, hg.bound⟩,
      hlt, ?_⟩
    rw [hwords, ← set_copy hlen, ← hrest, ← hnew, hg.array]
    exact update_self ..
  · obtain rfl := Option.some.inj hrun
    have hlen : (s.words p).take i = s.words p := List.take_of_length_le (by rw [hg.length]; omega)
    refine h.expand hlocked rfl ⟨rfl, rfl, rfl⟩ ⟨by rw [hcall]; rfl, rfl⟩ rfl (fun _ => rfl) ⟨trivial, fun u _ => h.fits u⟩
      ?_ h.bound h.arraySize nofun (fun _ => hg.array) h.next h.freed
    refine ⟨⟨hg.array, hg.ne, hg.lt, hg.unfreed, hg.arraySize, hg.length, hg.grown, hg.bound⟩, ?_⟩
    have heq : i = s.arraySize := by omega
    rw [hlen, heq] at hnew
    exact hnew

/-- The old array is freed: from here on the new one counts. -/
theorem freeOld {newSize new : Nat} (h : PoolInv s p) (hcall : s.call t = .freeOld newSize new)
    (hquiet : ∀ u, u < s.threads → u ≠ t → (s.call t).quiet s.array (s.call u) = true)
    (hrun : s.run t (.freeOld newSize new) = some s') : PoolInv s' new := by
  have hlocked : (s.call t).locked = true := by rw [hcall]; rfl
  have hgrows := h.grows t
  rw [hcall] at hgrows hquiet
  obtain ⟨hg, hnew⟩ := hgrows
  have hothers := h.others (f := fun c => !c.uses s.array) rfl hquiet
  obtain rfl := Option.some.inj hrun
  have hle : s.size / 32 ≤ newSize / 32 := Nat.div_le_div_right hg.grown
  have hlength := hg.length
  have hsize := hg.arraySize
  have hlen : (s.words new).length = newSize / 32 := by
    rw [hnew, List.length_append, List.length_replicate]
    omega
  refine h.expand hlocked rfl ⟨rfl, rfl, rfl⟩ ⟨by rw [hcall]; rfl, rfl⟩ hnew (isSet_append_zeros _ _)
    ⟨trivial, fun u hu => ?_⟩ ⟨rfl, hlen, hg.bound⟩ h.bound ?_ nofun nofun hg.lt ?_
  · have hfits := h.fits u
    have hunused := hothers u hu
    rw [← hg.array] at hunused
    cases hc : s.call u <;> rw [hc] at hfits hunused <;> try exact hfits
    case searchWord retry i ptr => simp [IdCall.uses, hfits.1] at hunused
    case mark retry id access =>
      obtain ⟨hlt, hfree, haccess⟩ := hfits
      refine ⟨by rw [List.length_append]; omega, by rwa [isSet_append_zeros], ?_⟩
      cases access with
      | array => trivial
      | load ptr => simp [IdCall.uses, BitAccess.uses, show ptr = p from haccess] at hunused
      | store ptr ele => simp [IdCall.uses, BitAccess.uses, haccess.1] at hunused
    case clear id access =>
      cases access with
      | array => trivial
      | load ptr => simp [IdCall.uses, BitAccess.uses, show ptr = p from hfits] at hunused
      | store ptr ele => simp [IdCall.uses, BitAccess.uses, hfits.1] at hunused
  · rw [← hnew, hlen]
    change s.arraySize ≤ newSize / 32
    omega
  · intro x hx
    rcases List.mem_cons.mp hx with rfl | hx
    · exact ⟨hg.array ▸ h.next, hg.array ▸ hg.ne.symm⟩
    · exact ⟨(h.freed x hx).1, fun heq => hg.unfreed (heq ▸ hx)⟩

theorem setArraySize {newSize new : Nat} (h : PoolInv s p) (hcall : s.call t = .setArraySize newSize new)
    (hrun : s.run t (.setArraySize newSize new) = some s') : PoolInv s' p := by
  have hlocked : (s.call t).locked = true := by rw [hcall]; rfl
  have hgrows := h.grows t
  rw [hcall] at hgrows
  obtain ⟨hp, hlen, hbound⟩ := hgrows
  obtain rfl := Option.some.inj hrun
  have hle := h.arraySize
  refine h.expand hlocked rfl ⟨rfl, rfl, rfl⟩ ⟨by rw [hcall]; rfl, rfl⟩ rfl (fun _ => rfl) ⟨trivial, fun u _ => ?_⟩
    ⟨hp, hlen, rfl, hbound⟩ h.bound (Nat.le_of_eq hlen.symm) nofun nofun h.next h.freed
  have hfits := h.fits u
  cases hc : s.call u <;> rw [hc] at hfits <;> try exact hfits
  case searchArray retry i => exact Nat.lt_of_lt_of_le hfits (hlen ▸ hle)

theorem setArray {newSize new : Nat} (h : PoolInv s p) (hcall : s.call t = .setArray newSize new)
    (hrun : s.run t (.setArray newSize new) = some s') : PoolInv s' p := by
  have hlocked : (s.call t).locked = true := by rw [hcall]; rfl
  have hgrows := h.grows t
  rw [hcall] at hgrows
  obtain ⟨hp, hrest⟩ := hgrows
  obtain rfl := Option.some.inj hrun
  exact h.expand hlocked rfl ⟨rfl, rfl, rfl⟩ ⟨by rw [hcall]; rfl, rfl⟩ rfl (fun _ => rfl) ⟨trivial, fun u _ => h.fits u⟩
    hrest h.bound h.arraySize nofun (fun _ => hp) h.next h.freed

theorem setSize {newSize : Nat} (h : PoolInv s p) (hcall : s.call t = .setSize newSize)
    (hrun : s.run t (.setSize newSize) = some s') : PoolInv s' p := by
  have hlocked : (s.call t).locked = true := by rw [hcall]; rfl
  have hgrows := h.grows t
  rw [hcall] at hgrows
  obtain ⟨hlen, hsize, hbound⟩ := hgrows
  obtain rfl := Option.some.inj hrun
  have hcurrent : p = s.array := h.current fun u => by
    by_cases hu : u = t
    · rw [hu, hcall]
      rfl
    · exact switching_of_not_growing (h.not_growing hlocked hu)
  exact h.expand hlocked rfl ⟨rfl, rfl, rfl⟩ ⟨by rw [hcall]; rfl, rfl⟩ rfl (fun _ => rfl) ⟨trivial, fun u _ => h.fits u⟩
    trivial hbound h.arraySize (fun _ => ⟨hsize, hlen.trans hsize.symm⟩) (fun _ => hcurrent) h.next h.freed

/-- A step of a call that does not race keeps the invariant. -/
theorem run (h : PoolInv s p) (hquiet : s.RaceFree (.run t)) (hrun : s.run t (s.call t) = some s') :
    ∃ q, PoolInv s' q := by
  have hfits := h.fits t
  cases hcall : s.call t <;> rw [hcall] at hfits hrun
  case idle => cases hrun
  case expanded => cases hrun
  case search retry i =>
    obtain rfl := Option.some.inj hrun
    have hne : s.call t ≠ .idle := by simp [hcall]
    have hold : (s.call t).growing = false := by rw [hcall]; rfl
    have hclaimed : (s.call t).claimed = [] := by rw [hcall]; rfl
    refine ⟨p, ?_⟩
    split_ifs with hlt hretry
    · exact h.goto hne hlt hold rfl (by rw [hcall]; exact fun hl => hl) hclaimed.symm
    · exact h.goto hne trivial hold rfl nofun hclaimed.symm
    · exact h.goto hne trivial hold rfl (fun _ => by simp [hcall, IdCall.locked, hretry]) hclaimed.symm
  case searchArray retry i =>
    obtain rfl := Option.some.inj hrun
    simp only [RaceFree, hcall] at hquiet
    have harray := h.array_eq (by rw [hcall]; rfl) hquiet
    exact ⟨p, h.goto (by simp [hcall]) ⟨harray, Nat.lt_of_lt_of_le hfits h.arraySize⟩ (by rw [hcall]; rfl) rfl
      (by rw [hcall]; exact fun hl => hl) (by rw [hcall]; rfl)⟩
  case searchWord retry i ptr => exact ⟨p, h.searchWord hcall hrun⟩
  case mark retry id access =>
    obtain ⟨hlt, hfree, haccess⟩ := hfits
    cases access with
    | array =>
      obtain rfl := Option.some.inj hrun
      simp only [RaceFree, hcall] at hquiet
      have harray := h.array_eq (by rw [hcall]; rfl) hquiet
      exact ⟨p, h.goto (by simp [hcall]) ⟨hlt, hfree, harray⟩ (by rw [hcall]; rfl) rfl (by rw [hcall]; exact fun hl => hl)
        (by rw [hcall]; rfl)⟩
    | load ptr =>
      obtain rfl : ptr = p := haccess
      obtain rfl := Option.some.inj hrun
      exact ⟨ptr, h.goto (by simp [hcall]) ⟨hlt, hfree, rfl, rfl⟩ (by rw [hcall]; rfl) rfl
        (by rw [hcall]; exact fun hl => hl) (by rw [hcall]; rfl)⟩
    | store ptr ele => exact ⟨p, h.markStore hcall hquiet hrun⟩
  case marked retry id =>
    obtain rfl := Option.some.inj hrun
    refine ⟨p, h.move (h.lt_threads (by simp [hcall])) trivial (by rw [hcall]; rfl) rfl nofun (fun u hu hl => ?_) fun u => ?_⟩
    · cases retry with
      | true => exact h.locked u hl
      | false =>
        rw [h.unlocked (t := t) (by rw [hcall]; rfl) hu] at hl
        cases hl
    · by_cases hu : u = t
      · subst hu
        simp [holdings, hcall, IdCall.claimed]
      · simp [holdings, update_of_ne hu]
  case full => exact ⟨p, h.full hcall hrun⟩
  case copy newSize new i => exact ⟨p, h.copy hcall hrun⟩
  case freeOld newSize new => exact ⟨new, h.freeOld hcall hquiet hrun⟩
  case setArraySize newSize new => exact ⟨p, h.setArraySize hcall hrun⟩
  case setArray newSize new => exact ⟨p, h.setArray hcall hrun⟩
  case setSize newSize => exact ⟨p, h.setSize hcall hrun⟩
  case clear id access =>
    cases access with
    | array =>
      obtain rfl := Option.some.inj hrun
      simp only [RaceFree, hcall] at hquiet
      have harray := h.array_eq (by rw [hcall]; rfl) hquiet
      exact ⟨p, h.goto (by simp [hcall]) harray (by rw [hcall]; rfl) rfl nofun (by rw [hcall]; rfl)⟩
    | load ptr =>
      obtain rfl : ptr = p := hfits
      obtain rfl := Option.some.inj hrun
      exact ⟨ptr, h.goto (by simp [hcall]) ⟨rfl, rfl⟩ (by rw [hcall]; rfl) rfl nofun (by rw [hcall]; rfl)⟩
    | store ptr ele => exact ⟨p, h.clearStore hcall hquiet hrun⟩

theorem reuse {ws : List Word} (h : PoolInv s p) (hptr : ptr ∈ s.freed) :
    PoolInv { s with words := update s.words ptr ws } p := by
  have hwords : update s.words ptr ws p = s.words p := update_of_ne (h.freed ptr hptr).2.symm ..
  refine ⟨?_, ?_, fun u => ?_, h.locked, h.idle, h.bound, ?_, ?_, h.current, h.next, h.freed⟩
  · exact h.held.congr (fun _ => .refl _) fun id => congrArg (isSet · id) hwords
  · simp only [hwords]
    exact h.fits
  · have hgrows := h.grows u
    cases hc : s.call u <;> rw [hc] at hgrows <;> try trivial
    case copy newSize new i =>
      obtain ⟨hg, hi, hnew⟩ := hgrows
      have hne : new ≠ ptr := fun heq => hg.unfreed (heq ▸ hptr)
      exact ⟨⟨hg.array, hg.ne, hg.lt, hg.unfreed, hg.arraySize, (congrArg List.length hwords).trans hg.length, hg.grown, hg.bound⟩,
        hi, (update_of_ne hne ws s.words).trans (hnew.trans (congrArg (fun w => w.take i ++ _) hwords.symm))⟩
    case freeOld newSize new =>
      obtain ⟨hg, hnew⟩ := hgrows
      have hne : new ≠ ptr := fun heq => hg.unfreed (heq ▸ hptr)
      exact ⟨⟨hg.array, hg.ne, hg.lt, hg.unfreed, hg.arraySize, (congrArg List.length hwords).trans hg.length, hg.grown, hg.bound⟩,
        (update_of_ne hne ws s.words).trans (hnew.trans (congrArg (fun w => w ++ _) hwords.symm))⟩
    case setArraySize newSize new => exact ⟨hgrows.1, (congrArg List.length hwords).trans hgrows.2.1, hgrows.2.2⟩
    case setArray newSize new => exact ⟨hgrows.1, (congrArg List.length hwords).trans hgrows.2.1, hgrows.2.2⟩
    case setSize newSize => exact ⟨(congrArg List.length hwords).trans hgrows.1, hgrows.2⟩
  · simp only [hwords]
    exact h.arraySize
  · simp only [hwords]
    exact h.sizes

theorem step {a : IdAction} (h : PoolInv s p) (ha : s.RaceFree a) (hstep : s.step a = some s') : ∃ q, PoolInv s' q := by
  cases a with
  | allocate t =>
    rw [SharedIdPool.step] at hstep
    split_ifs at hstep with hcond
    obtain ⟨hlt, hcall, hlock⟩ := hcond
    obtain rfl := Option.some.inj hstep
    refine ⟨p, h.move hlt trivial (by rw [hcall]; rfl) rfl (fun _ => rfl) (fun u _ hl => ?_) (claimed_goto (by rw [hcall]; rfl))⟩
    have hheld := h.locked u hl
    simp [hlock] at hheld
  | free t id =>
    rw [SharedIdPool.step] at hstep
    split_ifs at hstep with hcond
    obtain ⟨hlt, hcall, hown⟩ := hcond
    obtain rfl := Option.some.inj hstep
    refine ⟨p, h.move hlt trivial (by rw [hcall]; rfl) rfl nofun (fun u _ => h.locked u) fun u => ?_⟩
    by_cases hu : u = t
    · subst hu
      simp only [holdings, hcall, IdCall.claimed, update_self, List.nil_append]
      exact (List.perm_cons_erase hown).symm
    · simp [holdings, update_of_ne hu]
  | run t => exact h.run ha hstep
  | expanded t success =>
    rw [SharedIdPool.step] at hstep
    by_cases hcall : s.call t = .expanded
    · rw [if_pos hcall] at hstep
      obtain rfl := Option.some.inj hstep
      have hne : s.call t ≠ .idle := by simp [hcall]
      have hclaimed : (s.call t).claimed = [] := by rw [hcall]; rfl
      cases success with
      | false => exact ⟨p, h.goto hne trivial (by rw [hcall]; rfl) rfl nofun hclaimed.symm⟩
      | true =>
        refine ⟨p, h.move (h.lt_threads hne) trivial (by rw [hcall]; rfl) rfl nofun (fun u hu hl => ?_)
          (claimed_goto hclaimed.symm)⟩
        rw [h.unlocked (t := t) (by rw [hcall]; rfl) hu] at hl
        cases hl
    · rw [if_neg hcall] at hstep
      cases hstep
  | exhausted t garbage => exact ha.elim
  | reuse ptr words =>
    rw [SharedIdPool.step] at hstep
    split_ifs at hstep with hptr
    obtain rfl := Option.some.inj hstep
    exact ⟨p, h.reuse hptr⟩

end PoolInv

/-- What holds in every state of a run. -/
def Sound (s : SharedIdPool) : Prop := ∃ p, PoolInv s p

theorem start_sound {threads size maxSize : Nat} (hsize : size ≤ maxSize) : (start threads size maxSize).Sound := by
  refine ⟨0, ⟨fun _ => .nil, nofun, fun id => ?_⟩, fun _ => trivial, fun _ => trivial, nofun, fun _ _ => rfl, hsize, ?_,
    fun _ => ⟨rfl, ?_⟩, fun _ => rfl, Nat.one_pos, nofun⟩
  · refine iff_of_false ?_ (by simp [holdings, start, IdCall.claimed])
    change ¬ isSet (List.replicate (size / 32) 0) id = true
    rw [isSet_zeros]
    decide
  · simp [start]
  · simp [start]

theorem Sound.step {a : IdAction} (hs : s.Sound) (h : Guarded RaceFree (Steps step) s a s') : s'.Sound := by
  obtain ⟨p, hp⟩ := hs
  exact hp.step h.1 h.2

/-- In a run without races in which no call finds the pool exhausted no id is ever owned by two
threads, and the set bits are the owned ids whenever no call is in progress. -/
theorem ids_owned_once {threads size maxSize : Nat} {actions : List IdAction} (hsize : size ≤ maxSize)
    (hrun : Run (Guarded RaceFree (Steps step)) (start threads size maxSize) actions s) : s.OwnedOnce ∧ s.Settled := by
  obtain ⟨p, hp⟩ := hrun.invariant (fun hs hstep => hs.step hstep) (start_sound hsize)
  have hsub : ∀ {t id}, id ∈ s.owned t → id ∈ s.holdings t := fun hid => List.mem_append_right _ hid
  refine ⟨⟨fun t => (hp.held.nodup t).sublist (List.sublist_append_right ..), fun t u id ht hu => ?_⟩, fun hidle id => ?_⟩
  · exact hp.held.disjoint t u id (hsub ht) (hsub hu)
  · have hcurrent : p = s.array := hp.current fun t => by
      rw [hidle t]
      rfl
    have hholdings : ∀ t, s.holdings t = s.owned t := by
      intro t
      rw [holdings, hidle t]
      rfl
    rw [← hcurrent, hp.held.bits]
    exact exists_congr fun t => by rw [hholdings]

/-- The actions of an allocation that finds a free id in the first word. -/
def sampleAllocate (t : Nat) : List IdAction := .allocate t :: List.replicate 7 (.run t)

/-- The release of an id and an allocation one behind the other. -/
theorem sample_ids_owned_once : ∃ s actions, Run (Guarded RaceFree (Steps step)) (start 2 64 128) actions s ∧
    s.owned 1 = [0] ∧ s.OwnedOnce := by
  have hrun : (execute (permit (fun s a => decide (s.RaceFree a)) step) (start 2 64 128)
      (sampleAllocate 0 ++ [.free 0 0, .run 0, .run 0, .run 0] ++ sampleAllocate 1)).any
      (fun s => decide (s.owned 1 = [0])) = true := by
    decide +kernel
  rw [Option.any_eq_true] at hrun
  obtain ⟨s, hs, howned⟩ := hrun
  have hreached : Run (Guarded RaceFree (Steps step)) (start 2 64 128) _ s := run_of_execute_permit of_decide_eq_true hs
  exact ⟨s, _, hreached, of_decide_eq_true howned, (ids_owned_once (by decide) hreached).1⟩

/-- An allocation between the load and the store of a release is lost, and its id is allocated
again. -/
theorem sample_id_owned_twice : ∃ s actions, Run (Steps step) (start 2 64 128) actions s ∧ ¬ s.OwnedOnce := by
  have hrun : (execute step (start 2 64 128) (sampleAllocate 0 ++ [.free 0 0, .run 0, .run 0] ++ sampleAllocate 1 ++
      [.run 0] ++ sampleAllocate 0 ++ sampleAllocate 0)).any (fun s => decide (1 ∈ s.owned 0 ∧ 1 ∈ s.owned 1)) = true := by
    decide +kernel
  rw [Option.any_eq_true] at hrun
  obtain ⟨s, hs, howned⟩ := hrun
  obtain ⟨hzero, hone⟩ := of_decide_eq_true howned
  refine ⟨s, _, run_of_execute hs, fun honce => ?_⟩
  have heq := honce.2 0 1 1 hzero hone
  omega

end SharedIdPool

end LuckOS
