import LuckOS.HashTable
import LuckOS.LinkedList
import LuckOS.Runs
import Mathlib.Data.Finset.Card
import Mathlib.Data.Finset.Range

/-!
# The chained buckets of `utils/hash_table.c`

The buckets are intrusive linked lists in an array from `kmalloc`, and the node of an entry is
moved to another array when the table is expanded. The operations simulate those of
`HashTable`, whose buckets are lists of entries. Values are addresses, and 0 is the null pointer.
-/

namespace LuckOS

open Function Runs

/-- `hash_table_t`. A list is known by the address of its array and its index there, and a node by
its address; `kv` is what the node points to. -/
structure ChainedTable where
  queues : Queues (Nat × Nat) Nat
  kv : Nat → Nat × Nat
  buckets : Nat
  bucketsNum : Nat
  size : Nat

namespace ChainedTable

/-- The loops that initialise the buckets of an array. -/
def initBuckets (s : Queues (Nat × Nat) Nat) (array num : Nat) : Queues (Nat × Nat) Nat :=
  { s with list := fun j => if j.1 = array ∧ j.2 < num then .init else s.list j }

/-- `hash_table_init` with the array that `kmalloc` returns. -/
def init (links : Links Nat) (kv : Nat → Nat × Nat) (array : Nat) : ChainedTable where
  queues := initBuckets ⟨links, fun _ => .init⟩ array 16
  kv := kv
  buckets := array
  bucketsNum := 16
  size := 0

/-- The bucket of a key. -/
def bucketOf (t : ChainedTable) (key : Nat) : Nat × Nat := (t.buckets, key % t.bucketsNum)

/-- The loop of `hash_table_bucket_lookup`; it is unfinished when it runs out of rounds. -/
def lookupFrom (t : ChainedTable) (key : Nat) : Nat → Option Nat → Option (Option Nat)
  | _, none => some none
  | 0, some _ => none
  | rounds + 1, some n =>
    if (t.kv n).1 = key then some (some n) else t.lookupFrom key rounds (t.queues.links.next n)

/-- `hash_table_bucket_lookup`. A bucket has at most as many nodes as the table. -/
def bucketLookup (t : ChainedTable) (key : Nat) : Option (Option Nat) :=
  t.lookupFrom key t.size (t.queues.list (t.bucketOf key)).head

/-- `hash_table_get`. -/
def get (t : ChainedTable) (key : Nat) : Option Nat :=
  (t.bucketLookup key).map fun r => (r.map fun n => (t.kv n).2).getD 0

/-- `hash_table_contains`. -/
def contains (t : ChainedTable) (key : Nat) : Option Bool := (t.bucketLookup key).map Option.isSome

/-- The loops over the nodes of a bucket that take each node out. The next node is read before. -/
def drain (f : Queues (Nat × Nat) Nat → Nat → Queues (Nat × Nat) Nat) :
    Nat → Queues (Nat × Nat) Nat → Option Nat → Option (Queues (Nat × Nat) Nat)
  | _, s, none => some s
  | 0, _, some _ => none
  | rounds + 1, s, some n => drain f rounds (f s n) (s.links.next n)

/-- The loops over all buckets with such a loop inside. -/
def drainBuckets (t : ChainedTable) (f : Nat → Queues (Nat × Nat) Nat → Nat → Queues (Nat × Nat) Nat)
    (s : Queues (Nat × Nat) Nat) : Option (Queues (Nat × Nat) Nat) :=
  (List.range t.bucketsNum).foldlM (fun s i => drain (f i) t.size s (s.list (t.buckets, i)).head) s

/-- A node is moved from bucket `i` to the new array. -/
def moveNode (t : ChainedTable) (array num i : Nat) (s : Queues (Nat × Nat) Nat) (n : Nat) : Queues (Nat × Nat) Nat :=
  (s.remove (t.buckets, i) n).append (array, (t.kv n).1 % num) n

/-- `hash_table_expand` with the array that `kmalloc` returns. -/
def expand (t : ChainedTable) (array : Nat) : Option ChainedTable :=
  let num := t.bucketsNum * 2
  (t.drainBuckets (t.moveNode array num) (initBuckets t.queues array num)).map fun s =>
    { t with queues := s, buckets := array, bucketsNum := num }

/-- A new entry is appended to the bucket of its key. -/
def addEntry (t : ChainedTable) (key value node : Nat) : ChainedTable :=
  { t with
    queues := t.queues.append (t.bucketOf key) node
    kv := update t.kv node (key, value)
    size := t.size + 1 }

/-- `hash_table_put` with the node and the array that `kmalloc` returns when it is called. -/
def put (t : ChainedTable) (key value node array : Nat) : Option (Nat × ChainedTable) := do
  match ← t.bucketLookup key with
  | some n => some ((t.kv n).2, { t with kv := update t.kv n ((t.kv n).1, value) })
  | none =>
    let t := t.addEntry key value node
    if 3 * t.bucketsNum < 4 * t.size then (t.expand array).map fun t => (0, t) else some (0, t)

/-- `hash_table_remove`. -/
def remove (t : ChainedTable) (key : Nat) : Option (Nat × ChainedTable) := do
  match ← t.bucketLookup key with
  | some n => some ((t.kv n).2, { t with queues := t.queues.remove (t.bucketOf key) n, size := t.size - 1 })
  | none => some (0, t)

/-- `hash_table_clear`. -/
def clear (t : ChainedTable) : Option ChainedTable :=
  (t.drainBuckets (fun i s n => s.remove (t.buckets, i) n) t.queues).map fun s => { t with queues := s, size := 0 }

/-- The address is not that of a node of a list. -/
def Fresh (t : ChainedTable) (node : Nat) : Prop :=
  ∀ j xs, LinkedList.Holds t.queues.links (t.queues.list j) xs → node ∉ xs

/-- The operations that change a table, with what `kmalloc` returns. -/
inductive Action where
  | put (key value node array : Nat)
  | remove (key : Nat)
  | clear

/-- `kmalloc` returns memory that is not in use. -/
def Step (t : ChainedTable) : Action → ChainedTable → Prop
  | .put key value node array, t' => t.Fresh node ∧ array ≠ t.buckets ∧ ∃ old, t.put key value node array = some (old, t')
  | .remove key, t' => ∃ old, t.remove key = some (old, t')
  | .clear, t' => t.clear = some t'

/-- What an operation does to a map. -/
def Action.effect (m : Nat → Option Nat) : Action → Nat → Option Nat
  | put key value _ _ => update m key (some value)
  | remove key => update m key none
  | clear => fun _ => none

/-- The map behind a sequence of operations. -/
def mapOf (actions : List Action) : Nat → Option Nat := actions.foldl Action.effect fun _ => none

variable {t t' : ChainedTable} {s s' : Queues (Nat × Nat) Nat} {q q' : Nat × Nat → List Nat} {xs ys : List Nat}
  {key value node array num n i rounds : Nat}

/-! ## Loops -/

theorem lookupFrom_eq {p : Option Nat} (h : LinkedList.Linked t.queues.links p xs none) (hrounds : xs.length ≤ rounds) :
    t.lookupFrom key rounds xs.head? = some (xs.find? fun n => (t.kv n).1 == key) := by
  induction xs generalizing p rounds with
  | nil =>
    cases rounds <;> rfl
  | cons x xs ih =>
    obtain ⟨-, hnext, hrest⟩ := h
    rw [Option.or_none] at hnext
    cases rounds with
    | zero => simp at hrounds
    | succ rounds =>
      have hle : xs.length ≤ rounds := Nat.le_of_succ_le_succ hrounds
      rw [List.head?_cons, lookupFrom, List.find?_cons]
      by_cases hkey : (t.kv x).1 = key
      · simp [hkey]
      · have hbeq : ((t.kv x).1 == key) = false := by simpa using hkey
        rw [if_neg hkey, hnext, ih hrest hle, hbeq]

/-- The loop visits the nodes that it still has to visit, whatever it does to the others. -/
theorem drain_spec {f : Queues (Nat × Nat) Nat → Nat → Queues (Nat × Nat) Nat} {I : List Nat → Queues (Nat × Nat) Nat → Prop}
    (hnext : ∀ {n rest s}, I (n :: rest) s → s.links.next n = rest.head?) (hstep : ∀ {n rest s}, I (n :: rest) s → I rest (f s n))
    (hrounds : xs.length ≤ rounds) (h : I xs s) : ∃ s', drain f rounds s xs.head? = some s' ∧ I [] s' := by
  induction xs generalizing s rounds with
  | nil => exact ⟨s, by cases rounds <;> rfl, h⟩
  | cons x xs ih =>
    cases rounds with
    | zero => simp at hrounds
    | succ rounds =>
      obtain ⟨s', hdrain, hs'⟩ := ih (Nat.le_of_succ_le_succ hrounds) (hstep h)
      refine ⟨s', ?_, hs'⟩
      rw [List.head?_cons, drain, hnext h]
      exact hdrain

theorem foldlM_range {σ : Type} {f : σ → Nat → Option σ} {I : Nat → σ → Prop} {x : σ} {m : Nat} (h : I 0 x)
    (hstep : ∀ {i x}, i < m → I i x → ∃ y, f x i = some y ∧ I (i + 1) y) :
    ∃ y, (List.range m).foldlM f x = some y ∧ I m y := by
  induction m with
  | zero => exact ⟨x, rfl, h⟩
  | succ m ih =>
    obtain ⟨y, hy, hIy⟩ := ih fun hi => hstep (Nat.lt_succ_of_lt hi)
    obtain ⟨z, hz, hIz⟩ := hstep (Nat.lt_succ_self m) hIy
    refine ⟨z, ?_, hIz⟩
    rw [List.range_succ, List.foldlM_append, hy]
    simpa using hz

theorem next_of_represents {rest : List Nat} {j : Nat × Nat} (h : s.Represents q) (hq : q j = n :: rest) :
    s.links.next n = rest.head? := by
  have hlinked := (h.holds j).linked
  rw [hq] at hlinked
  exact hlinked.2.1.trans (Option.or_none ..)

/-- The nodes of the array with `num` buckets, as entries. -/
def bucketLists (kv : Nat → Nat × Nat) (q : Nat × Nat → List Nat) (array num : Nat) : List (List (Nat × Nat)) :=
  (List.range num).map fun i => (q (array, i)).map kv

theorem modify_range_map {β : Type} (f : Nat → β) (g : β → β) (i num : Nat) :
    ((List.range num).map f).modify i g = (List.range num).map (update f i (g (f i))) := by
  refine List.ext_getElem? fun k => ?_
  rw [List.getElem?_modify, List.getElem?_map, List.getElem?_map]
  by_cases hk : k < num
  · rw [List.getElem?_range hk]
    by_cases hik : i = k
    · subst hik
      simp
    · simp [hik, update_of_ne (Ne.symm hik)]
  · rw [List.getElem?_eq_none (by simpa using hk)]
    rfl

/-- One list of an array changes. -/
theorem bucketLists_update (kv : Nat → Nat × Nat) (q : Nat × Nat → List Nat) (array num i : Nat)
    (g : List (Nat × Nat) → List (Nat × Nat)) (hxs : xs.map kv = g ((q (array, i)).map kv)) :
    bucketLists kv (update q (array, i) xs) array num = (bucketLists kv q array num).modify i g := by
  rw [bucketLists, bucketLists, modify_range_map]
  refine List.map_congr_left fun k _ => ?_
  by_cases hk : k = i
  · subst hk
    rw [update_self, update_self, hxs]
  · rw [update_of_ne hk, update_of_ne (fun heq => hk (Prod.mk.inj heq).2)]

theorem bucketLists_of_ne {a : Nat} (kv : Nat → Nat × Nat) (q : Nat × Nat → List Nat) (xs : List Nat) (hne : array ≠ a) :
    bucketLists kv (update q (a, i) xs) array num = bucketLists kv q array num :=
  List.map_congr_left fun k _ => by rw [update_of_ne (fun heq => hne (Prod.mk.inj heq).1)]

/-- The lists of a table are those of its array of buckets. -/
structure Shows (t : ChainedTable) (q : Nat × Nat → List Nat) : Prop where
  represents : t.queues.Represents q
  outside : ∀ j, j.1 ≠ t.buckets ∨ t.bucketsNum ≤ j.2 → q j = []

/-- What the loop over bucket `i` has done to the lists, with the nodes `rest` still to be moved. -/
structure Moved (t : ChainedTable) (q : Nat × Nat → List Nat) (array num i : Nat) (rest : List Nat)
    (q' : Nat × Nat → List Nat) : Prop where
  left : q' (t.buckets, i) = rest
  others : ∀ j, j ≠ (t.buckets, i) → j.1 ≠ array → q' j = q j
  behind : ∀ k, num ≤ k → q' (array, k) = q (array, k)
  moved : (rest.map t.kv).foldl HashTable.place (bucketLists t.kv q' array num) =
    ((q (t.buckets, i)).map t.kv).foldl HashTable.place (bucketLists t.kv q array num)

/-- One node is moved. -/
theorem moveNode_spec {rest : List Nat} (hne : array ≠ t.buckets) (hnum : 0 < num) (hs : s.Represents q')
    (h : Moved t q array num i (n :: rest) q') :
    ∃ q'', (t.moveNode array num i s n).Represents q'' ∧ Moved t q array num i rest q'' := by
  have hnodup := (hs.holds (t.buckets, i)).nodup
  rw [h.left] at hnodup
  have hremoved : (s.remove (t.buckets, i) n).Represents (update q' (t.buckets, i) ([] ++ rest)) := hs.remove h.left
  have hfresh : ∀ j, n ∉ update q' (t.buckets, i) ([] ++ rest) j := by
    intro j hj
    by_cases hji : j = (t.buckets, i)
    · subst hji
      rw [update_self] at hj
      exact (List.nodup_cons.mp hnodup).1 hj
    · rw [update_of_ne hji] at hj
      exact hji (hs.apart hj (by rw [h.left]; exact List.mem_cons_self ..))
  have happended := hremoved.append (i := (array, (t.kv n).1 % num)) hfresh
  have hlt : (t.kv n).1 % num < num := Nat.mod_lt _ hnum
  have hnew : ∀ k, update q' (t.buckets, i) ([] ++ rest) (array, k) = q' (array, k) :=
    fun k => update_of_ne (fun heq => hne (Prod.mk.inj heq).1) ..
  refine ⟨_, happended, ?_, ?_, ?_, ?_⟩
  · rw [update_of_ne (fun heq => hne (Prod.mk.inj heq).1.symm), update_self]
    rfl
  · intro j hj hja
    rw [update_of_ne (fun heq => hja (congrArg Prod.fst heq)), update_of_ne hj]
    exact h.others j hj hja
  · intro k hk
    rw [update_of_ne (fun heq => by have := (Prod.mk.inj heq).2; omega), hnew]
    exact h.behind k hk
  · rw [← h.moved, List.map_cons, List.foldl_cons, hnew, bucketLists_update t.kv _ array num _ (· ++ [t.kv n])]
    · rw [bucketLists_of_ne t.kv q' _ hne, HashTable.place]
      simp [bucketLists]
    · rw [hnew, List.map_append, List.map_singleton]

/-- The table whose buckets hold the entries of the lists. -/
def table (t : ChainedTable) (q : Nat × Nat → List Nat) : HashTable Nat :=
  ⟨bucketLists t.kv q t.buckets t.bucketsNum, t.size⟩

@[simp] theorem table_bucketsNum : (table t q).bucketsNum = t.bucketsNum := by
  simp [table, HashTable.bucketsNum, bucketLists]

theorem table_bucket (hnum : 0 < t.bucketsNum) (key : Nat) :
    (table t q).bucket key = (q (t.bucketOf key)).map t.kv := by
  have hlt : key % t.bucketsNum < t.bucketsNum := Nat.mod_lt _ hnum
  rw [HashTable.bucket, table_bucketsNum, List.getD_eq_getElem?_getD]
  simp [table, bucketLists, bucketOf, hlt]

/-- No bucket has more nodes than the table. -/
theorem length_le (hv : (table t q).Valid) (hi : i < t.bucketsNum) : (q (t.buckets, i)).length ≤ t.size := by
  have hmem : (q (t.buckets, i)).map t.kv ∈ (table t q).buckets := List.mem_map_of_mem (List.mem_range.mpr hi)
  have hle := (List.sublist_flatten_of_mem hmem).length_le
  have hcount : t.size = (table t q).entries.length := hv.counted
  rw [List.length_map] at hle
  rw [hcount]
  exact hle

theorem positive (hv : (table t q).Valid) : 0 < t.bucketsNum := by
  have hpos := hv.positive
  rwa [table_bucketsNum] at hpos

/-- The bucket of a key is in the array. -/
theorem bucketOf_ne {j : Nat × Nat} (hv : (table t q).Valid) (hj : j.1 ≠ t.buckets ∨ t.bucketsNum ≤ j.2) :
    j ≠ t.bucketOf key := by
  rintro rfl
  rcases hj with hj | hj
  · exact hj rfl
  · exact absurd (Nat.mod_lt key (positive hv)) (Nat.not_lt.mpr hj)

/-! ## Expansion and clearing -/

theorem initBuckets_represents (hs : s.Represents q) (hempty : ∀ k, q (array, k) = []) :
    (initBuckets s array num).Represents q := by
  refine ⟨fun j => ?_, hs.apart⟩
  obtain ⟨a, k⟩ := j
  have hholds := hs.holds (a, k)
  rw [initBuckets]
  dsimp only
  split_ifs with hj
  · obtain ⟨rfl, -⟩ := hj
    rw [hempty]
    exact LinkedList.holds_init
  · exact hholds

/-- What the loops over the first `m` buckets have done to the lists. -/
structure MovedTo (t : ChainedTable) (q : Nat × Nat → List Nat) (array num m : Nat) (q' : Nat × Nat → List Nat) : Prop where
  empty : ∀ k, k < m → q' (t.buckets, k) = []
  left : ∀ k, m ≤ k → q' (t.buckets, k) = q (t.buckets, k)
  others : ∀ j, j.1 ≠ t.buckets → j.1 ≠ array → q' j = q j
  behind : ∀ k, num ≤ k → q' (array, k) = []
  placed : bucketLists t.kv q' array num =
    (bucketLists t.kv q t.buckets m).flatten.foldl HashTable.place (List.replicate num [])

theorem MovedTo.next (hne : array ≠ t.buckets) (h : MovedTo t q array num i q') {q'' : Nat × Nat → List Nat}
    (hm : Moved t q' array num i [] q'') : MovedTo t q array num (i + 1) q'' where
  empty k hk := by
    rcases Nat.lt_succ_iff_lt_or_eq.mp hk with hlt | rfl
    · rw [hm.others _ (fun heq => Nat.ne_of_lt hlt (Prod.mk.inj heq).2) hne.symm]
      exact h.empty k hlt
    · exact hm.left
  left k hk := by
    rw [hm.others _ (fun heq => by have := (Prod.mk.inj heq).2; omega) hne.symm]
    exact h.left k (by omega)
  others j hj hja := (hm.others j (fun heq => hj (congrArg Prod.fst heq)) hja).trans (h.others j hj hja)
  behind k hk := (hm.behind k hk).trans (h.behind k hk)
  placed := by
    have hmoved : bucketLists t.kv q'' array num = _ := hm.moved
    rw [hmoved, h.placed, h.left i (Nat.le_refl i), ← List.foldl_append]
    simp only [bucketLists]
    rw [List.range_succ, List.map_append, List.flatten_append, List.map_singleton, List.flatten_singleton]

/-- The loop over one bucket moves all of its nodes. -/
theorem drain_move (hs : s.Represents q) (hne : array ≠ t.buckets) (hnum : 0 < num)
    (hle : (q (t.buckets, i)).length ≤ t.size) :
    ∃ s' q', drain (t.moveNode array num i) t.size s (s.list (t.buckets, i)).head = some s' ∧ s'.Represents q' ∧
      Moved t q array num i [] q' := by
  have hself : Moved t q array num i (q (t.buckets, i)) q := ⟨rfl, fun _ _ _ => rfl, fun _ _ => rfl, rfl⟩
  obtain ⟨s', hdrain, q', hs', hmoved⟩ := drain_spec (f := t.moveNode array num i)
    (I := fun rest s => ∃ q', s.Represents q' ∧ Moved t q array num i rest q')
    (fun ⟨_, hq, hm⟩ => next_of_represents hq hm.left) (fun ⟨_, hq, hm⟩ => moveNode_spec hne hnum hq hm) hle ⟨q, hs, hself⟩
  rw [hs.head_eq]
  exact ⟨s', q', hdrain, hs', hmoved⟩

/-- `hash_table_expand` moves every node to the bucket of its key in the new array. -/
theorem expand_spec (h : Shows t q) (hv : (table t q).Valid) (hne : array ≠ t.buckets) :
    ∃ t' q', t.expand array = some t' ∧ Shows t' q' ∧ table t' q' = (table t q).expand := by
  have hempty : ∀ k, q (array, k) = [] := fun k => h.outside _ (.inl hne)
  have hnum : 0 < t.bucketsNum * 2 := Nat.mul_pos (positive hv) (by decide)
  have hstart : MovedTo t q array (t.bucketsNum * 2) 0 q := by
    refine ⟨nofun, fun _ _ => rfl, fun _ _ _ => rfl, fun k _ => hempty k, ?_⟩
    simp [bucketLists, hempty]
  have hloop : ∃ s', t.drainBuckets (t.moveNode array (t.bucketsNum * 2)) (initBuckets t.queues array (t.bucketsNum * 2)) =
      some s' ∧ ∃ q', s'.Represents q' ∧ MovedTo t q array (t.bucketsNum * 2) t.bucketsNum q' := by
    refine foldlM_range (I := fun m (s : Queues (Nat × Nat) Nat) => ∃ q', s.Represents q' ∧ MovedTo t q array (t.bucketsNum * 2) m q')
      ⟨q, initBuckets_represents h.represents hempty, hstart⟩ ?_
    rintro i s hi ⟨q', hs, hmoved⟩
    have hle : (q' (t.buckets, i)).length ≤ t.size := by
      rw [hmoved.left i (Nat.le_refl i)]
      exact length_le hv hi
    obtain ⟨s', q'', hdrain, hs', hmoved'⟩ := drain_move hs hne hnum hle
    exact ⟨s', hdrain, q'', hs', hmoved.next hne hmoved'⟩
  obtain ⟨s, hdrain, q', hs, hmoved⟩ := hloop
  refine ⟨_, q', congrArg (Option.map _) hdrain, ⟨hs, ?_⟩, ?_⟩
  · rintro ⟨a, k⟩ hj
    by_cases ha : a = array
    · subst ha
      exact hmoved.behind k (hj.resolve_left (fun hj => hj rfl))
    · by_cases hb : a = t.buckets
      · subst hb
        rcases Nat.lt_or_ge k t.bucketsNum with hlt | hge
        · exact hmoved.empty k hlt
        · exact (hmoved.left k hge).trans (h.outside _ (.inr hge))
      · exact (hmoved.others _ hb ha).trans (h.outside _ (.inl hb))
  · rw [HashTable.expand, table_bucketsNum]
    exact congrArg (fun b => HashTable.mk b t.size) hmoved.placed

theorem expand_grows (h : t.expand array = some t') : t'.size = t.size ∧ t'.bucketsNum = t.bucketsNum * 2 := by
  obtain ⟨s, -, rfl⟩ := Option.map_eq_some_iff.mp h
  exact ⟨rfl, rfl⟩

/-- `hash_table_clear` takes out every node. -/
theorem clear_spec (h : Shows t q) (hv : (table t q).Valid) :
    ∃ t' q', t.clear = some t' ∧ Shows t' q' ∧ table t' q' = (table t q).destroy := by
  have hloop : ∃ s', t.drainBuckets (fun i s n => s.remove (t.buckets, i) n) t.queues = some s' ∧
      ∃ q', s'.Represents q' ∧ (∀ k, k < t.bucketsNum → q' (t.buckets, k) = []) ∧
        ∀ j, j.1 ≠ t.buckets ∨ t.bucketsNum ≤ j.2 → q' j = q j := by
    refine foldlM_range (I := fun m (s : Queues (Nat × Nat) Nat) => ∃ q', s.Represents q' ∧ (∀ k, k < m → q' (t.buckets, k) = []) ∧
      ∀ j, j.1 ≠ t.buckets ∨ m ≤ j.2 → q' j = q j) ⟨q, h.represents, nofun, fun _ _ => rfl⟩ ?_
    rintro i s hi ⟨q', hs, hdone, hleft⟩
    have hle : (q' (t.buckets, i)).length ≤ t.size := by
      rw [hleft _ (.inr (Nat.le_refl i))]
      exact length_le hv hi
    obtain ⟨s', hdrain, q'', hs', hempty, hothers⟩ := drain_spec (f := fun s n => s.remove (t.buckets, i) n)
      (I := fun rest s => ∃ q'', s.Represents q'' ∧ q'' (t.buckets, i) = rest ∧ ∀ j, j ≠ (t.buckets, i) → q'' j = q' j)
      (fun ⟨_, hq, hrest, _⟩ => next_of_represents hq hrest)
      (fun {n rest s} ⟨q'', hq, hrest, hothers⟩ => ⟨update q'' (t.buckets, i) ([] ++ rest), hq.remove hrest, update_self ..,
        fun j hj => (update_of_ne hj ..).trans (hothers j hj)⟩) hle ⟨q', hs, rfl, fun _ _ => rfl⟩
    rw [hs.head_eq]
    refine ⟨s', hdrain, q'', hs', fun k hk => ?_, fun j hj => ?_⟩
    · rcases Nat.lt_succ_iff_lt_or_eq.mp hk with hlt | rfl
      · rw [hothers _ (fun heq => Nat.ne_of_lt hlt (Prod.mk.inj heq).2)]
        exact hdone k hlt
      · exact hempty
    · have hne : j ≠ (t.buckets, i) := by
        rintro rfl
        rcases hj with hj | hj
        · exact hj rfl
        · exact Nat.not_succ_le_self i hj
      rw [hothers j hne]
      exact hleft j (hj.imp_right Nat.le_of_succ_le)
  obtain ⟨s, hdrain, q', hs, hempty, hothers⟩ := hloop
  refine ⟨_, q', congrArg (Option.map _) hdrain, ⟨hs, fun j hj => ?_⟩, ?_⟩
  · exact (hothers j hj).trans (h.outside j hj)
  · rw [HashTable.destroy, table, table]
    congr 1
    rw [bucketLists, bucketLists, List.map_map]
    refine List.map_congr_left fun k hk => ?_
    rw [hempty k (List.mem_range.mp hk)]
    rfl

/-! ## Entries -/

theorem bucketLookup_eq (h : Shows t q) (hv : (table t q).Valid) (key : Nat) :
    t.bucketLookup key = some ((q (t.bucketOf key)).find? fun n => (t.kv n).1 == key) := by
  have hlinked := (h.represents.holds (t.bucketOf key)).linked
  rw [bucketLookup, h.represents.head_eq]
  exact lookupFrom_eq hlinked (length_le hv (Nat.mod_lt _ (positive hv)))

theorem table_bucketLookup (hv : (table t q).Valid) (key : Nat) :
    HashTable.bucketLookup ((table t q).bucket key) key =
      ((q (t.bucketOf key)).find? fun n => (t.kv n).1 == key).map t.kv := by
  rw [table_bucket (positive hv), HashTable.bucketLookup, List.find?_map]
  rfl

theorem get_eq (h : Shows t q) (hv : (table t q).Valid) (key : Nat) :
    t.get key = some (((table t q).get key).getD 0) := by
  rw [get, bucketLookup_eq h hv, HashTable.get, table_bucketLookup hv]
  cases (q (t.bucketOf key)).find? fun n => (t.kv n).1 == key <;> rfl

theorem contains_eq (h : Shows t q) (hv : (table t q).Valid) (key : Nat) :
    t.contains key = some ((table t q).get key).isSome := by
  rw [contains, bucketLookup_eq h hv, HashTable.get, table_bucketLookup hv]
  cases (q (t.bucketOf key)).find? fun n => (t.kv n).1 == key <;> rfl

/-- A store to the entry of one node is a store to the first entry with its key. -/
theorem map_update_kv {kv : Nat → Nat × Nat} (hnodup : xs.Nodup) (hfind : (xs.find? fun n => (kv n).1 == key) = some n) :
    xs.map (update kv n ((kv n).1, value)) = HashTable.setValue key value (xs.map kv) := by
  induction xs with
  | nil => cases hfind
  | cons x xs ih =>
    obtain ⟨hx, hnodup⟩ := List.nodup_cons.mp hnodup
    rw [List.find?_cons] at hfind
    rw [List.map_cons, List.map_cons, HashTable.setValue]
    by_cases hkey : (kv x).1 = key
    · have hbeq : ((kv x).1 == key) = true := by simpa using hkey
      rw [hbeq] at hfind
      obtain rfl := Option.some.inj hfind
      rw [if_pos hkey, update_self]
      congr 1
      refine List.map_congr_left fun m hm => update_of_ne ?_ ..
      rintro rfl
      exact hx hm
    · have hbeq : ((kv x).1 == key) = false := by simpa using hkey
      rw [hbeq] at hfind
      have hne : x ≠ n := fun heq => hx (heq ▸ List.mem_of_find?_eq_some hfind)
      rw [if_neg hkey, update_of_ne hne, ih hnodup hfind]

theorem bucketLists_congr {kv kv' : Nat → Nat × Nat} (hsame : ∀ i, ∀ n ∈ q (array, i), kv' n = kv n) :
    bucketLists kv' q array num = bucketLists kv q array num :=
  List.map_congr_left fun i _ => List.map_congr_left (hsame i)

/-- What the table refines and what is known of its load. -/
structure Inv (t : ChainedTable) (q : Nat × Nat → List Nat) : Prop where
  shows : Shows t q
  valid : (table t q).Valid
  load : 4 * t.size ≤ 3 * t.bucketsNum
  initial : 16 ≤ t.bucketsNum

theorem put_found (h : Inv t q) (hfind : ((q (t.bucketOf key)).find? fun n => (t.kv n).1 == key) = some n) :
    Inv { t with kv := update t.kv n ((t.kv n).1, value) } q ∧
      table { t with kv := update t.kv n ((t.kv n).1, value) } q = ((table t q).put key value).2 := by
  have hlookup := table_bucketLookup h.valid key
  rw [hfind] at hlookup
  have hput : ((table t q).put key value).2 = (table t q).modifyBucket key (HashTable.setValue key value) := by
    rw [HashTable.put, hlookup]
    rfl
  have hin := List.mem_of_find?_eq_some hfind
  have htable : table { t with kv := update t.kv n ((t.kv n).1, value) } q = ((table t q).put key value).2 := by
    rw [hput, HashTable.modifyBucket, table_bucketsNum]
    refine congrArg (fun b => HashTable.mk b t.size) ?_
    refine Eq.trans (List.map_congr_left fun i _ => ?_) (modify_range_map (fun i => (q (t.buckets, i)).map t.kv) _ _ _).symm
    by_cases hi : i = key % t.bucketsNum
    · subst hi
      rw [update_self]
      exact map_update_kv (h.shows.represents.holds _).nodup hfind
    · rw [update_of_ne hi]
      refine List.map_congr_left fun m hm => update_of_ne ?_ ..
      rintro rfl
      exact hi (Prod.mk.inj (h.shows.represents.apart hm hin)).2
  refine ⟨⟨⟨h.shows.represents, h.shows.outside⟩, ?_, h.load, h.initial⟩, htable⟩
  rw [htable]
  exact (HashTable.put_spec h.valid key value).1

/-- A node is appended to the bucket of its key. -/
theorem put_new (h : Inv t q) (hfresh : t.Fresh node) (key value : Nat) :
    Shows (t.addEntry key value node) (update q (t.bucketOf key) (q (t.bucketOf key) ++ [node])) ∧
      table (t.addEntry key value node) (update q (t.bucketOf key) (q (t.bucketOf key) ++ [node])) =
        { (table t q).modifyBucket key (· ++ [(key, value)]) with size := t.size + 1 } := by
  have hnew : ∀ j, node ∉ q j := fun j => hfresh j _ (h.shows.represents.holds j)
  have hkv : ∀ i, ∀ n ∈ q (t.buckets, i), update t.kv node (key, value) n = t.kv n := by
    intro i n hn
    refine update_of_ne ?_ ..
    rintro rfl
    exact hnew _ hn
  refine ⟨⟨h.shows.represents.append hnew, fun j hj => ?_⟩, ?_⟩
  · exact (update_of_ne (bucketOf_ne h.valid hj) ..).trans (h.shows.outside j hj)
  · rw [HashTable.modifyBucket, table_bucketsNum]
    refine congrArg (fun b => HashTable.mk b (t.size + 1)) ?_
    refine (bucketLists_update (update t.kv node (key, value)) q t.buckets t.bucketsNum (key % t.bucketsNum)
      (· ++ [(key, value)]) ?_).trans ?_
    · rw [List.map_append, List.map_singleton, update_self]
      rfl
    · rw [bucketLists_congr hkv]
      rfl

/-- `hash_table_put` replaces the value of the key, or appends a node and expands the table. -/
theorem put_spec (key value : Nat) (h : Inv t q) (hfresh : t.Fresh node) (harray : array ≠ t.buckets) :
    ∃ t' q', t.put key value node array = some (((table t q).get key).getD 0, t') ∧ Inv t' q' ∧
      table t' q' = ((table t q).put key value).2 := by
  have hlookup := table_bucketLookup h.valid key
  have hget : (table t q).get key = ((q (t.bucketOf key)).find? fun n => (t.kv n).1 == key).map fun n => (t.kv n).2 := by
    rw [HashTable.get, hlookup, Option.map_map]
    rfl
  have hvalid := (HashTable.put_spec h.valid key value).1
  rw [put, bucketLookup_eq h.shows h.valid, hget]
  cases hfind : (q (t.bucketOf key)).find? fun n => (t.kv n).1 == key with
  | some n =>
    obtain ⟨hinv, htable⟩ := put_found h hfind
    exact ⟨_, q, rfl, hinv, htable⟩
  | none =>
    rw [hfind] at hlookup
    obtain ⟨hshows, htable⟩ := put_new h hfresh key value
    obtain ⟨hgrown, -⟩ := HashTable.put_new h.valid value hlookup
    have hload := h.load
    have hinitial := h.initial
    generalize update q (t.bucketOf key) (q (t.bucketOf key) ++ [node]) = q₁ at hshows htable
    have hvalid' : (table (t.addEntry key value node) q₁).Valid := by
      rw [htable]
      exact hgrown
    have hput : ((table t q).put key value).2 = (if 3 * t.bucketsNum < 4 * (t.size + 1) then
        (table (t.addEntry key value node) q₁).expand else table (t.addEntry key value node) q₁) := by
      have hnum : ((table t q).modifyBucket key (· ++ [(key, value)])).buckets.length = t.bucketsNum := by
        rw [HashTable.modifyBucket, List.length_modify]
        exact table_bucketsNum
      rw [HashTable.put, hlookup, htable, ← hnum]
      rfl
    rw [hput] at hvalid ⊢
    by_cases hfull : 3 * t.bucketsNum < 4 * (t.size + 1)
    · rw [if_pos hfull] at hvalid ⊢
      obtain ⟨t', q', hexpand, hshows', htable'⟩ := expand_spec hshows hvalid' harray
      obtain ⟨hsize, hnum⟩ := expand_grows hexpand
      have hsize' : t'.size = t.size + 1 := hsize
      have hnum' : t'.bucketsNum = t.bucketsNum * 2 := hnum
      refine ⟨t', q', ?_, ⟨hshows', htable' ▸ hvalid, ?_, ?_⟩, htable'⟩
      · exact (if_pos hfull).trans (congrArg (Option.map fun t => (0, t)) hexpand)
      · omega
      · omega
    · rw [if_neg hfull] at hvalid ⊢
      refine ⟨_, q₁, if_neg hfull, ⟨hshows, hvalid, ?_, hinitial⟩, rfl⟩
      change 4 * (t.size + 1) ≤ 3 * t.bucketsNum
      omega

/-- `hash_table_remove` takes out the node of the key. -/
theorem remove_spec (h : Inv t q) (key : Nat) :
    ∃ t' q', t.remove key = some (((table t q).get key).getD 0, t') ∧ Inv t' q' ∧
      table t' q' = ((table t q).remove key).2 := by
  have hlookup := table_bucketLookup h.valid key
  have hget : (table t q).get key = ((q (t.bucketOf key)).find? fun n => (t.kv n).1 == key).map fun n => (t.kv n).2 := by
    rw [HashTable.get, hlookup, Option.map_map]
    rfl
  have hvalid := (HashTable.remove_spec h.valid key).1
  rw [remove, bucketLookup_eq h.shows h.valid, hget]
  cases hfind : (q (t.bucketOf key)).find? fun n => (t.kv n).1 == key with
  | none =>
    rw [hfind] at hlookup
    refine ⟨t, q, rfl, h, ?_⟩
    rw [HashTable.remove, hlookup]
    rfl
  | some n =>
    rw [hfind] at hlookup
    obtain ⟨hn, xs, ys, hsplit, hxs⟩ := List.find?_eq_some_iff_append.mp hfind
    have hremove : ((table t q).remove key).2 =
        { (table t q).modifyBucket key (·.eraseP (·.1 == key)) with size := t.size - 1 } := by
      rw [HashTable.remove, hlookup]
      rfl
    have herase : ((xs ++ n :: ys).map t.kv).eraseP (·.1 == key) = (xs ++ ys).map t.kv := by
      have herased : (t.kv n :: ys.map t.kv).eraseP (·.1 == key) = ys.map t.kv := List.eraseP_cons_of_pos hn
      rw [List.map_append, List.map_cons, List.eraseP_append_right, herased, List.map_append]
      intro kv hkv
      obtain ⟨m, hm, rfl⟩ := List.mem_map.mp hkv
      simpa using hxs m hm
    have htable : table { t with queues := t.queues.remove (t.bucketOf key) n, size := t.size - 1 }
        (update q (t.bucketOf key) (xs ++ ys)) = ((table t q).remove key).2 := by
      rw [hremove, HashTable.modifyBucket, table_bucketsNum]
      refine congrArg (fun b => HashTable.mk b (t.size - 1)) ?_
      refine bucketLists_update t.kv q t.buckets t.bucketsNum (key % t.bucketsNum) (·.eraseP (·.1 == key)) ?_
      exact herase.symm.trans (congrArg (fun l => (l.map t.kv).eraseP (·.1 == key)) hsplit.symm)
    refine ⟨_, _, rfl, ⟨⟨h.shows.represents.remove hsplit, fun j hj => ?_⟩, ?_, ?_, h.initial⟩, htable⟩
    · exact (update_of_ne (bucketOf_ne h.valid hj) ..).trans (h.shows.outside j hj)
    · rw [htable]
      exact hvalid
    · exact (Nat.mul_le_mul_left 4 (Nat.sub_le ..)).trans h.load

/-! ## Sequences of operations -/

theorem init_inv (links : Links Nat) (kv : Nat → Nat × Nat) (array : Nat) :
    Inv (init links kv array) (fun _ => []) ∧ table (init links kv array) (fun _ => []) = HashTable.init := by
  have hempty : (⟨links, fun _ => .init⟩ : Queues (Nat × Nat) Nat).Represents fun _ => [] :=
    ⟨fun _ => LinkedList.holds_init, nofun⟩
  have htable : table (init links kv array) (fun _ => []) = HashTable.init := by
    simp [table, bucketLists, init, HashTable.init]
  refine ⟨⟨⟨initBuckets_represents hempty fun _ => rfl, fun _ _ => rfl⟩, ?_, Nat.zero_le _, Nat.le_refl _⟩, htable⟩
  rw [htable]
  exact HashTable.init_valid

/-- The table is a map. -/
def Maps (t : ChainedTable) (m : Nat → Option Nat) : Prop := ∃ q, Inv t q ∧ (table t q).get = m

theorem maps_step {m : Nat → Option Nat} {a : Action} (h : Maps t m) (hstep : Step t a t') : Maps t' (a.effect m) := by
  obtain ⟨q, hinv, rfl⟩ := h
  cases a with
  | put key value node array =>
    obtain ⟨hfresh, harray, old, hput⟩ := hstep
    obtain ⟨t'', q', hput', hinv', htable⟩ := put_spec key value hinv hfresh harray
    obtain rfl := (Prod.mk.inj (Option.some.inj (hput.symm.trans hput'))).2
    refine ⟨q', hinv', ?_⟩
    rw [htable]
    exact (HashTable.put_spec hinv.valid key value).2.2
  | remove key =>
    obtain ⟨old, hremove⟩ := hstep
    obtain ⟨t'', q', hremove', hinv', htable⟩ := remove_spec hinv key
    obtain rfl := (Prod.mk.inj (Option.some.inj (hremove.symm.trans hremove'))).2
    refine ⟨q', hinv', ?_⟩
    rw [htable]
    exact (HashTable.remove_spec hinv.valid key).2.2
  | clear =>
    obtain ⟨t'', q', hclear, hshows, htable⟩ := clear_spec hinv.shows hinv.valid
    obtain rfl := Option.some.inj (hstep.symm.trans hclear)
    obtain ⟨hvalid, hnone⟩ := HashTable.destroy_spec hinv.valid
    have hsize : t'.size = 0 := congrArg HashTable.size htable
    have hnum := congrArg HashTable.bucketsNum htable
    rw [table_bucketsNum, HashTable.bucketsNum, HashTable.destroy, List.length_map] at hnum
    have hlength : t'.bucketsNum = t.bucketsNum := hnum.trans table_bucketsNum
    refine ⟨q', ⟨hshows, ?_, ?_, ?_⟩, ?_⟩
    · rw [htable]
      exact hvalid
    · rw [hsize]
      exact Nat.zero_le _
    · rw [hlength]
      exact hinv.initial
    · rw [htable]
      exact funext hnone

theorem maps_run {m : Nat → Option Nat} {actions : List Action} (hrun : Run Step t actions t') (h : Maps t m) :
    Maps t' (actions.foldl Action.effect m) := by
  induction hrun generalizing m with
  | nil t => exact h
  | cons hstep hrun ih => exact ih (maps_step h hstep)

theorem maps_of_run {actions : List Action} {links : Links Nat} {kv : Nat → Nat × Nat}
    (hrun : Run Step (init links kv array) actions t) : Maps t (mapOf actions) := by
  obtain ⟨hinv, htable⟩ := init_inv links kv array
  refine maps_run hrun ⟨_, hinv, ?_⟩
  rw [htable]
  exact funext fun key => HashTable.get_init

/-- The present keys are as many as the entries. -/
theorem size_eq_card (hv : (table t q).Valid) :
    ∃ keys : Finset Nat, (∀ key, key ∈ keys ↔ ((table t q).get key).isSome) ∧ t.size = keys.card := by
  refine ⟨((table t q).entries.map Prod.fst).toFinset, fun key => ?_, ?_⟩
  · rw [List.mem_toFinset, List.mem_map, Option.isSome_iff_exists]
    constructor
    · rintro ⟨⟨k, v⟩, hkv, rfl⟩
      exact ⟨v, (HashTable.get_eq_some hv).mpr hkv⟩
    · rintro ⟨v, hget⟩
      exact ⟨(key, v), (HashTable.get_eq_some hv).mp hget, rfl⟩
  · rw [List.toFinset_card_of_nodup hv.unique, List.length_map]
    exact hv.counted

/-- A list with a node is one of the array of buckets. -/
theorem Shows.place_of_mem (h : Shows t q) {j : Nat × Nat} (hn : n ∈ q j) : j.1 = t.buckets ∧ j.2 < t.bucketsNum := by
  by_contra hj
  rw [h.outside j (by omega)] at hn
  cases hn

/-- A node of a valid table is in the bucket of its key. -/
theorem bucket_of_mem (h : Shows t q) (hv : (table t q).Valid) {j : Nat × Nat} (hn : n ∈ q j) : j = t.bucketOf (t.kv n).1 := by
  obtain ⟨a, i⟩ := j
  obtain ⟨rfl, hi⟩ := h.place_of_mem hn
  have hbucket : (table t q).buckets[i]? = some ((q (t.buckets, i)).map t.kv) := by
    simp [table, bucketLists, hi]
  have hplaced := hv.placed hbucket (List.mem_map_of_mem hn)
  rw [table_bucketsNum] at hplaced
  rw [bucketOf, hplaced]

/-- No two nodes of a valid table have the same key. -/
theorem key_injective (h : Shows t q) (hv : (table t q).Valid) {j j' : Nat × Nat} {n' : Nat} (hn : n ∈ q j) (hn' : n' ∈ q j')
    (hkey : (t.kv n).1 = (t.kv n').1) : n = n' := by
  obtain rfl := bucket_of_mem h hv hn
  obtain rfl := bucket_of_mem h hv hn'
  rw [← hkey] at hn'
  have hmem : (q (t.bucketOf (t.kv n).1)).map t.kv ∈ (table t q).buckets :=
    List.mem_map_of_mem (List.mem_range.mpr (Nat.mod_lt _ (positive hv)))
  have hunique := hv.unique.sublist ((List.sublist_flatten_of_mem hmem).map Prod.fst)
  rw [List.map_map] at hunique
  exact List.inj_on_of_nodup_map hunique hn hn' hkey

/-- An expansion changes no value and not the size, whatever the table holds. -/
theorem expand_get (h : Shows t q) (hv : (table t q).Valid) (hne : array ≠ t.buckets) :
    ∃ t', t.expand array = some t' ∧ t'.size = t.size ∧ t'.get = t.get ∧ t'.contains = t.contains := by
  obtain ⟨t', q', hexpand, hshows, htable⟩ := expand_spec h hv hne
  have hvalid : (table t' q').Valid := by
    rw [htable]
    exact (HashTable.expand_spec hv).1
  have hget : (table t' q').get = (table t q).get := by
    rw [htable]
    exact HashTable.get_expand hv
  refine ⟨t', hexpand, (expand_grows hexpand).1, funext fun key => ?_, funext fun key => ?_⟩
  · rw [get_eq hshows hvalid, get_eq h hv, hget]
  · rw [contains_eq hshows hvalid, contains_eq h hv, hget]

/-- The table is the finite map that the operations on it describe. -/
theorem hash_table_is_map {links : Links Nat} {kv : Nat → Nat × Nat} {actions : List Action}
    (hrun : Run Step (init links kv array) actions t) :
    (∀ key, t.get key = some ((mapOf actions key).getD 0)) ∧
    (∀ key, t.contains key = some (mapOf actions key).isSome) ∧
    (∀ key value node array, t.Fresh node → array ≠ t.buckets →
      ∃ t', t.put key value node array = some ((mapOf actions key).getD 0, t')) ∧
    (∀ key, ∃ t', t.remove key = some ((mapOf actions key).getD 0, t')) ∧
    (∃ t', t.clear = some t') ∧
    (∃ keys : Finset Nat, (∀ key, key ∈ keys ↔ (mapOf actions key).isSome) ∧ t.size = keys.card) ∧
    4 * t.size ≤ 3 * t.bucketsNum ∧
    (∃ q, Shows t q ∧ (table t q).Valid ∧ (∀ j, ∀ n ∈ q j, j = t.bucketOf (t.kv n).1) ∧
      ∀ j j', ∀ n ∈ q j, ∀ n' ∈ q j', (t.kv n).1 = (t.kv n').1 → n = n') ∧
    ∀ u q array, Shows u q → (table u q).Valid → array ≠ u.buckets →
      ∃ u', u.expand array = some u' ∧ u'.size = u.size ∧ u'.get = u.get ∧ u'.contains = u.contains := by
  obtain ⟨q, hinv, hmap⟩ := maps_of_run hrun
  have hshows := hinv.shows
  have hvalid := hinv.valid
  rw [← hmap]
  refine ⟨get_eq hshows hvalid, contains_eq hshows hvalid, ?_, ?_, ?_, size_eq_card hvalid, hinv.load,
    ⟨q, hshows, hvalid, fun j n hn => bucket_of_mem hshows hvalid hn,
      fun j j' n hn n' hn' hkey => key_injective hshows hvalid hn hn' hkey⟩, fun u q array hu hv hne => expand_get hu hv hne⟩
  · intro key value node array hfresh harray
    obtain ⟨t', q', hput, -⟩ := put_spec key value hinv hfresh harray
    exact ⟨t', hput⟩
  · intro key
    obtain ⟨t', q', hremove, -⟩ := remove_spec hinv key
    exact ⟨t', hremove⟩
  · obtain ⟨t', q', hclear, -⟩ := clear_spec hshows hvalid
    exact ⟨t', hclear⟩

/-! ## Sequences of new entries -/

/-- A map with another entry. -/
def putEntry (m : Nat → Option Nat) (e : Nat × Nat) : Nat → Option Nat := update m e.1 (some e.2)

/-- There is always an address at which no node of the table is. -/
theorem exists_fresh (h : Shows t q) : ∃ node, t.Fresh node := by
  obtain ⟨node, hnodes⟩ := Finset.exists_nat_subset_range
    ((List.range t.bucketsNum).flatMap fun i => q (t.buckets, i)).toFinset
  refine ⟨node, fun j xs hxs hmem => ?_⟩
  rw [hxs.unique (h.represents.holds j)] at hmem
  obtain ⟨hbuckets, hlt⟩ := h.place_of_mem hmem
  have hnode : node ∈ (List.range t.bucketsNum).flatMap fun i => q (t.buckets, i) := by
    refine List.mem_flatMap.mpr ⟨j.2, List.mem_range.mpr hlt, ?_⟩
    rwa [← hbuckets]
  exact absurd (Finset.mem_range.mp (hnodes (List.mem_toFinset.mpr hnode))) (Nat.lt_irrefl node)

/-- Every list of entries can be put into a table. -/
theorem exists_puts {m : Nat → Option Nat} (h : Maps t m) (entries : List (Nat × Nat)) :
    ∃ actions t', Run Step t actions t' ∧
      actions.foldl Action.effect m = entries.foldl putEntry m := by
  induction entries generalizing t m with
  | nil => exact ⟨[], t, .nil t, rfl⟩
  | cons e entries ih =>
    obtain ⟨q, hinv, -⟩ := id h
    obtain ⟨node, hfresh⟩ := exists_fresh hinv.shows
    have harray : t.buckets + 1 ≠ t.buckets := Nat.succ_ne_self _
    obtain ⟨t₁, -, hput, -⟩ := put_spec e.1 e.2 hinv hfresh harray
    have hstep : Step t (.put e.1 e.2 node (t.buckets + 1)) t₁ := ⟨hfresh, harray, _, hput⟩
    obtain ⟨actions, t', hrun, heffect⟩ := ih (maps_step h hstep)
    exact ⟨_, t', .cons hstep hrun, heffect⟩

/-- Entries that collide in the first array and, but for the second, in the one behind the expansion. -/
def sampleEntries : List (Nat × Nat) :=
  [(5, 6), (21, 22), (37, 38), (1, 2), (2, 3), (3, 4), (4, 5), (6, 7), (7, 8), (8, 9), (9, 10), (10, 11), (11, 12), (12, 13)]

/-- The sample entries are put into an empty table, which grows, and the second is removed. -/
theorem exists_sample_run : ∃ actions t, Run Step (init ⟨fun _ => none, fun _ => none⟩ (fun _ => (0, 0)) 1) actions t ∧
    mapOf actions = update (sampleEntries.foldl putEntry fun _ => none) 21 none ∧ 16 < t.bucketsNum := by
  obtain ⟨actions, t, hrun, heffect⟩ := exists_puts (maps_of_run (.nil (init ⟨fun _ => none, fun _ => none⟩ (fun _ => (0, 0)) 1)))
    sampleEntries
  obtain ⟨q, hinv, -⟩ := maps_of_run hrun
  obtain ⟨t', -, hremove, -⟩ := remove_spec hinv 21
  have hstep : Step t (.remove 21) t' := ⟨_, hremove⟩
  have hmap : mapOf (actions ++ [.remove 21]) = update (sampleEntries.foldl putEntry fun _ => none) 21 none := by
    rw [mapOf, List.foldl_append]
    exact congrArg (Action.effect · (.remove 21)) heffect
  refine ⟨_, t', hrun.snoc hstep, hmap, ?_⟩
  -- Thirteen entries are left, which are more than three quarters of 16.
  obtain ⟨q', hinv', hget⟩ := maps_of_run (hrun.snoc hstep)
  obtain ⟨keys, hkeys, hsize⟩ := size_eq_card hinv'.valid
  rw [hget, hmap] at hkeys
  have hsub : ((sampleEntries.map Prod.fst).erase 21).toFinset ⊆ keys := by
    intro key hkey
    rw [hkeys]
    revert key
    decide
  have hcard := Finset.card_le_card hsub
  have hthirteen : ((sampleEntries.map Prod.fst).erase 21).toFinset.card = 13 := by decide
  have hload := hinv'.load
  omega

theorem sample_is_map : ∃ actions t, Run Step (init ⟨fun _ => none, fun _ => none⟩ (fun _ => (0, 0)) 1) actions t ∧
    16 < t.bucketsNum ∧ t.get 5 = some 6 ∧ t.get 37 = some 38 ∧ t.get 21 = some 0 ∧ t.contains 21 = some false := by
  obtain ⟨actions, t, hrun, hmap, hgrown⟩ := exists_sample_run
  obtain ⟨hget, hcontains, -⟩ := hash_table_is_map hrun
  rw [hmap] at hget hcontains
  exact ⟨actions, t, hrun, hgrown, hget 5, hget 37, hget 21, hcontains 21⟩

end ChainedTable

end LuckOS
