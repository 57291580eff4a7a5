import LuckOS.ChainedTable

/-!
# The iterator of `utils/hash_table.c` over chained buckets

A position is a bucket, a node of its chain and a count. The count decides whether there is a next
entry, and the bucket and the node where it is; `Ahead` says how the three stay in step. The node
of an entry stands for the entry that is returned.
-/

namespace LuckOS

open Function Runs

namespace ChainedTable

/-- `hash_table_interator_t`, apart from the table. -/
structure Iterator where
  bucketIndex : Int
  node : Option Nat
  index : Int

/-- `hash_table_create_iterator`. -/
def createIterator : Iterator := ⟨-1, none, -1⟩

/-- `hash_table_iterator_has_next`. -/
def iteratorHasNext (t : ChainedTable) (iter : Iterator) : Bool := iter.index < t.size - 1

/-- The loop over the buckets. It ends at a bucket that is not empty or behind the last one. -/
def seekBucket (t : ChainedTable) : Nat → Int → Int × Option Nat
  | 0, b => (b, none)
  | rounds + 1, b =>
    match (t.queues.list (t.buckets, b.toNat)).head with
    | some head => (b, some head)
    | none => t.seekBucket rounds (b + 1)

/-- `hash_table_iterator_next`. A null pointer is returned as `some none`; the last exit has no return
statement and gives `none`. -/
def iteratorNext (t : ChainedTable) (iter : Iterator) : Option (Option Nat) × Iterator :=
  if (t.size : Int) - 1 ≤ iter.index then (some none, ⟨t.bucketsNum, none, t.size⟩)
  else match iter.node.bind t.queues.links.next with
    | some n => (some (some n), { iter with node := some n, index := iter.index + 1 })
    | none =>
      let b := iter.bucketIndex + 1
      match t.seekBucket (t.bucketsNum - b).toNat b with
      | (b, some head) => (some (some head), ⟨b, some head, iter.index + 1⟩)
      | (b, none) => (none, ⟨b, none, iter.index + 1⟩)

/-- A new iterator after `k` calls. -/
def iteratorAfter (t : ChainedTable) (k : Nat) : Iterator :=
  (fun iter => (t.iteratorNext iter).2)^[k] createIterator

/-- The nodes of `rounds` buckets from `b` on. -/
def nodesFrom (t : ChainedTable) (q : Nat × Nat → List Nat) (b rounds : Nat) : List Nat :=
  (List.range' b rounds).flatMap fun i => q (t.buckets, i)

/-- The nodes that a position has before it: those behind its node in its bucket and those of the
buckets that follow. -/
structure Ahead (t : ChainedTable) (q : Nat × Nat → List Nat) (iter : Iterator)
    (rest : List Nat) : Prop where
  counted : iter.index = (t.size : Int) - 1 - rest.length
  chained : ∃ b rounds xs, iter.bucketIndex + 1 = ((b : Nat) : Int) ∧ b + rounds = t.bucketsNum ∧
    iter.node.bind t.queues.links.next = xs.head? ∧ LinkedList.Linked t.queues.links iter.node xs none ∧
    rest = xs ++ t.nodesFrom q b rounds

variable {t : ChainedTable} {q : Nat × Nat → List Nat} {iter : Iterator} {rest : List Nat}
  {n b rounds : Nat}

theorem nodesFrom_succ : t.nodesFrom q b (rounds + 1) =
    q (t.buckets, b) ++ t.nodesFrom q (b + 1) rounds := by
  rw [nodesFrom, List.range'_succ, List.flatMap_cons]
  rfl

/-- The loop finds the first node of the buckets, with the rest of its bucket behind it. -/
theorem seekBucket_spec (h : Shows t q) (hrest : t.nodesFrom q b rounds = n :: rest) :
    ∃ b' rounds' xs, t.seekBucket rounds b =
    (((b' : Nat) : Int), some n) ∧ b' + 1 + rounds' = b + rounds ∧
      q (t.buckets, b') = n :: xs ∧ rest = xs ++ t.nodesFrom q (b' + 1) rounds' := by
  induction rounds generalizing b with
  | zero => cases hrest
  | succ rounds ih =>
    have hhead := h.represents.head_eq (t.buckets, b)
    rw [nodesFrom_succ] at hrest
    rw [seekBucket, Int.toNat_natCast, hhead]
    cases hq : q (t.buckets, b) with
    | nil =>
      rw [hq] at hrest
      obtain ⟨b', rounds', xs, hseek, hsum, hrest⟩ := ih hrest
      refine ⟨b', rounds', xs, ?_, by omega, hrest⟩
      rw [← hseek]
      rfl
    | cons m xs =>
      rw [hq, List.cons_append] at hrest
      obtain ⟨rfl, rfl⟩ := List.cons.inj hrest
      exact ⟨b, rounds, xs, rfl, by omega, hq, rfl⟩

/-- The node of a position that is reached, and what follows it in its bucket. -/
theorem chained_cons {p : Option Nat} {xs : List Nat}
    (h : LinkedList.Linked t.queues.links p (n :: xs) none) :
    (some n).bind t.queues.links.next = xs.head? ∧
    LinkedList.Linked t.queues.links (some n) xs none := by
  obtain ⟨-, hnext, hlinked⟩ := h
  exact ⟨hnext.trans (Option.or_none ..), hlinked⟩

/-- One call returns the first of the nodes that are left. -/
theorem iteratorNext_cons (h : Shows t q) (hahead : Ahead t q iter (n :: rest)) :
    (t.iteratorNext iter).1 = some (some n) ∧ Ahead t q (t.iteratorNext iter).2 rest := by
  obtain ⟨hindex, b, rounds, xs, hbucket, hsum, hnext, hlinked, hrest⟩ := hahead
  rw [List.length_cons] at hindex
  have hmore : ¬ (t.size : Int) - 1 ≤ iter.index := by omega
  have hindex' : iter.index + 1 = (t.size : Int) - 1 - rest.length := by omega
  rw [iteratorNext, if_neg hmore, hnext]
  cases xs with
  | cons m xs =>
    obtain ⟨rfl, rfl⟩ := List.cons.inj hrest
    obtain ⟨hnext', hlinked'⟩ := chained_cons hlinked
    exact ⟨rfl, hindex', b, rounds, xs, hbucket, hsum, hnext', hlinked', rfl⟩
  | nil =>
    obtain ⟨b', rounds', xs, hseek, hsum', hq, hrest'⟩ := seekBucket_spec h hrest.symm
    have hrounds : ((t.bucketsNum : Int) - (b : Int)).toNat = rounds := by omega
    have hholds := (h.represents.holds (t.buckets, b')).linked
    rw [hq] at hholds
    obtain ⟨hnext', hlinked'⟩ := chained_cons hholds
    simp only [List.head?_nil, hbucket, hrounds, hseek]
    exact ⟨trivial, hindex', b' + 1, rounds', xs, (Int.natCast_succ b').symm, by omega, hnext',
      hlinked', hrest'⟩

/-- A call behind the last entry returns a null pointer. -/
theorem iteratorNext_end (h : (t.size : Int) - 1 ≤ iter.index) :
    (t.iteratorNext iter).1 = some none ∧ (t.iteratorNext iter).2.index = t.size := by
  rw [iteratorNext, if_pos h]
  exact ⟨rfl, rfl⟩

/-- A new iterator has all nodes before it. -/
theorem ahead_createIterator (hsize : (t.nodesFrom q 0 t.bucketsNum).length = t.size) :
    Ahead t q createIterator (t.nodesFrom q 0 t.bucketsNum) := by
  refine ⟨?_, 0, t.bucketsNum, [], rfl, Nat.zero_add _, rfl, trivial, rfl⟩
  have hindex : (createIterator : Iterator).index = -1 := rfl
  rw [hsize, hindex]
  omega

theorem iteratorAfter_succ (k : Nat) :
    t.iteratorAfter (k + 1) = (t.iteratorNext (t.iteratorAfter k)).2 := by
  apply iterate_succ_apply'

/-- After `k` calls the first `k` nodes are behind the iterator. -/
theorem ahead_iteratorAfter (h : Shows t q) {nodes : List Nat}
    (hstart : Ahead t q createIterator nodes) {k : Nat}
    (hk : k ≤ nodes.length) : Ahead t q (t.iteratorAfter k) (nodes.drop k) := by
  induction k with
  | zero => exact hstart
  | succ k ih =>
    have hahead := ih (Nat.le_of_succ_le hk)
    rw [List.drop_eq_getElem_cons hk] at hahead
    rw [iteratorAfter_succ]
    exact (iteratorNext_cons h hahead).2

/-- Behind the last entry the count stays at its end. -/
theorem index_iteratorAfter {k : Nat} (hend : (t.iteratorAfter t.size).index = (t.size : Int) - 1)
    (hk : t.size ≤ k) :
    (t.size : Int) - 1 ≤ (t.iteratorAfter k).index := by
  induction k, hk using Nat.le_induction with
  | base => exact hend.ge
  | succ k hk ih =>
    rw [iteratorAfter_succ, (iteratorNext_end ih).2]
    omega

/-- The calls return the nodes in their order and then null pointers. -/
theorem iteratorNext_after (h : Shows t q) {nodes : List Nat} (hstart : Ahead t q createIterator nodes)
    (hlength : nodes.length = t.size) (k : Nat) :
    (t.iteratorNext (t.iteratorAfter k)).1 = some nodes[k]? ∧
    (t.iteratorHasNext (t.iteratorAfter k) = true ↔ k < t.size) := by
  rw [iteratorHasNext, decide_eq_true_iff]
  by_cases hk : k < nodes.length
  · have hahead := ahead_iteratorAfter h hstart (Nat.le_of_lt hk)
    have hindex := hahead.counted
    rw [List.length_drop] at hindex
    rw [List.drop_eq_getElem_cons hk] at hahead
    rw [List.getElem?_eq_getElem hk]
    exact ⟨(iteratorNext_cons h hahead).1, by omega⟩
  · have hahead := ahead_iteratorAfter h hstart (Nat.le_refl _)
    have hcounted := hahead.counted
    rw [List.drop_length, hlength] at hcounted
    have hindex : (t.size : Int) - 1 ≤ (t.iteratorAfter k).index := by
      apply index_iteratorAfter
      · rw [hcounted, List.length_nil]
        omega
      · omega
    rw [List.getElem?_eq_none (Nat.le_of_not_lt hk)]
    exact ⟨(iteratorNext_end hindex).1, by omega⟩

/-- The nodes of the buckets are those of the entries. -/
theorem map_nodesFrom : (t.nodesFrom q 0 t.bucketsNum).map t.kv = (table t q).entries := by
  rw [nodesFrom, ← List.range_eq_range', List.map_flatMap]
  rfl

/-- An iterator returns the node of every entry once, and then null pointers; it has a next entry as
long as fewer calls were made than there are entries. -/
theorem iterator_visits_entries {links : Links Nat} {kv : Nat → Nat × Nat} {array : Nat}
    {actions : List Action}
    (hrun : Run Step (init links kv array) actions t) :
    ∃ nodes : List Nat, nodes.Nodup ∧ nodes.length = t.size ∧
      (∀ n, n ∈ nodes ↔ ∃ i xs, i < t.bucketsNum ∧
        LinkedList.Holds t.queues.links (t.queues.list (t.buckets, i)) xs ∧ n ∈ xs) ∧
      (∀ key value, mapOf actions key = some value ↔ ∃ n ∈ nodes, t.kv n = (key, value)) ∧
      (∀ n ∈ nodes, ∀ n' ∈ nodes, (t.kv n).1 = (t.kv n').1 → n = n') ∧
      ∀ k, (t.iteratorNext (t.iteratorAfter k)).1 = some nodes[k]? ∧
        (t.iteratorHasNext (t.iteratorAfter k) = true ↔ k < t.size) := by
  obtain ⟨q, hinv, hmap⟩ := maps_of_run hrun
  have hvalid := hinv.valid
  have hentries := map_nodesFrom (t := t) (q := q)
  have hlength : (t.nodesFrom q 0 t.bucketsNum).length = t.size := by
    rw [← List.length_map (f := t.kv), hentries]
    exact hvalid.counted.symm
  have hkeys : ((t.nodesFrom q 0 t.bucketsNum).map fun n => (t.kv n).1).Nodup := by
    have hunique := hvalid.unique
    rwa [← hentries, List.map_map] at hunique
  refine ⟨t.nodesFrom q 0 t.bucketsNum, List.Nodup.of_map _ hkeys, hlength, fun n => ?_,
    fun key value => ?_, ?_, ?_⟩
  · rw [nodesFrom, ← List.range_eq_range', List.mem_flatMap]
    constructor
    · rintro ⟨i, hi, hn⟩
      exact ⟨i, _, List.mem_range.mp hi, hinv.shows.represents.holds _, hn⟩
    · rintro ⟨i, xs, hi, hholds, hn⟩
      rw [hholds.unique (hinv.shows.represents.holds _)] at hn
      exact ⟨i, List.mem_range.mpr hi, hn⟩
  · rw [← hmap, HashTable.get_eq_some hvalid, ← hentries, List.mem_map]
  · intro n hn n' hn' hkey
    exact List.inj_on_of_nodup_map hkeys hn hn' hkey
  · exact iteratorNext_after hinv.shows (ahead_createIterator hlength) hlength

/-- The iterator of a table that has grown, and from which an entry was removed. -/
theorem sample_visits_entries :
    ∃ actions t, Run Step (init ⟨fun _ => none, fun _ => none⟩ (fun _ => (0, 0)) 1) actions t ∧ 16 < t.bucketsNum ∧
      ∃ nodes : List Nat, nodes.length = t.size ∧ (∃ n ∈ nodes, t.kv n = (5, 6)) ∧ (∃ n ∈ nodes, t.kv n = (37, 38)) ∧
        (∀ n ∈ nodes, t.kv n ≠ (21, 22)) ∧ t.iteratorHasNext (t.iteratorAfter t.size) = false := by
  obtain ⟨actions, t, hrun, hmap, hgrown⟩ := exists_sample_run
  obtain ⟨nodes, -, hlength, -, hmem, -, hcalls⟩ := iterator_visits_entries hrun
  rw [hmap] at hmem
  refine ⟨actions, t, hrun, hgrown, nodes, hlength, (hmem 5 6).mp rfl, (hmem 37 38).mp rfl, fun n hn hkv => ?_, ?_⟩
  · exact absurd ((hmem 21 22).mpr ⟨n, hn, hkv⟩) (by decide)
  · exact Bool.eq_false_iff.mpr fun hnext => absurd ((hcalls t.size).2.mp hnext) (Nat.lt_irrefl _)

end ChainedTable

end LuckOS
