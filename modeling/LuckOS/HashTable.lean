import Mathlib.Data.List.GetD
import Mathlib.Data.List.Perm.Basic
import Mathlib.Data.List.Nodup
import Mathlib.Logic.Function.Basic

/-!
# The hash table of `utils/hash_table.c`

A table is an array of buckets. An entry is in the bucket of its key modulo the number of
buckets, which is doubled when the load passes three quarters. The entries of a valid table
are those of a finite map: `get` finds a value if and only if it is an entry.
-/

namespace LuckOS

open Function

universe u

/-- The buckets with their entries, and the number of entries. -/
structure HashTable (α : Type u) where
  buckets : List (List (Nat × α))
  size : Nat
  deriving DecidableEq

namespace HashTable

variable {α : Type u}

/-- `hash_table_init` with `INITIAL_BUCKETS_NUM` buckets. -/
def init : HashTable α := ⟨List.replicate 16 [], 0⟩

def bucketsNum (t : HashTable α) : Nat := t.buckets.length

/-- The bucket of a key. -/
def bucket (t : HashTable α) (key : Nat) : List (Nat × α) := t.buckets.getD (key % t.bucketsNum) []

/-- `hash_table_bucket_lookup`. -/
def bucketLookup (bucket : List (Nat × α)) (key : Nat) : Option (Nat × α) := bucket.find? (·.1 == key)

/-- `hash_table_get`. -/
def get (t : HashTable α) (key : Nat) : Option α := (bucketLookup (t.bucket key) key).map Prod.snd

/-- `hash_table_contains`. -/
def contains (t : HashTable α) (key : Nat) : Bool := (bucketLookup (t.bucket key) key).isSome

/-- The value of the entry that is found for a key is replaced. -/
def setValue (key : Nat) (value : α) : List (Nat × α) → List (Nat × α)
  | [] => []
  | kv :: bucket => if kv.1 = key then (kv.1, value) :: bucket else kv :: setValue key value bucket

def modifyBucket (t : HashTable α) (key : Nat) (f : List (Nat × α) → List (Nat × α)) : HashTable α :=
  { t with buckets := t.buckets.modify (key % t.bucketsNum) f }

/-- An entry is appended to the bucket of its key. -/
def place (buckets : List (List (Nat × α))) (kv : Nat × α) : List (List (Nat × α)) :=
  buckets.modify (kv.1 % buckets.length) (· ++ [kv])

/-- `hash_table_expand`: the entries are moved in the order of the buckets. -/
def expand (t : HashTable α) : HashTable α :=
  { t with buckets := t.buckets.flatten.foldl place (List.replicate (t.bucketsNum * 2) []) }

/-- `hash_table_put`; the result is the old value. -/
def put (t : HashTable α) (key : Nat) (value : α) : Option α × HashTable α :=
  match bucketLookup (t.bucket key) key with
  | some kv => (some kv.2, t.modifyBucket key (setValue key value))
  | none =>
    let t : HashTable α := { t.modifyBucket key (· ++ [(key, value)]) with size := t.size + 1 }
    (none, if 3 * t.bucketsNum < 4 * t.size then t.expand else t)

/-- `hash_table_remove`; the result is the value that is removed. -/
def remove (t : HashTable α) (key : Nat) : Option α × HashTable α :=
  match bucketLookup (t.bucket key) key with
  | some kv => (some kv.2, { t.modifyBucket key (·.eraseP (·.1 == key)) with size := t.size - 1 })
  | none => (none, t)

/-- `hash_table_destroy`: all entries are removed. The buckets are freed and keep their contents. -/
def destroy (t : HashTable α) : HashTable α := ⟨t.buckets.map fun _ => [], 0⟩

/-- An iterator. The node is given by the entries of its bucket from the node on. -/
structure Iterator (α : Type u) where
  bucketIndex : Int
  node : List (Nat × α)
  index : Int

/-- `hash_table_create_iterator`. -/
def createIterator : Iterator α := ⟨-1, [], -1⟩

/-- `hash_table_iterator_has_next`. -/
def iteratorHasNext (t : HashTable α) (iter : Iterator α) : Bool := iter.index < t.size - 1

/-- `hash_table_iterator_next`. The last exit has no return statement. -/
def iteratorNext (t : HashTable α) (iter : Iterator α) : Option (Nat × α) × Iterator α :=
  if (t.size : Int) - 1 ≤ iter.index then (none, ⟨t.bucketsNum, [], t.size⟩)
  else match iter.node with
    | _ :: kv :: bucket => (some kv, { iter with node := kv :: bucket, index := iter.index + 1 })
    | _ => match (t.buckets.zipIdx.drop (iter.bucketIndex + 1).toNat).find? (!·.1.isEmpty) with
      | some (bucket, i) => (bucket.head?, ⟨i, bucket, iter.index + 1⟩)
      | none => (none, ⟨t.bucketsNum, [], iter.index + 1⟩)

/-- All entries, in the order of the buckets. -/
def entries (t : HashTable α) : List (Nat × α) := t.buckets.flatten

/-- A valid table. -/
structure Valid (t : HashTable α) : Prop where
  positive : 0 < t.bucketsNum
  placed : ∀ {i b kv}, t.buckets[i]? = some b → kv ∈ b → kv.1 % t.bucketsNum = i
  unique : (t.entries.map Prod.fst).Nodup
  counted : t.size = t.entries.length

variable {t : HashTable α} {key : Nat} {value : α}

theorem mem_bucket (h : Valid t) : (key, value) ∈ t.bucket key ↔ (key, value) ∈ t.entries := by
  have hlt : key % t.bucketsNum < t.buckets.length := Nat.mod_lt _ h.positive
  constructor
  · intro hmem
    rw [bucket, List.getD_eq_getElem _ _ hlt] at hmem
    exact List.mem_flatten.mpr ⟨_, List.getElem_mem hlt, hmem⟩
  · intro hmem
    obtain ⟨b, hb, hmem⟩ := List.mem_flatten.mp hmem
    obtain ⟨i, hi⟩ := List.mem_iff_getElem?.mp hb
    have hkey : key % t.bucketsNum = i := h.placed hi hmem
    rw [bucket, hkey, List.getD_eq_getElem?_getD, hi]
    exact hmem

theorem mod_of_mem_bucket (h : Valid t) {kv : Nat × α} (hkv : kv ∈ t.bucket key) :
    kv.1 % t.bucketsNum = key % t.bucketsNum := by
  have hlt : key % t.bucketsNum < t.buckets.length := Nat.mod_lt _ h.positive
  rw [bucket, List.getD_eq_getElem _ _ hlt] at hkv
  exact h.placed (List.getElem?_eq_getElem hlt) hkv

theorem bucketLookup_eq_some {b : List (Nat × α)} {kv : Nat × α} (h : bucketLookup b key = some kv) :
    kv ∈ b ∧ kv.1 = key :=
  ⟨List.mem_of_find?_eq_some h, by simpa using List.find?_some h⟩

theorem bucketLookup_eq_none {b : List (Nat × α)} (h : bucketLookup b key = none) : key ∉ b.map Prod.fst := by
  intro hmem
  obtain ⟨kv, hkv, hkey⟩ := List.mem_map.mp hmem
  have hne := List.find?_eq_none.mp h kv hkv
  exact hne (by simpa using hkey)

theorem eq_of_mem_entries (h : Valid t) {value' : α} (hv : (key, value) ∈ t.entries) (hv' : (key, value') ∈ t.entries) :
    value = value' :=
  (Prod.mk.inj (List.inj_on_of_nodup_map h.unique hv hv' rfl)).2

/-- A valid table is a finite map. -/
theorem get_eq_some (h : Valid t) : t.get key = some value ↔ (key, value) ∈ t.entries := by
  rw [get, Option.map_eq_some_iff]
  constructor
  · rintro ⟨⟨k, v⟩, hlookup, rfl⟩
    obtain ⟨hmem, rfl⟩ := bucketLookup_eq_some hlookup
    exact (mem_bucket h).mp hmem
  · intro hmem
    have hbucket := (mem_bucket h).mpr hmem
    cases hlookup : bucketLookup (t.bucket key) key with
    | none => exact absurd (List.mem_map_of_mem hbucket) (bucketLookup_eq_none hlookup)
    | some kv =>
      obtain ⟨hkv, hkey⟩ := bucketLookup_eq_some hlookup
      obtain ⟨k, v⟩ := kv
      subst hkey
      refine ⟨_, rfl, ?_⟩
      exact eq_of_mem_entries h ((mem_bucket h).mp hkv) hmem

theorem get_eq_none (h : Valid t) : t.get key = none ↔ ∀ value, (key, value) ∉ t.entries := by
  rw [Option.eq_none_iff_forall_ne_some]
  exact forall_congr' fun value => not_congr (get_eq_some h)

/-! ## Changes of one bucket -/

/-- The entries of one bucket and of the others. -/
theorem flatten_modify_perm (buckets : List (List (Nat × α))) (i : Nat) (f : List (Nat × α) → List (Nat × α))
    (hi : i < buckets.length) :
    (buckets.modify i f).flatten.Perm (f (buckets.getD i []) ++ (buckets.modify i fun _ => []).flatten) := by
  induction buckets generalizing i with
  | nil => simp at hi
  | cons b buckets ih =>
    cases i with
    | zero => simp
    | succ i =>
      have hrest := (ih i (by simpa using hi)).append_left b
      simp only [List.modify_succ_cons, List.flatten_cons, List.getD_cons_succ]
      refine hrest.trans ?_
      rw [← List.append_assoc, ← List.append_assoc]
      exact List.perm_append_comm.append_right _

theorem entries_modifyBucket (h : 0 < t.bucketsNum) (key : Nat) (f : List (Nat × α) → List (Nat × α)) :
    ∃ others, t.entries.Perm (t.bucket key ++ others) ∧
      (t.modifyBucket key f).entries.Perm (f (t.bucket key) ++ others) := by
  have hlt : key % t.bucketsNum < t.buckets.length := Nat.mod_lt _ h
  refine ⟨(t.buckets.modify (key % t.bucketsNum) fun _ => []).flatten, ?_, flatten_modify_perm _ _ f hlt⟩
  have hid := flatten_modify_perm t.buckets (key % t.bucketsNum) id hlt
  rwa [List.modify_id] at hid

theorem placed_modifyBucket (h : Valid t) {f : List (Nat × α) → List (Nat × α)}
    (hf : ∀ kv ∈ f (t.bucket key), kv.1 % t.bucketsNum = key % t.bucketsNum) {i : Nat} {b : List (Nat × α)}
    {kv : Nat × α} (hb : (t.modifyBucket key f).buckets[i]? = some b) (hkv : kv ∈ b) :
    kv.1 % (t.modifyBucket key f).bucketsNum = i := by
  have hnum : (t.modifyBucket key f).bucketsNum = t.bucketsNum := List.length_modify ..
  rw [hnum]
  rw [modifyBucket, List.getElem?_modify] at hb
  obtain ⟨c, hc, rfl⟩ := Option.map_eq_some_iff.mp hb
  split_ifs at hkv with hi
  · subst hi
    refine hf kv ?_
    rw [bucket, List.getD_eq_getElem?_getD, hc]
    exact hkv
  · exact h.placed hc hkv

/-- Two tables whose entries differ by one. -/
theorem get_of_perm_cons {t' : HashTable α} (h : Valid t) (h' : Valid t') (hperm : t'.entries.Perm ((key, value) :: t.entries)) :
    t'.get = update t.get key (some value) ∧ t.get = update t'.get key none := by
  have hmem : ∀ {k v}, (k, v) ∈ t'.entries ↔ (k, v) = (key, value) ∨ (k, v) ∈ t.entries := by
    intro k v
    rw [hperm.mem_iff, List.mem_cons]
  have hself : (key, value) ∈ t'.entries := hmem.mpr (.inl rfl)
  have hnone : t.get key = none := by
    rw [get_eq_none h]
    intro v hv
    have hnodup := (hperm.map Prod.fst).nodup_iff.mp h'.unique
    rw [List.map_cons, List.nodup_cons] at hnodup
    exact hnodup.1 (List.mem_map.mpr ⟨_, hv, rfl⟩)
  have hother : ∀ k, k ≠ key → t'.get k = t.get k := by
    intro k hk
    apply Option.ext
    intro v
    rw [get_eq_some h', get_eq_some h, hmem]
    refine or_iff_right fun heq => hk ?_
    exact (Prod.mk.inj heq).1
  constructor
  · funext k
    by_cases hk : k = key
    · subst hk
      rw [update_self, (get_eq_some h').mpr hself]
    · rw [update_of_ne hk, hother k hk]
  · funext k
    by_cases hk : k = key
    · subst hk
      rw [update_self, hnone]
    · rw [update_of_ne hk, hother k hk]

/-! ## Operations -/

theorem init_valid : Valid (init : HashTable α) := by
  refine ⟨by simp [init, bucketsNum], ?_, by simp [init, entries], by simp [init, entries]⟩
  intro i b kv hb hkv
  have hempty : b = [] := List.eq_of_mem_replicate (List.mem_of_getElem? hb)
  rw [hempty] at hkv
  cases hkv

theorem get_init : (init : HashTable α).get key = none := by
  rw [get_eq_none init_valid]
  simp [init, entries]

theorem destroy_spec (h : Valid t) : t.destroy.Valid ∧ ∀ key, t.destroy.get key = none := by
  have hentries : t.destroy.entries = [] := by simp [destroy, entries]
  have hvalid : t.destroy.Valid := by
    refine ⟨by simpa [destroy, bucketsNum] using h.positive, ?_, by simp [hentries], by rw [hentries]; rfl⟩
    intro i b kv hb hkv
    obtain ⟨b', -, rfl⟩ := List.mem_map.mp (List.mem_of_getElem? hb)
    cases hkv
  refine ⟨hvalid, fun key => ?_⟩
  rw [get_eq_none hvalid, hentries]
  simp

theorem remove_spec (h : Valid t) (key : Nat) : Valid (t.remove key).2 ∧ (t.remove key).1 = t.get key ∧
    (t.remove key).2.get = update t.get key none := by
  rw [remove]
  split
  next kv hlookup =>
    obtain ⟨hkv, hkey⟩ := bucketLookup_eq_some hlookup
    obtain ⟨k, v⟩ := kv
    subst hkey
    obtain ⟨c, l, l', -, hc, hbucket, herase⟩ := List.exists_of_eraseP hkv (p := (·.1 == k)) (by simp)
    obtain ⟨k', v'⟩ := c
    obtain rfl : k' = k := by simpa using hc
    obtain rfl : v' = v := by
      refine eq_of_mem_entries h ((mem_bucket h).mp ?_) ((mem_bucket h).mp hkv)
      rw [hbucket]
      simp
    obtain ⟨others, hold, hnew⟩ := entries_modifyBucket h.positive k' (·.eraseP (·.1 == k'))
    have hperm : t.entries.Perm ((k', v') :: (t.modifyBucket k' (·.eraseP (·.1 == k'))).entries) := by
      refine hold.trans (.trans ?_ (hnew.symm.cons _))
      rw [herase, hbucket, List.append_assoc, List.append_assoc, List.cons_append]
      exact List.perm_middle
    have hvalid : Valid { t.modifyBucket k' (·.eraseP (·.1 == k')) with size := t.size - 1 } := by
      refine ⟨?_, ?_, ?_, ?_⟩
      · simpa [bucketsNum, modifyBucket] using h.positive
      · refine placed_modifyBucket h fun kv hkv' => ?_
        exact mod_of_mem_bucket h (List.mem_of_mem_eraseP hkv')
      · have hnodup := (hperm.map Prod.fst).nodup_iff.mp h.unique
        exact (List.nodup_cons.mp hnodup).2
      · have hlength := hperm.length_eq
        rw [← h.counted] at hlength
        exact Nat.sub_eq_of_eq_add hlength
    refine ⟨hvalid, ?_, (get_of_perm_cons hvalid h hperm).2⟩
    exact ((get_eq_some h).mpr ((mem_bucket h).mp hkv)).symm
  next hlookup =>
    have hnone : t.get key = none := by rw [get, hlookup]; rfl
    refine ⟨h, hnone.symm, ?_⟩
    rw [← hnone, update_eq_self]

theorem map_fst_setValue (value : α) (b : List (Nat × α)) : (setValue key value b).map Prod.fst = b.map Prod.fst := by
  induction b with
  | nil => rfl
  | cons kv b ih =>
    rw [setValue]
    split_ifs
    · rfl
    · rw [List.map_cons, List.map_cons, ih]

theorem mem_setValue {b : List (Nat × α)} (hkey : key ∈ b.map Prod.fst) : (key, value) ∈ setValue key value b := by
  induction b with
  | nil => cases hkey
  | cons kv b ih =>
    rw [setValue]
    split_ifs with heq
    · rw [heq]
      exact List.mem_cons_self ..
    · rw [List.map_cons, List.mem_cons] at hkey
      exact List.mem_cons_of_mem _ (ih (hkey.resolve_left (Ne.symm heq)))

theorem mem_setValue_of_ne {b : List (Nat × α)} {kv : Nat × α} (hne : kv.1 ≠ key) :
    kv ∈ setValue key value b ↔ kv ∈ b := by
  induction b with
  | nil => rfl
  | cons c b ih =>
    rw [setValue]
    split_ifs with heq
    · have hc : kv ≠ c := by
        rintro rfl
        exact hne heq
      have hc' : kv ≠ (c.1, value) := by
        rintro rfl
        exact hne heq
      simp [hc, hc']
    · rw [List.mem_cons, List.mem_cons, ih]

/-- An entry is moved to its place in the new buckets. -/
theorem place_spec {buckets : List (List (Nat × α))} (hpos : 0 < buckets.length)
    (hplaced : ∀ {i b kv}, buckets[i]? = some b → kv ∈ b → kv.1 % buckets.length = i) (c : Nat × α) :
    (place buckets c).length = buckets.length ∧ (place buckets c).flatten.Perm (buckets.flatten ++ [c]) ∧
      ∀ {i b kv}, (place buckets c)[i]? = some b → kv ∈ b → kv.1 % buckets.length = i := by
  have hlt : c.1 % buckets.length < buckets.length := Nat.mod_lt _ hpos
  refine ⟨List.length_modify .., ?_, ?_⟩
  · have hid := flatten_modify_perm buckets (c.1 % buckets.length) id hlt
    rw [List.modify_id] at hid
    refine (flatten_modify_perm buckets _ (· ++ [c]) hlt).trans (.trans ?_ (hid.symm.append_right [c]))
    rw [List.append_assoc, List.append_assoc]
    exact List.perm_append_comm.append_left _
  · intro i b kv hb hkv
    rw [place, List.getElem?_modify] at hb
    obtain ⟨d, hd, rfl⟩ := Option.map_eq_some_iff.mp hb
    split_ifs at hkv with hi
    · rcases List.mem_append.mp hkv with hkv | hkv
      · exact hplaced hd hkv
      · rw [List.mem_singleton.mp hkv]
        exact hi
    · exact hplaced hd hkv

theorem foldl_place_spec {buckets : List (List (Nat × α))} (xs : List (Nat × α)) (hpos : 0 < buckets.length)
    (hplaced : ∀ {i b kv}, buckets[i]? = some b → kv ∈ b → kv.1 % buckets.length = i) :
    (xs.foldl place buckets).length = buckets.length ∧ (xs.foldl place buckets).flatten.Perm (buckets.flatten ++ xs) ∧
      ∀ {i b kv}, (xs.foldl place buckets)[i]? = some b → kv ∈ b → kv.1 % buckets.length = i := by
  induction xs generalizing buckets with
  | nil => exact ⟨rfl, by simp, hplaced⟩
  | cons c xs ih =>
    obtain ⟨hlength, hperm, hplaced'⟩ := place_spec hpos hplaced c
    rw [← hlength] at hpos hplaced'
    obtain ⟨hlength', hperm', hplaced''⟩ := ih hpos hplaced'
    rw [List.foldl_cons]
    refine ⟨hlength'.trans hlength, ?_, hlength ▸ hplaced''⟩
    refine hperm'.trans ((hperm.append_right xs).trans ?_)
    rw [List.append_assoc, List.singleton_append]

/-- `hash_table_expand` keeps the entries. -/
theorem expand_spec (h : Valid t) : Valid t.expand ∧ t.expand.entries.Perm t.entries := by
  have hpos : 0 < (List.replicate (t.bucketsNum * 2) ([] : List (Nat × α))).length := by
    have hnum := h.positive
    rw [List.length_replicate]
    omega
  obtain ⟨hlength, hperm, hplaced⟩ := foldl_place_spec t.buckets.flatten hpos (by
    intro i b kv hb hkv
    rw [List.eq_of_mem_replicate (List.mem_of_getElem? hb)] at hkv
    cases hkv)
  have hflat : (List.replicate (t.bucketsNum * 2) ([] : List (Nat × α))).flatten = [] := by simp
  rw [hflat, List.nil_append] at hperm
  rw [← hlength] at hpos hplaced
  refine ⟨⟨hpos, hplaced, ?_, ?_⟩, hperm⟩
  · exact (hperm.map Prod.fst).nodup_iff.mpr h.unique
  · exact h.counted.trans hperm.length_eq.symm

theorem get_expand (h : Valid t) : t.expand.get = t.get := by
  obtain ⟨hvalid, hperm⟩ := expand_spec h
  funext k
  apply Option.ext
  intro v
  rw [get_eq_some hvalid, get_eq_some h, hperm.mem_iff]

theorem put_found (h : Valid t) (value : α) {kv : Nat × α} (hlookup : bucketLookup (t.bucket key) key = some kv) :
    Valid (t.modifyBucket key (setValue key value)) ∧
      (t.modifyBucket key (setValue key value)).get = update t.get key (some value) := by
  obtain ⟨others, hold, hnew⟩ := entries_modifyBucket h.positive key (setValue key value)
  obtain ⟨hkv, hkey⟩ := bucketLookup_eq_some hlookup
  have hin : key ∈ (t.bucket key).map Prod.fst := List.mem_map.mpr ⟨kv, hkv, hkey⟩
  have hfst : ((setValue key value (t.bucket key) ++ others).map Prod.fst) = (t.bucket key ++ others).map Prod.fst := by
    rw [List.map_append, List.map_append, map_fst_setValue]
  have hvalid : Valid (t.modifyBucket key (setValue key value)) := by
    refine ⟨by simpa [bucketsNum, modifyBucket] using h.positive, placed_modifyBucket h fun c hc => ?_, ?_, ?_⟩
    · have hc' : c.1 ∈ (t.bucket key).map Prod.fst := by
        rw [← map_fst_setValue value]
        exact List.mem_map_of_mem hc
      obtain ⟨d, hd, hdc⟩ := List.mem_map.mp hc'
      rw [← hdc]
      exact mod_of_mem_bucket h hd
    · rw [(hnew.map Prod.fst).nodup_iff, hfst, ← (hold.map Prod.fst).nodup_iff]
      exact h.unique
    · have hlength := congrArg List.length hfst
      rw [List.length_map, List.length_map] at hlength
      exact h.counted.trans (hold.length_eq.trans (hlength.symm.trans hnew.length_eq.symm))
  refine ⟨hvalid, ?_⟩
  funext k
  by_cases hk : k = key
  · subst hk
    rw [update_self, get_eq_some hvalid, hnew.mem_iff]
    exact List.mem_append_left _ (mem_setValue hin)
  · rw [update_of_ne hk]
    apply Option.ext
    intro v
    rw [get_eq_some hvalid, get_eq_some h, hnew.mem_iff, hold.mem_iff, List.mem_append, List.mem_append,
      mem_setValue_of_ne hk]

theorem put_new (h : Valid t) (value : α) (hlookup : bucketLookup (t.bucket key) key = none) :
    Valid { t.modifyBucket key (· ++ [(key, value)]) with size := t.size + 1 } ∧
      ({ t.modifyBucket key (· ++ [(key, value)]) with size := t.size + 1 } : HashTable α).get =
        update t.get key (some value) := by
  obtain ⟨others, hold, hnew⟩ := entries_modifyBucket h.positive key (· ++ [(key, value)])
  have hperm : (t.modifyBucket key (· ++ [(key, value)])).entries.Perm ((key, value) :: t.entries) := by
    refine hnew.trans (.trans ?_ (hold.symm.cons _))
    rw [List.append_assoc]
    exact List.perm_middle
  have hfresh : key ∉ t.entries.map Prod.fst := by
    intro hmem
    obtain ⟨⟨k, v⟩, hkv, rfl⟩ := List.mem_map.mp hmem
    exact bucketLookup_eq_none hlookup (List.mem_map_of_mem ((mem_bucket h).mpr hkv))
  have hvalid : Valid { t.modifyBucket key (· ++ [(key, value)]) with size := t.size + 1 } := by
    refine ⟨by simpa [bucketsNum, modifyBucket] using h.positive, placed_modifyBucket h fun c hc => ?_, ?_, ?_⟩
    · rcases List.mem_append.mp hc with hc | hc
      · exact mod_of_mem_bucket h hc
      · rw [List.mem_singleton.mp hc]
    · refine (hperm.map Prod.fst).nodup_iff.mpr ?_
      exact List.nodup_cons.mpr ⟨hfresh, h.unique⟩
    · rw [h.counted]
      exact hperm.length_eq.symm
  exact ⟨hvalid, (get_of_perm_cons h hvalid hperm).1⟩

theorem put_spec (h : Valid t) (key : Nat) (value : α) : Valid (t.put key value).2 ∧ (t.put key value).1 = t.get key ∧
    (t.put key value).2.get = update t.get key (some value) := by
  rw [put]
  split
  next kv hlookup =>
    obtain ⟨hvalid, hget⟩ := put_found h value hlookup
    refine ⟨hvalid, ?_, hget⟩
    rw [get, hlookup]
    rfl
  next hlookup =>
    obtain ⟨hvalid, hget⟩ := put_new h value hlookup
    have hnone : t.get key = none := by rw [get, hlookup]; rfl
    dsimp only
    split_ifs
    · exact ⟨(expand_spec hvalid).1, hnone.symm, (get_expand hvalid).trans hget⟩
    · exact ⟨hvalid, hnone.symm, hget⟩

/-- A table is empty if and only if nothing is found in it. -/
theorem size_eq_zero (h : Valid t) : t.size = 0 ↔ ∀ key, t.get key = none := by
  rw [h.counted, List.length_eq_zero_iff]
  constructor
  · intro hempty key
    rw [get_eq_none h, hempty]
    simp
  · intro hnone
    rw [List.eq_nil_iff_forall_not_mem]
    rintro ⟨k, v⟩ hkv
    rw [← get_eq_some h, hnone] at hkv
    cases hkv

theorem get_ne_none (h : Valid t) : t.get key ≠ none ↔ ∃ value, (key, value) ∈ t.entries := by
  rw [Ne, get_eq_none h, not_forall]
  exact exists_congr fun value => not_not

theorem one_lt_size (h : Valid t) : 1 < t.size ↔ ∃ key key', key ≠ key' ∧ t.get key ≠ none ∧ t.get key' ≠ none := by
  have hunique := h.unique
  simp only [get_ne_none h, h.counted]
  constructor
  · intro hsize
    match hentries : t.entries with
    | [] | [_] => simp [hentries] at hsize
    | a :: b :: rest =>
      rw [hentries, List.map_cons, List.nodup_cons] at hunique
      refine ⟨a.1, b.1, fun heq => hunique.1 (by simp [heq]), ⟨a.2, by simp⟩, ⟨b.2, by simp⟩⟩
  · rintro ⟨key, key', hne, ⟨value, hkey⟩, ⟨value', hkey'⟩⟩
    by_contra hsize
    match hentries : t.entries with
    | [] => simp [hentries] at hkey
    | [kv] =>
      rw [hentries, List.mem_singleton] at hkey hkey'
      exact hne (congrArg Prod.fst (hkey.trans hkey'.symm))
    | a :: b :: rest => simp [hentries] at hsize

/-- A new iterator of a table that is not empty finds an entry. -/
theorem iteratorNext_createIterator (h : Valid t) (hsize : 0 < t.size) :
    ∃ kv, (t.iteratorNext createIterator).1 = some kv ∧ t.get kv.1 = some kv.2 := by
  have hne : t.buckets.zipIdx.find? (!·.1.isEmpty) ≠ none := by
    intro hnone
    rw [h.counted, entries] at hsize
    refine Nat.ne_of_gt hsize (List.length_eq_zero_iff.mpr (List.flatten_eq_nil_iff.mpr fun b hb => ?_))
    obtain ⟨i, hi⟩ := List.mem_iff_getElem?.mp hb
    have hempty := List.find?_eq_none.mp hnone (b, i) (List.mem_zipIdx_iff_getElem?.mpr hi)
    simpa using hempty
  obtain ⟨⟨b, i⟩, hfind⟩ := Option.ne_none_iff_exists'.mp hne
  have hb : b ≠ [] := by simpa using List.find?_some hfind
  obtain ⟨kv, b', rfl⟩ := List.exists_cons_of_ne_nil hb
  have hmem : (kv :: b') ∈ t.buckets := by
    have hzip := List.mem_of_find?_eq_some hfind
    exact List.mem_of_getElem? (List.mem_zipIdx_iff_getElem?.mp hzip)
  refine ⟨kv, ?_, ?_⟩
  · have hindex : ¬ (t.size : Int) - 1 ≤ -1 := by omega
    simp [iteratorNext, createIterator, hindex, hfind]
  · rw [get_eq_some h]
    exact List.mem_flatten.mpr ⟨_, hmem, List.mem_cons_self ..⟩

end HashTable

end LuckOS
