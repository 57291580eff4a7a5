import LuckOS.Bitmap

/-!
# The id pool of `utils/id_pool.c`

The set bits are the ids in use. `id_pool_allocate_id` takes the least id that is not in use
and expands the bitmap when there is none, up to the maximum size. A call is one step here.
-/

namespace LuckOS

structure IdPool where
  size : Nat
  maxSize : Nat
  expandSize : Nat
  idMap : Bitmap

namespace IdPool

/-- `id_pool_init`. -/
def init (size maxSize : Nat) : IdPool := ⟨size, maxSize, size, Bitmap.init none size⟩

/-- `id_pool_set_id`. -/
def setId (p : IdPool) (id : Nat) : IdPool := { p with idMap := p.idMap.setBit id }

/-- `expand`. It has no return statement behind a successful expansion. -/
def expand (p : IdPool) : IdPool :=
  let newSize := min (p.size + p.expandSize) p.maxSize
  { p with idMap := p.idMap.expand newSize, size := newSize }

/-- `id_pool_allocate_id`, with the id that is stored. Nothing is stored when the pool is
exhausted. -/
def allocateId (p : IdPool) : Option (Nat × IdPool) :=
  match p.idMap.allocateFirstFree with
  | some (id, idMap) => some (id, { p with idMap := idMap })
  | none =>
    if p.size = p.maxSize then none
    else (p.expand.idMap.allocateFirstFree).map fun (id, idMap) => (id, { p.expand with idMap := idMap })

/-- `id_pool_free_id`. -/
def freeId (p : IdPool) (id : Nat) : IdPool := { p with idMap := p.idMap.clearBit id }

/-- The id is in use. -/
def used (p : IdPool) (id : Nat) : Bool := p.idMap.testBit id

/-- The sizes of the pool agree. -/
structure Whole (p : IdPool) : Prop where
  array : p.idMap.array.length ≤ p.idMap.arraySize
  arraySize : p.idMap.arraySize = p.size / 32
  bound : p.size ≤ p.maxSize

variable {p p' : IdPool} {id : Nat}

theorem used_expand (h : p.Whole) (i : Nat) : p.expand.used i = p.used i :=
  Bitmap.testBit_expand h.array ..

theorem whole_expand (h : p.Whole) : p.expand.Whole := by
  have hbound := h.bound
  have hsize := h.arraySize
  have hle : p.size ≤ min (p.size + p.expandSize) p.maxSize := by omega
  have hdiv := Nat.div_le_div_right (c := 32) hle
  refine ⟨?_, rfl, by simp only [expand]; omega⟩
  simp only [expand, Bitmap.expand, List.length_append, List.length_take, List.length_replicate]
  omega

theorem init_whole {size maxSize : Nat} (h : size ≤ maxSize) : (init size maxSize).Whole := by
  refine ⟨?_, rfl, h⟩
  simp [init, Bitmap.init, Bitmap.clearWords]

theorem used_init {size maxSize : Nat} (i : Nat) : (init size maxSize).used i = false := by
  rw [used, Bitmap.testBit_eq, Bitmap.word, List.getD_eq_getElem?_getD]
  cases hget : (init size maxSize).idMap.array[i / 32]? with
  | none => simp
  | some w =>
    have hw : w = 0 := by
      have hmem := List.mem_of_getElem? hget
      simp only [init, Bitmap.init, Bitmap.clearWords, Option.getD_none, List.drop_nil, List.append_nil] at hmem
      exact List.eq_of_mem_replicate hmem
    simp [hw]

theorem whole_mark (h : p.Whole) {idMap : Bitmap} (hsizes : idMap.sizes = p.idMap.sizes) :
    ({ p with idMap := idMap } : IdPool).Whole := by
  obtain ⟨hsize, hlength⟩ := Prod.mk.inj hsizes
  refine ⟨?_, hsize.trans h.arraySize, h.bound⟩
  change idMap.array.length ≤ idMap.arraySize
  rw [hsize, hlength]
  exact h.array

theorem whole_freeId (h : p.Whole) : (p.freeId id).Whole := whole_mark h (by simp)

/-- An allocation returns an id that is not in use, and marks it. -/
theorem allocateId_spec (h : p.Whole) (halloc : p.allocateId = some (id, p')) :
    p'.Whole ∧ p.used id = false ∧ ∀ i, p'.used i = (decide (i = id) || p.used i) := by
  rw [allocateId] at halloc
  split at halloc
  next id' idMap hfirst =>
    cases halloc
    obtain ⟨hfind, rfl⟩ := Bitmap.allocateFirstFree_eq_some hfirst
    exact ⟨whole_mark h (by simp), (Bitmap.findFirstFree_eq_some hfind).2.1, Bitmap.testBit_allocateFirstFree hfirst⟩
  next =>
    split_ifs at halloc
    obtain ⟨⟨id', idMap⟩, hfirst, heq⟩ := Option.map_eq_some_iff.mp halloc
    cases heq
    obtain ⟨hfind, rfl⟩ := Bitmap.allocateFirstFree_eq_some hfirst
    refine ⟨whole_mark (whole_expand h) (by simp), ?_, fun i => ?_⟩
    · rw [← used_expand h]
      exact (Bitmap.findFirstFree_eq_some hfind).2.1
    · rw [← used_expand h i]
      exact Bitmap.testBit_allocateFirstFree hfirst i

theorem used_freeId (i : Nat) : (p.freeId id).used i = (!decide (i = id) && p.used i) :=
  Bitmap.testBit_clearBit ..

end IdPool

end LuckOS
