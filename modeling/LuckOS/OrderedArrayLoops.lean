import LuckOS.OrderedArray
import Mathlib.Data.List.TakeWhile
import Mathlib.Logic.Function.Basic

/-!
# The loops of `utils/ordered_array.c`

The functions shift the cells of an array in place, with indexes on 32 bits. A bound such as `size - 1` is
computed behind the test that the array is not empty. The elements in use are changed as the functions on
lists change them, and for a comparator that is a total preorder they stay sorted.
-/

namespace LuckOS.OrderedArray

universe u

/-- `ordered_array_t`. The cells from `size` on are not in use. -/
structure Cells (α : Type u) where
  array : UInt32 → α
  size : UInt32
  maxSize : UInt32
  comparator : α → α → Int

/-- `standard_comparator`, on pointers. -/
def standardComparator (a b : UInt32) : Int := if a < b then -1 else if a = b then 0 else 1

theorem toNat_succ {i last : UInt32} (h : i < last) : (i + 1).toNat = i.toNat + 1 := by
  have hlt : i.toNat < last.toNat := h
  have hbound := last.toNat_lt
  rw [UInt32.toNat_add, UInt32.toNat_one, Nat.mod_eq_of_lt (by omega)]

theorem toNat_pred {i first : UInt32} (h : first < i) : (i - 1).toNat = i.toNat - 1 := by
  have hlt : first.toNat < i.toNat := h
  exact UInt32.toNat_sub_of_le i 1 (Nat.one_le_of_lt hlt)

namespace Cells

variable {α : Type u}

/-- The loop that skips the elements that are not greater. -/
def skip (this : Cells α) (item : α) (iterator : UInt32) : UInt32 :=
  if iterator < this.size ∧ this.comparator (this.array iterator) item ≤ 0 then
    this.skip item (iterator + 1)
  else iterator
termination_by this.size.toNat - iterator.toNat
decreasing_by
  rename_i h
  have hlt : iterator.toNat < this.size.toNat := h.1
  rw [toNat_succ h.1]
  omega

/-- The loop that moves the cells from index `i` down to the one behind `iterator`. -/
def shiftUp (iterator : UInt32) (array : UInt32 → α) (i : UInt32) : UInt32 → α :=
  if iterator < i then shiftUp iterator (Function.update array i (array (i - 1))) (i - 1) else array
termination_by i.toNat
decreasing_by
  rename_i h
  have hlt : iterator.toNat < i.toNat := h
  rw [toNat_pred h]
  omega

/-- The loop that moves the cells behind index `i`, up to the last one. -/
def shiftDown (last : UInt32) (array : UInt32 → α) (i : UInt32) : UInt32 → α :=
  if i < last then shiftDown last (Function.update array i (array (i + 1))) (i + 1) else array
termination_by last.toNat - i.toNat
decreasing_by
  rename_i h
  have hlt : i.toNat < last.toNat := h
  rw [toNat_succ h]
  omega

/-- `ordered_array_insert`: the result and the array. -/
def insert (this : Cells α) (item : α) : UInt32 × Cells α :=
  if this.maxSize ≤ this.size then (0, this)
  else
    let iterator := this.skip item 0
    let this := { this with size := this.size + 1 }
    let array := shiftUp iterator this.array (this.size - 1)
    (1, { this with array := Function.update array iterator item })

/-- `ordered_array_remove`. -/
def remove (this : Cells α) (i : UInt32) : UInt32 × Cells α :=
  if this.size ≤ i then (0, this)
  else (1, { this with array := shiftDown (this.size - 1) this.array i, size := this.size - 1 })

section

variable [DecidableEq α]

/-- The loop that compares elements. -/
def indexFrom (this : Cells α) (ele : α) (i : UInt32) : UInt32 :=
  if i < this.size then if this.array i = ele then i else this.indexFrom ele (i + 1) else this.size
termination_by this.size.toNat - i.toNat
decreasing_by
  rename_i h _
  have hlt : i.toNat < this.size.toNat := h
  rw [toNat_succ h]
  omega

/-- `ordered_array_find_element`. -/
def findElement (this : Cells α) (ele : α) : UInt32 := this.indexFrom ele 0

/-- `ordered_array_remove_element`. -/
def removeElement (this : Cells α) (ele : α) : UInt32 × Cells α :=
  let index := this.indexFrom ele 0
  if index = this.size then (0, this)
  else (1, { this with array := shiftDown (this.size - 1) this.array index, size := this.size - 1 })

end

/-- The cell at an index. -/
def cell (array : UInt32 → α) (k : Nat) : α := array (UInt32.ofNat k)

/-- The elements in use. -/
def elements (this : Cells α) : List α := (List.range this.size.toNat).map (cell this.array)

/-! ## Cells -/

variable {this : Cells α} {array : UInt32 → α} {i last iterator : UInt32} {item x : α} {k : Nat}

theorem cell_toNat (array : UInt32 → α) (i : UInt32) : cell array i.toNat = array i := by
  rw [cell, UInt32.ofNat_toNat]

theorem cell_update (hk : k < 2 ^ 32) :
    cell (Function.update array i x) k = if k = i.toNat then x else cell array k := by
  have htoNat : (UInt32.ofNat k).toNat = k := UInt32.toNat_ofNat_of_lt' hk
  rw [cell, Function.update_apply]
  refine if_congr ?_ rfl rfl
  rw [← UInt32.toNat_inj, htoNat]

theorem cell_shiftDown (hk : k < 2 ^ 32) : cell (shiftDown last array i) k =
    if i.toNat ≤ k ∧ k < last.toNat then cell array (k + 1) else cell array k := by
  fun_induction shiftDown last array i with
  | case1 array i h ih =>
    have hlt : i.toNat < last.toNat := h
    have hbound := last.toNat_lt
    have hnext : array (i + 1) = cell array (i.toNat + 1) := by rw [← toNat_succ h, cell_toNat]
    rw [ih, toNat_succ h, hnext]
    by_cases heq : k = i.toNat
    · rw [if_neg (by omega), cell_update hk, if_pos heq, if_pos (by omega), heq]
    · by_cases hin : i.toNat ≤ k ∧ k < last.toNat
      · rw [if_pos (by omega), if_pos hin, cell_update (by omega), if_neg (by omega)]
      · rw [if_neg (by omega), if_neg hin, cell_update hk, if_neg heq]
  | case2 array i h =>
    have hle : last.toNat ≤ i.toNat := Nat.le_of_not_lt h
    rw [if_neg (by omega)]

theorem cell_shiftUp (hk : k < 2 ^ 32) : cell (shiftUp iterator array i) k =
    if iterator.toNat < k ∧ k ≤ i.toNat then cell array (k - 1) else cell array k := by
  fun_induction shiftUp iterator array i with
  | case1 array i h ih =>
    have hlt : iterator.toNat < i.toNat := h
    have hprev : array (i - 1) = cell array (i.toNat - 1) := by rw [← toNat_pred h, cell_toNat]
    rw [ih, toNat_pred h, hprev]
    by_cases heq : k = i.toNat
    · rw [if_neg (by omega), cell_update hk, if_pos heq, if_pos (by omega), heq]
    · by_cases hin : iterator.toNat < k ∧ k ≤ i.toNat
      · rw [if_pos (by omega), if_pos hin, cell_update (by omega), if_neg (by omega)]
      · rw [if_neg (by omega), if_neg hin, cell_update hk, if_neg heq]
  | case2 array i h =>
    have hle : i.toNat ≤ iterator.toNat := Nat.le_of_not_lt h
    rw [if_neg (by omega)]

/-! ## Elements -/

@[simp] theorem length_elements (this : Cells α) : this.elements.length = this.size.toNat := by
  rw [elements, List.length_map, List.length_range]

theorem getElem?_elements (this : Cells α) (k : Nat) :
    this.elements[k]? = if k < this.size.toNat then some (cell this.array k) else none := by
  rw [elements, List.getElem?_map]
  split_ifs with hk
  · rw [List.getElem?_range hk]
    rfl
  · rw [List.getElem?_eq_none (by rw [List.length_range]; omega)]
    rfl

theorem drop_elements (h : i < this.size) :
    this.elements.drop i.toNat = this.array i :: this.elements.drop (i + 1).toNat := by
  have hlt : i.toNat < this.elements.length := by
    rw [length_elements]
    exact h
  have hget := getElem?_elements this i.toNat
  rw [if_pos (show i.toNat < this.size.toNat from h), cell_toNat, List.getElem?_eq_getElem hlt] at hget
  rw [List.drop_eq_getElem_cons hlt, toNat_succ h, Option.some.inj hget]

theorem drop_elements_of_not_lt (h : ¬ i < this.size) : this.elements.drop i.toNat = [] := by
  apply List.drop_eq_nil_of_le
  rw [length_elements]
  exact Nat.le_of_not_lt h

/-- The loop skips as many elements as the search in the list. -/
theorem skip_toNat (this : Cells α) (item : α) (i : UInt32) : (this.skip item i).toNat =
    i.toNat + insertIterator this.comparator item (this.elements.drop i.toNat) := by
  fun_induction skip this item i with
  | case1 i h ih =>
    rw [ih, drop_elements h.1, insertIterator, if_pos h.2, toNat_succ h.1]
    omega
  | case2 i h =>
    by_cases hlt : i < this.size
    · rw [drop_elements hlt, insertIterator, if_neg fun hle => h ⟨hlt, hle⟩, Nat.add_zero]
    · rw [drop_elements_of_not_lt hlt]
      rfl

theorem insertIterator_le (comparator : α → α → Int) (item : α) (xs : List α) :
    insertIterator comparator item xs ≤ xs.length := by
  induction xs with
  | nil => exact Nat.le_refl 0
  | cons x xs ih =>
    rw [insertIterator, List.length_cons]
    split_ifs
    · omega
    · omega

/-- The loops of an insertion insert the item into the list of the elements. -/
theorem elements_insert (h : this.size < this.maxSize) (item : α) :
    (this.insert item).1 = 1 ∧ (this.insert item).2.elements =
      this.elements.insertIdx (insertIterator this.comparator item this.elements) item := by
  have hsucc := toNat_succ h
  have hbound := (this.size + 1).toNat_lt
  have hlast : this.size + 1 - 1 = this.size := UInt32.add_sub_cancel ..
  have hskip := skip_toNat this item 0
  rw [UInt32.toNat_zero, List.drop_zero, Nat.zero_add] at hskip
  have hle := insertIterator_le this.comparator item this.elements
  rw [length_elements] at hle
  rw [insert, if_neg (show ¬ this.maxSize ≤ this.size from Nat.not_le_of_lt h)]
  refine ⟨rfl, List.ext_getElem? fun k => ?_⟩
  rw [getElem?_elements, List.getElem?_insertIdx, length_elements, getElem?_elements, getElem?_elements]
  simp only [hsucc, hlast]
  by_cases hk : k < this.size.toNat + 1
  · rw [if_pos hk, cell_update (by omega), cell_shiftUp (by omega), hskip]
    split_ifs <;> first | rfl | omega
  · rw [if_neg hk]
    split_ifs <;> first | rfl | omega

/-- The loop of a removal erases an element of the list. -/
theorem elements_shiftDown (h : i < this.size) :
    ({ this with array := shiftDown (this.size - 1) this.array i, size := this.size - 1 } :
      Cells α).elements = this.elements.eraseIdx i.toNat := by
  have hpred := toNat_pred h
  have hlt : i.toNat < this.size.toNat := h
  have hbound := this.size.toNat_lt
  refine List.ext_getElem? fun k => ?_
  rw [getElem?_elements, List.getElem?_eraseIdx, getElem?_elements, getElem?_elements]
  simp only [hpred]
  by_cases hk : k < this.size.toNat - 1
  · rw [if_pos hk, cell_shiftDown (by omega), hpred]
    split_ifs <;> first | rfl | omega
  · rw [if_neg hk]
    split_ifs <;> first | rfl | omega

/-- The search finds the first index of the element, or the number of elements. -/
theorem indexFrom_toNat [DecidableEq α] (this : Cells α) (ele : α) (i : UInt32) (h : i ≤ this.size) :
    (this.indexFrom ele i).toNat = i.toNat + (this.elements.drop i.toNat).idxOf ele := by
  fun_induction indexFrom this ele i with
  | case1 i hlt heq =>
    rw [drop_elements hlt, heq, List.idxOf_cons_self, Nat.add_zero]
  | case2 i hlt hne ih =>
    rw [ih (show (i + 1).toNat ≤ this.size.toNat by rw [toNat_succ hlt]; exact hlt), drop_elements hlt,
      List.idxOf_cons_ne _ hne, toNat_succ hlt]
    omega
  | case3 i hge =>
    have hle : i.toNat ≤ this.size.toNat := h
    have hge' : this.size.toNat ≤ i.toNat := Nat.le_of_not_lt hge
    rw [drop_elements_of_not_lt hge, List.idxOf_nil]
    omega

theorem findElement_toNat [DecidableEq α] (this : Cells α) (ele : α) :
    (this.findElement ele).toNat = this.elements.idxOf ele := by
  have hindex := indexFrom_toNat this ele 0 (Nat.zero_le _)
  rwa [UInt32.toNat_zero, List.drop_zero, Nat.zero_add] at hindex

/-! ## Order -/

/-- The elements are in the order of the comparator. -/
def Sorted (this : Cells α) : Prop := this.elements.Pairwise fun x y => this.comparator x y ≤ 0

end Cells

variable {α : Type u} {comparator : α → α → Int} {item : α} {xs : List α}

/-- Any two elements compare, and what is not greater than an element is not greater than what that one
is not greater than. -/
structure TotalPreorder (comparator : α → α → Int) : Prop where
  total : ∀ x y, comparator x y ≤ 0 ∨ comparator y x ≤ 0
  trans : ∀ {x y z}, comparator x y ≤ 0 → comparator y z ≤ 0 → comparator x z ≤ 0

/-- The item is put between the elements that are not greater and the others. -/
theorem insertIdx_eq (comparator : α → α → Int) (item : α) (xs : List α) :
    xs.insertIdx (insertIterator comparator item xs) item =
      xs.takeWhile (comparator · item ≤ 0) ++ item :: xs.dropWhile (comparator · item ≤ 0) := by
  induction xs with
  | nil => rfl
  | cons x xs ih =>
    rw [insertIdx_cons]
    by_cases hx : comparator x item ≤ 0
    · rw [if_pos hx, ih, List.takeWhile_cons_of_pos (by simpa using hx),
        List.dropWhile_cons_of_pos (by simpa using hx), List.cons_append]
    · rw [if_neg hx, List.takeWhile_cons_of_neg (by simpa using hx),
        List.dropWhile_cons_of_neg (by simpa using hx), List.nil_append]

/-- Behind the elements that are not greater, all are greater. -/
theorem greater_of_mem_dropWhile (h : TotalPreorder comparator)
    (hsorted : xs.Pairwise fun x y => comparator x y ≤ 0) {y : α}
    (hy : y ∈ xs.dropWhile (comparator · item ≤ 0)) : 0 < comparator y item := by
  induction xs with
  | nil => cases hy
  | cons x xs ih =>
    obtain ⟨hx, hrest⟩ := List.pairwise_cons.mp hsorted
    by_cases hle : comparator x item ≤ 0
    · rw [List.dropWhile_cons_of_pos (by simpa using hle)] at hy
      exact ih hrest hy
    · rw [List.dropWhile_cons_of_neg (by simpa using hle)] at hy
      rcases List.mem_cons.mp hy with rfl | hy
      · exact Int.not_le.mp hle
      · exact Int.not_le.mp fun hyi => hle (h.trans (hx y hy) hyi)

theorem sorted_insertIdx (h : TotalPreorder comparator)
    (hsorted : xs.Pairwise fun x y => comparator x y ≤ 0) :
    (xs.insertIdx (insertIterator comparator item xs) item).Pairwise fun x y => comparator x y ≤ 0 :=
  insertIdx_pairwise h.trans (fun _ _ => id) (fun x _ => (h.total item x).resolve_right) hsorted

namespace Cells

/-- The elements became a sorted list that fits in the array, and only cells in use were stored to. -/
structure Becomes (this this' : Cells α) (xs : List α) : Prop where
  elements : this'.elements = xs
  sorted : this'.Sorted
  bound : this'.size ≤ this'.maxSize
  maxSize : this'.maxSize = this.maxSize
  comparator : this'.comparator = this.comparator
  behind : ∀ k < 2 ^ 32, this.size.toNat ≤ k → this'.size.toNat ≤ k →
    cell this'.array k = cell this.array k

variable {this : Cells α} {i : UInt32}

theorem becomes_insert (hpreorder : TotalPreorder this.comparator) (hsorted : this.Sorted)
    (h : this.size < this.maxSize) (item : α) :
    ∃ this', this.insert item = (1, this') ∧ Becomes this this'
      (this.elements.takeWhile (this.comparator · item ≤ 0) ++
        item :: this.elements.dropWhile (this.comparator · item ≤ 0)) := by
  obtain ⟨hone, helements⟩ := elements_insert h item
  have hsucc := toNat_succ h
  have hnot : ¬ this.maxSize ≤ this.size := Nat.not_le_of_lt h
  have hinsert : this.insert item = (1, (this.insert item).2) := Prod.ext hone rfl
  have hlast : this.size + 1 - 1 = this.size := UInt32.add_sub_cancel ..
  have hskip := skip_toNat this item 0
  have hle := insertIterator_le this.comparator item this.elements
  rw [UInt32.toNat_zero, List.drop_zero, Nat.zero_add] at hskip
  rw [length_elements] at hle
  refine ⟨_, hinsert, helements.trans (insertIdx_eq ..), ?_, ?_, ?_, ?_, fun k hk hold hnew => ?_⟩
  · have hcomparator : (this.insert item).2.comparator = this.comparator := by
      rw [insert, if_neg hnot]
    rw [Sorted, hcomparator, helements]
    exact sorted_insertIdx hpreorder hsorted
  · rw [insert, if_neg hnot]
    show (this.size + 1).toNat ≤ this.maxSize.toNat
    rw [hsucc]
    exact h
  · rw [insert, if_neg hnot]
  · rw [insert, if_neg hnot]
  · rw [insert, if_neg hnot] at hnew ⊢
    simp only [hsucc, hlast] at hnew ⊢
    rw [cell_update hk, if_neg (by omega), cell_shiftUp hk, if_neg (by omega)]

theorem becomes_erase (hsorted : this.Sorted) (hbound : this.size ≤ this.maxSize) (h : i < this.size) :
    Becomes this { this with array := shiftDown (this.size - 1) this.array i, size := this.size - 1 }
      (this.elements.eraseIdx i.toNat) := by
  have hpred := toNat_pred h
  refine ⟨elements_shiftDown h, ?_, ?_, rfl, rfl, fun k hk hold hnew => ?_⟩
  · rw [Sorted, elements_shiftDown h]
    exact hsorted.sublist (List.eraseIdx_sublist ..)
  · show (this.size - 1).toNat ≤ this.maxSize.toNat
    rw [hpred]
    exact Nat.le_trans (Nat.sub_le ..) hbound
  · rw [cell_shiftDown hk, hpred, if_neg (by omega)]

/-- For a total preorder, an array stays sorted. An item is inserted behind all elements that are not
greater, an element is removed by its index or at its first occurrence, and a full array or a missing
element leaves the array as it is. -/
theorem ordered_array_keeps_order [DecidableEq α] (this : Cells α)
    (hpreorder : TotalPreorder this.comparator) (hsorted : this.Sorted)
    (hbound : this.size ≤ this.maxSize) :
    (∀ item, this.size = this.maxSize → this.insert item = (0, this)) ∧
      (∀ item, this.size ≠ this.maxSize → ∃ this' before after, this.insert item = (1, this') ∧
        Becomes this this' (before ++ item :: after) ∧ this.elements = before ++ after ∧
          (∀ x ∈ before, this.comparator x item ≤ 0) ∧ ∀ x ∈ after, 0 < this.comparator x item) ∧
      (∀ i, i < this.size → ∃ this', this.remove i = (1, this') ∧
        Becomes this this' (this.elements.eraseIdx i.toNat)) ∧
      (∀ i, ¬ i < this.size → this.remove i = (0, this)) ∧
      (∀ ele ∈ this.elements, ∃ this', this.removeElement ele = (1, this') ∧
        Becomes this this' (this.elements.erase ele)) ∧
      (∀ ele ∉ this.elements, this.removeElement ele = (0, this)) ∧
      ∀ ele, (this.findElement ele).toNat = this.elements.idxOf ele := by
  have hindex := findElement_toNat this
  refine ⟨fun item hfull => ?_, fun item hroom => ?_, fun i hi => ?_, fun i hi => ?_,
    fun ele hele => ?_,
    fun ele hele => ?_, hindex⟩
  · rw [insert, if_pos (UInt32.le_of_eq hfull.symm)]
  · have hlt : this.size < this.maxSize := UInt32.lt_of_le_of_ne hbound hroom
    obtain ⟨this', hinsert, hbecomes⟩ := becomes_insert hpreorder hsorted hlt item
    refine ⟨this', _, _, hinsert, hbecomes, List.takeWhile_append_dropWhile.symm, fun x hx => ?_,
      fun x => greater_of_mem_dropWhile hpreorder hsorted⟩
    simpa using List.mem_takeWhile_imp hx
  · rw [remove, if_neg (UInt32.not_le.mpr hi)]
    exact ⟨_, rfl, becomes_erase hsorted hbound hi⟩
  · rw [remove, if_pos (UInt32.not_lt.mp hi)]
  · have hlt : this.indexFrom ele 0 < this.size := by
      have hmem := List.idxOf_lt_length_of_mem hele
      rw [← hindex, length_elements] at hmem
      exact hmem
    rw [removeElement, if_neg (UInt32.ne_of_lt hlt), List.erase_eq_eraseIdx_of_idxOf (hindex ele).symm]
    exact ⟨_, rfl, becomes_erase hsorted hbound hlt⟩
  · have hend : this.indexFrom ele 0 = this.size := by
      have hmissing := hindex ele
      rw [List.idxOf_eq_length hele, length_elements] at hmissing
      exact UInt32.toNat_inj.mp hmissing
    rw [removeElement, if_pos hend]

theorem standardComparator_le_zero {a b : UInt32} : standardComparator a b ≤ 0 ↔ a ≤ b := by
  rw [standardComparator]
  split_ifs with hlt heq
  · exact iff_of_true (by decide) (UInt32.le_of_lt hlt)
  · exact iff_of_true (by decide) (UInt32.le_of_eq heq)
  · exact iff_of_false (by decide) fun hle => hlt (UInt32.lt_of_le_of_ne hle heq)

theorem totalPreorder_standardComparator : TotalPreorder standardComparator where
  total x y := by
    rw [standardComparator_le_zero, standardComparator_le_zero]
    exact UInt32.le_total x y
  trans hxy hyz := by
    rw [standardComparator_le_zero] at hxy hyz ⊢
    exact UInt32.le_trans hxy hyz

/-- Three pointers, two of them equal, in an array of eight. -/
def threePointers : Cells UInt32 where
  array i := if i = 0 then 3 else 5
  size := 3
  maxSize := 8
  comparator := standardComparator

/-- Another equal pointer is put behind the two. -/
theorem threePointers_insert : ∃ this' : Cells UInt32, threePointers.insert 5 = (1, this') ∧
    this'.Sorted ∧ this'.elements.length = 4 := by
  have hsorted : threePointers.elements.Pairwise fun x y => standardComparator x y ≤ 0 := by decide
  obtain ⟨-, hinsert, -⟩ :=
    ordered_array_keeps_order threePointers totalPreorder_standardComparator hsorted (by decide)
  obtain ⟨this', before, after, hresult, hbecomes, hsplit, -⟩ := hinsert 5 (by decide)
  refine ⟨this', hresult, hbecomes.sorted, ?_⟩
  have hthree : threePointers.elements.length = 3 := by decide
  rw [hbecomes.elements, List.length_append, List.length_cons]
  rw [hsplit, List.length_append] at hthree
  omega

/-! ## The arrays of the heap -/

/-- The functions on cells are those on lists. -/
theorem refines_insert (this : Cells α) (item : α) :
    ((this.insert item).1.toNat, (this.insert item).2.elements) =
      OrderedArray.insert this.comparator this.maxSize.toNat this.elements item := by
  rw [OrderedArray.insert, length_elements]
  by_cases hfull : this.maxSize ≤ this.size
  · rw [if_pos (show this.maxSize.toNat ≤ this.size.toNat from hfull), insert, if_pos hfull]
    rfl
  · obtain ⟨hone, helements⟩ := elements_insert (UInt32.not_le.mp hfull) item
    rw [if_neg (show ¬ this.maxSize.toNat ≤ this.size.toNat from hfull), hone, helements]
    rfl

theorem refines_remove (this : Cells α) (i : UInt32) :
    ((this.remove i).1.toNat, (this.remove i).2.elements) =
    OrderedArray.remove this.elements i.toNat := by
  rw [OrderedArray.remove, length_elements, remove]
  by_cases hi : i < this.size
  · rw [if_neg (UInt32.not_le.mpr hi),
      if_neg (show ¬ this.size.toNat ≤ i.toNat from Nat.not_le_of_lt hi)]
    exact congrArg _ (elements_shiftDown hi)
  · rw [if_pos (UInt32.not_lt.mp hi), if_pos (show this.size.toNat ≤ i.toNat from UInt32.not_lt.mp hi)]
    rfl

end Cells

end LuckOS.OrderedArray
