import Mathlib.Algebra.GroupWithZero.Nat
import Mathlib.Data.List.Perm.Basic
import Mathlib.Data.List.Basic

/-!
# The ordered array of `utils/ordered_array.c`

The used part of the array is a list, so that `size` is its length. The comparator is
passed with each call, since the one of the kernel heap depends on the memory.
-/

namespace LuckOS.OrderedArray

universe u

variable {α : Type u}

/-- The first loop of `ordered_array_insert`: skip the elements that are not greater. -/
def insertIterator (comparator : α → α → Int) (item : α) : List α → Nat
  | [] => 0
  | x :: xs => if comparator x item ≤ 0 then insertIterator comparator item xs + 1 else 0

/-- `ordered_array_insert`: the result and the new array. -/
def insert (comparator : α → α → Int) (maxSize : Nat) (array : List α) (item : α) : Nat × List α :=
  if maxSize ≤ array.length then (0, array)
  else (1, array.insertIdx (insertIterator comparator item array) item)

/-- `ordered_array_get`. -/
def get [Zero α] (array : List α) (i : Nat) : α := array.getD i 0

/-- `ordered_array_remove`. -/
def remove (array : List α) (i : Nat) : Nat × List α :=
  if array.length ≤ i then (0, array) else (1, array.eraseIdx i)

/-- `ordered_array_find_element`. -/
def findElement [BEq α] (array : List α) (ele : α) : Nat := array.idxOf ele

/-- `ordered_array_remove_element`. -/
def removeElement [BEq α] (array : List α) (ele : α) : Nat × List α :=
  let index := findElement array ele
  if index = array.length then (0, array) else (1, array.eraseIdx index)

theorem insertIdx_cons (comparator : α → α → Int) (item x : α) (xs : List α) :
    (x :: xs).insertIdx (insertIterator comparator item (x :: xs)) item =
      if comparator x item ≤ 0 then x :: xs.insertIdx (insertIterator comparator item xs) item else item :: x :: xs := by
  rw [insertIterator]
  split_ifs <;> rfl

/-- The inserted array has the new element and the old ones. -/
theorem insertIdx_perm (comparator : α → α → Int) (item : α) (array : List α) :
    (array.insertIdx (insertIterator comparator item array) item).Perm (item :: array) := by
  induction array with
  | nil => exact .refl _
  | cons x xs ih =>
    rw [insertIdx_cons]
    split_ifs
    · exact (ih.cons x).trans (.swap item x xs)
    · exact .refl _

theorem mem_insertIdx (comparator : α → α → Int) {item : α} {array : List α} {y : α} :
    y ∈ array.insertIdx (insertIterator comparator item array) item ↔ y = item ∨ y ∈ array := by
  rw [(insertIdx_perm comparator item array).mem_iff, List.mem_cons]

/-- Insertion keeps the order of a list, if the elements that are skipped belong in front of the new one and
the others behind it. -/
theorem insertIdx_pairwise {comparator : α → α → Int} {r : α → α → Prop} {item : α} {array : List α}
    (htrans : ∀ {x y z}, r x y → r y z → r x z)
    (hskip : ∀ x ∈ array, comparator x item ≤ 0 → r x item)
    (hstop : ∀ x ∈ array, ¬ comparator x item ≤ 0 → r item x) (h : array.Pairwise r) :
    (array.insertIdx (insertIterator comparator item array) item).Pairwise r := by
  induction array with
  | nil => exact List.pairwise_singleton _ _
  | cons x xs ih =>
    have hx : x ∈ x :: xs := List.mem_cons_self ..
    obtain ⟨hfirst, hrest⟩ := List.pairwise_cons.mp h
    rw [insertIdx_cons]
    split_ifs with hle
    · refine .cons (fun y hy => ?_) (ih (fun y hy => hskip y (List.mem_cons_of_mem _ hy))
        (fun y hy => hstop y (List.mem_cons_of_mem _ hy)) hrest)
      rcases (mem_insertIdx comparator).mp hy with rfl | hy
      · exact hskip x hx hle
      · exact hfirst y hy
    · have hitem := hstop x hx hle
      refine .cons (fun y hy => ?_) h
      rcases List.mem_cons.mp hy with rfl | hy
      · exact hitem
      · exact htrans hitem (hfirst y hy)

/-- Insertion keeps a list in non-decreasing order of a key. -/
theorem insertIdx_sorted {comparator : α → α → Int} {k : α → Nat} {item : α} {array : List α}
    (hcomparator : ∀ x ∈ array, comparator x item ≤ 0 ↔ k x ≤ k item)
    (h : array.Pairwise (fun x y => k x ≤ k y)) :
    (array.insertIdx (insertIterator comparator item array) item).Pairwise (fun x y => k x ≤ k y) :=
  insertIdx_pairwise Nat.le_trans (fun x hx => (hcomparator x hx).mp)
    (fun x hx hgt => Nat.le_of_not_le (mt (hcomparator x hx).mpr hgt)) h

/-- A mapped list is inserted to as the list itself. -/
theorem insertIdx_map {β : Type u} (f : β → α) {comparator : α → α → Int} (item : β) (array : List β) :
    (array.map f).insertIdx (insertIterator comparator (f item) (array.map f)) (f item) =
      (array.insertIdx (insertIterator (fun x y => comparator (f x) (f y)) item array) item).map f := by
  induction array with
  | nil => rfl
  | cons x xs ih =>
    rw [List.map_cons, insertIdx_cons, insertIdx_cons, ih]
    split_ifs <;> rfl

section Elements

variable [BEq α] [LawfulBEq α]

theorem findElement_lt {array : List α} {ele : α} (h : ele ∈ array) : findElement array ele < array.length :=
  List.idxOf_lt_length_of_mem h

/-- A present element is removed once. -/
theorem removeElement_of_mem {array : List α} {ele : α} (h : ele ∈ array) :
    removeElement array ele = (1, array.erase ele) := by
  rw [removeElement, if_neg (Nat.ne_of_lt (findElement_lt h)), findElement, List.erase_eq_eraseIdx_of_idxOf rfl]

end Elements

end LuckOS.OrderedArray
