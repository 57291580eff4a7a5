import Mathlib.Algebra.Group.Nat.Defs
import Mathlib.Data.List.Basic
import Mathlib.Tactic.Common

/-!
# The bitmap of `utils/bitmap.c`

A bitmap is an array of 32-bit words. Its represented set is read back with
`testBit`. The two nested loops of the free-bit search stop at the first word that
is not full and at the first clear bit of it.
-/

namespace LuckOS

abbrev Word := BitVec 32

/-- `bitmap_t`. The words behind `array_size`, if any, are not part of the bitmap. -/
structure Bitmap where
  array : List Word
  allocArray : Bool
  arraySize : Nat
  totalBits : Nat
  size_le : arraySize ≤ array.length

namespace Bitmap

def indexFromBit (a : Nat) : Nat := a / 32

def offsetFromBit (a : Nat) : Nat := a % 32

/-- `0x1 << off` on 32 bits. -/
def mask (off : Nat) : Word := 1#32 <<< off

/-- The loops that set the first `n` words of an array to zero. -/
def clearWords (n : Nat) (array : List Word) : List Word :=
  List.replicate n 0 ++ array.drop n

theorem le_length_clearWords (n : Nat) (array : List Word) : n ≤ (clearWords n array).length := by
  simp [clearWords]

/-- `bitmap_init`. Without an array the words come from `kmalloc`. -/
def init (array : Option (List Word)) (totalBits : Nat) : Bitmap where
  array := clearWords (totalBits / 32) (array.getD [])
  allocArray := array.isNone
  arraySize := totalBits / 32
  totalBits := totalBits
  size_le := le_length_clearWords _ _

/-- `bitmap_create`. -/
def create (array : Option (List Word)) (totalBits : Nat) : Bitmap := init array totalBits

/-- Replace one word; a store outside of the array is not a store to the bitmap. -/
def modifyWord (b : Bitmap) (idx : Nat) (f : Word → Word) : Bitmap where
  array := b.array.modify idx f
  allocArray := b.allocArray
  arraySize := b.arraySize
  totalBits := b.totalBits
  size_le := by simpa using b.size_le

def word (b : Bitmap) (idx : Nat) : Word := b.array.getD idx 0

/-- `bitmap_set_bit`. -/
def setBit (b : Bitmap) (bit : Nat) : Bitmap :=
  b.modifyWord (indexFromBit bit) (· ||| mask (offsetFromBit bit))

/-- `bitmap_clear_bit`. -/
def clearBit (b : Bitmap) (bit : Nat) : Bitmap :=
  b.modifyWord (indexFromBit bit) (· &&& ~~~mask (offsetFromBit bit))

/-- `bitmap_test_bit`. -/
def testBit (b : Bitmap) (bit : Nat) : Bool :=
  (b.word (indexFromBit bit) &&& mask (offsetFromBit bit)) != 0

/-- The inner loop of `bitmap_find_first_free`. -/
def findInWord (ele : Word) : Option Nat :=
  (List.range 32).find? (fun j => (ele &&& mask j) == 0)

/-- `bitmap_find_first_free`. -/
def findFirstFree (b : Bitmap) : Option Nat :=
  (List.range b.arraySize).findSome? (fun i =>
    let ele := b.word i
    if ele ≠ 0xFFFFFFFF then (findInWord ele).map (i * 32 + ·) else none)

/-- `bitmap_allocate_first_free`. -/
def allocateFirstFree (b : Bitmap) : Option (Nat × Bitmap) :=
  (b.findFirstFree).map (fun bit => (bit, b.setBit bit))

/-- `bitmap_clear`. -/
def clear (b : Bitmap) : Bitmap where
  array := clearWords b.arraySize b.array
  allocArray := b.allocArray
  arraySize := b.arraySize
  totalBits := b.totalBits
  size_le := le_length_clearWords _ _

/-- `bitmap_expand`: the first words of the new array are those of the old one. -/
def expand (b : Bitmap) (expandSize : Nat) : Bitmap where
  array := b.array.take b.arraySize ++ List.replicate (expandSize / 32 - b.arraySize) 0
  allocArray := true
  arraySize := expandSize / 32
  totalBits := expandSize
  size_le := by
    have h := b.size_le
    simp only [List.length_append, List.length_take, List.length_replicate]
    omega

theorem and_mask_eq_zero (ele : Word) {j : Nat} (hj : j < 32) :
    ele &&& mask j = 0 ↔ ele.getLsbD j = false := by
  constructor
  · intro h
    have hb := congrArg (fun v : Word => v.getLsbD j) h
    simpa [mask, hj] using hb
  · intro h
    apply BitVec.eq_of_getLsbD_eq
    intro i hi
    by_cases hij : i = j
    · simp [hij, h]
    · have hne : ¬ (i - j = 0 ∧ j ≤ i) := by omega
      simp only [mask, BitVec.getLsbD_and, BitVec.getLsbD_shiftLeft, BitVec.getLsbD_one]
      grind

theorem testBit_eq (b : Bitmap) (bit : Nat) :
    b.testBit bit = (b.word (bit / 32)).getLsbD (bit % 32) := by
  have h := and_mask_eq_zero (b.word (bit / 32)) (Nat.mod_lt bit (by decide : 0 < 32))
  cases hb : (b.word (bit / 32)).getLsbD (bit % 32) with
  | false => simp [testBit, indexFromBit, offsetFromBit, h.mpr hb]
  | true =>
    have hne : ¬ (b.word (bit / 32) &&& mask (bit % 32) = 0) := fun h0 => by simp [h.mp h0] at hb
    simpa [testBit, indexFromBit, offsetFromBit] using hne

/-- The number of words that are searched and the number of words of the array. -/
def sizes (b : Bitmap) : Nat × Nat := (b.arraySize, b.array.length)

@[simp] theorem sizes_setBit (b : Bitmap) (bit : Nat) : (b.setBit bit).sizes = b.sizes := by
  simp [sizes, setBit, modifyWord]

@[simp] theorem sizes_clearBit (b : Bitmap) (bit : Nat) : (b.clearBit bit).sizes = b.sizes := by
  simp [sizes, clearBit, modifyWord]

/-- No bit is set behind the array. -/
theorem lt_of_testBit {b : Bitmap} {bit : Nat} (h : b.testBit bit = true) : bit < 32 * b.array.length := by
  by_contra hge
  have hword : b.word (bit / 32) = 0 := by
    rw [word, List.getD_eq_getElem?_getD, List.getElem?_eq_none (by omega)]
    rfl
  simp [testBit_eq, hword] at h

theorem word_modifyWord (b : Bitmap) (idx i : Nat) (f : Word → Word) :
    (b.modifyWord idx f).word i = if i = idx ∧ i < b.array.length then f (b.word i) else b.word i := by
  simp only [word, modifyWord, List.getD_eq_getElem?_getD, List.getElem?_modify]
  by_cases hi : idx = i
  · subst hi
    by_cases hl : idx < b.array.length
    · simp [hl]
    · simp [hl]
  · have hi' : i ≠ idx := fun h => hi h.symm
    simp [hi, hi']

/-- A store to a word of the array changes the bits of this word only. -/
theorem testBit_modifyWord (b : Bitmap) (bit : Nat) (f : Word → Word) (i : Nat) :
    (b.modifyWord (bit / 32) f).testBit i =
      if i / 32 = bit / 32 ∧ i / 32 < b.array.length then (f (b.word (i / 32))).getLsbD (i % 32)
      else b.testBit i := by
  rw [testBit_eq, testBit_eq, word_modifyWord]
  split_ifs <;> rfl

theorem getLsbD_mask {i j : Nat} (hi : i < 32) : (mask j).getLsbD i = decide (i = j) := by
  simp only [mask, BitVec.getLsbD_shiftLeft, BitVec.getLsbD_one]
  grind

theorem testBit_setBit (b : Bitmap) {bit : Nat} (h : bit / 32 < b.array.length) (i : Nat) :
    (b.setBit bit).testBit i = (decide (i = bit) || b.testBit i) := by
  have hi : i % 32 < 32 := Nat.mod_lt _ (by decide)
  rw [setBit, indexFromBit, testBit_modifyWord]
  split_ifs with hw
  · rw [BitVec.getLsbD_or, getLsbD_mask hi, testBit_eq, offsetFromBit, Bool.or_comm]
    have he : i % 32 = bit % 32 ↔ i = bit := by omega
    simp [he]
  · have hne : i ≠ bit := by
      rintro rfl
      exact hw ⟨rfl, h⟩
    simp [hne]

theorem testBit_clearBit (b : Bitmap) (bit i : Nat) :
    (b.clearBit bit).testBit i = (!decide (i = bit) && b.testBit i) := by
  have hi : i % 32 < 32 := Nat.mod_lt _ (by decide)
  rw [clearBit, indexFromBit, testBit_modifyWord]
  split_ifs with hw
  · rw [BitVec.getLsbD_and, BitVec.getLsbD_not, getLsbD_mask hi, testBit_eq, offsetFromBit, Bool.and_comm]
    have he : i % 32 = bit % 32 ↔ i = bit := by omega
    simp [he, hi]
  · by_cases hne : i = bit
    · subst hne
      have hl : b.array.length ≤ i / 32 := by
        by_contra hlt
        exact hw ⟨rfl, by omega⟩
      simp [testBit_eq, word, List.getD_eq_getElem?_getD, hl]
    · simp [hne]

theorem word_clearWords (n i : Nat) (array : List Word) (hi : i < n) :
    (clearWords n array).getD i 0 = 0 := by
  simp [clearWords, List.getD_eq_getElem?_getD, List.getElem?_append_left, hi]

theorem testBit_init (array : Option (List Word)) (totalBits : Nat) {i : Nat} (hi : i / 32 < totalBits / 32) :
    (init array totalBits).testBit i = false := by
  rw [testBit_eq, word, init, word_clearWords _ _ _ hi]
  simp

@[simp] theorem sizes_clear (b : Bitmap) : b.clear.sizes = b.sizes := by
  have hsize := b.size_le
  simp [sizes, clear, clearWords]
  omega

theorem testBit_clear_of_lt {b : Bitmap} {i : Nat} (h : i < 32 * b.arraySize) :
    b.clear.testBit i = false := by
  have hword : b.clear.word (i / 32) = 0 := word_clearWords _ _ _ (by omega)
  rw [testBit_eq, hword]
  exact BitVec.getLsbD_zero

theorem testBit_clear {b : Bitmap} (h : b.array.length ≤ b.arraySize) (i : Nat) : b.clear.testBit i = false := by
  by_contra htrue
  rw [Bool.not_eq_false] at htrue
  have hlt := lt_of_testBit htrue
  have hlength : b.clear.array.length = b.array.length := (Prod.mk.inj b.sizes_clear).2
  exact Bool.false_ne_true ((testBit_clear_of_lt (by omega)).symm.trans htrue)

/-- The words behind the old ones are zero. -/
theorem testBit_expand_eq (b : Bitmap) (expandSize i : Nat) :
    (b.expand expandSize).testBit i = (decide (i < 32 * b.arraySize) && b.testBit i) := by
  have hsize := b.size_le
  have hlength : (b.array.take b.arraySize).length = b.arraySize := by
    rw [List.length_take]
    omega
  rw [testBit_eq, testBit_eq]
  simp only [expand, word, List.getD_eq_getElem?_getD]
  by_cases hi : i < 32 * b.arraySize
  · rw [List.getElem?_append_left (by omega), List.getElem?_take_of_lt (by omega), decide_eq_true hi,
      Bool.true_and]
  · rw [List.getElem?_append_right (by omega), decide_eq_false hi, Bool.false_and,
      List.getElem?_replicate]
    split_ifs
    · exact BitVec.getLsbD_zero
    · exact BitVec.getLsbD_zero

theorem testBit_expand {b : Bitmap} (h : b.array.length ≤ b.arraySize) (expandSize i : Nat) :
    (b.expand expandSize).testBit i = b.testBit i := by
  rw [testBit_expand_eq]
  cases hi : b.testBit i with
  | false => exact Bool.and_false _
  | true =>
    have hlt := lt_of_testBit hi
    rw [decide_eq_true (by omega), Bool.true_and]

theorem findInWord_eq_some {ele : Word} {j : Nat} (h : findInWord ele = some j) :
    j < 32 ∧ ele.getLsbD j = false ∧ ∀ k, k < j → ele.getLsbD k = true := by
  rw [findInWord, List.find?_range_eq_some] at h
  obtain ⟨hj, hmem, hlt⟩ := h
  have hj32 : j < 32 := List.mem_range.mp hmem
  refine ⟨hj32, (and_mask_eq_zero ele hj32).mp (by simpa using hj), ?_⟩
  intro k hk
  have hk' := hlt k hk
  by_contra hne
  have h0 := (and_mask_eq_zero ele (Nat.lt_trans hk hj32)).mpr (by simpa using hne)
  simp [h0] at hk'

theorem findInWord_eq_none {ele : Word} (h : findInWord ele = none) : ele = 0xFFFFFFFF := by
  rw [findInWord, List.find?_eq_none] at h
  apply BitVec.eq_of_getLsbD_eq
  intro i hi
  have hi' := h i (List.mem_range.mpr hi)
  have hset : ele.getLsbD i = true := by
    by_contra hne
    have h0 := (and_mask_eq_zero ele hi).mpr (by simpa using hne)
    simp [h0] at hi'
  have hones : (0xFFFFFFFF : Word) = BitVec.allOnes 32 := by decide
  rw [hset, hones, BitVec.getLsbD_allOnes]
  simp [hi]

theorem getLsbD_of_full {i : Nat} (hi : i < 32) : (0xFFFFFFFF : Word).getLsbD i = true := by
  have hones : (0xFFFFFFFF : Word) = BitVec.allOnes 32 := by decide
  rw [hones, BitVec.getLsbD_allOnes]
  simp [hi]

/-- One turn of the outer loop of `bitmap_find_first_free`. -/
def scanWord (b : Bitmap) (i : Nat) : Option Nat :=
  if b.word i ≠ 0xFFFFFFFF then (findInWord (b.word i)).map (i * 32 + ·) else none

theorem scanWord_eq_none {b : Bitmap} {i : Nat} (h : b.scanWord i = none) : b.word i = 0xFFFFFFFF := by
  by_contra hne
  rw [scanWord, if_pos hne, Option.map_eq_none_iff] at h
  exact hne (findInWord_eq_none h)

theorem testBit_of_full {b : Bitmap} {n : Nat} (h : b.word (n / 32) = 0xFFFFFFFF) : b.testBit n = true := by
  rw [testBit_eq, h]
  exact getLsbD_of_full (Nat.mod_lt _ (by decide))

theorem findFirstFree_eq (b : Bitmap) : b.findFirstFree = (List.range b.arraySize).findSome? b.scanWord := rfl

/-- The search returns the least clear bit. -/
theorem findFirstFree_eq_some {b : Bitmap} {n : Nat} (h : b.findFirstFree = some n) :
    n < 32 * b.arraySize ∧ b.testBit n = false ∧ ∀ m, m < n → b.testBit m = true := by
  rw [findFirstFree_eq, List.findSome?_eq_some_iff] at h
  obtain ⟨pre, i, post, hrange, hi, hpre⟩ := h
  have hlen : pre.length = i := by
    have hget := congrArg (fun l => l[pre.length]?) hrange
    simpa using (List.getElem?_eq_some_iff.mp (hget.trans (by simp))).2
  have hsize : i < b.arraySize := by
    have hl := congrArg List.length hrange
    simp only [List.length_range, List.length_append, List.length_cons] at hl
    omega
  have hfull : ∀ k, k < i → b.word k = 0xFFFFFFFF := by
    intro k hk
    apply scanWord_eq_none
    apply hpre
    have hget := congrArg (fun l => l[k]?) hrange
    have hk' : k < b.arraySize := by omega
    simp only [List.getElem?_range hk', List.getElem?_append_left (hlen ▸ hk)] at hget
    exact List.mem_of_getElem? hget.symm
  have hne : b.word i ≠ 0xFFFFFFFF := by
    intro he
    simp [scanWord, he] at hi
  rw [scanWord, if_pos hne, Option.map_eq_some_iff] at hi
  obtain ⟨j, hj, rfl⟩ := hi
  obtain ⟨hj32, hfree, hbelow⟩ := findInWord_eq_some hj
  have hdiv : (i * 32 + j) / 32 = i := by omega
  have hmod : (i * 32 + j) % 32 = j := by omega
  refine ⟨by omega, by rw [testBit_eq, hdiv, hmod, hfree], ?_⟩
  intro m hm
  rcases Nat.lt_or_ge (m / 32) i with hlt | hge
  · exact testBit_of_full (hfull _ hlt)
  · have hmi : m / 32 = i := by omega
    rw [testBit_eq, hmi]
    exact hbelow _ (by omega)

/-- The search fails only on a full bitmap. -/
theorem findFirstFree_eq_none {b : Bitmap} (h : b.findFirstFree = none) {n : Nat}
    (hn : n < 32 * b.arraySize) : b.testBit n = true := by
  rw [findFirstFree_eq, List.findSome?_eq_none_iff] at h
  apply testBit_of_full
  apply scanWord_eq_none
  exact h _ (List.mem_range.mpr (by omega))

theorem allocateFirstFree_eq_some {b b' : Bitmap} {n : Nat} (h : b.allocateFirstFree = some (n, b')) :
    b.findFirstFree = some n ∧ b' = b.setBit n := by
  obtain ⟨m, hm, he⟩ := Option.map_eq_some_iff.mp h
  cases he
  exact ⟨hm, rfl⟩

theorem allocateFirstFree_eq_none {b : Bitmap} (h : b.allocateFirstFree = none) : b.findFirstFree = none :=
  Option.map_eq_none_iff.mp h

/-- A successful allocation adds the least absent bit and changes no other bit. -/
theorem testBit_allocateFirstFree {b b' : Bitmap} {n : Nat} (h : b.allocateFirstFree = some (n, b')) (i : Nat) :
    b'.testBit i = (decide (i = n) || b.testBit i) := by
  obtain ⟨hn, rfl⟩ := allocateFirstFree_eq_some h
  have hlt := (findFirstFree_eq_some hn).1
  have hsize := b.size_le
  exact testBit_setBit b (by omega) i

end Bitmap

end LuckOS
