import LuckOS.Bitmap
import Mathlib.Data.Finset.Card
import Mathlib.Order.Interval.Finset.Nat

/-!
# Free bits below a bound

The search takes the first free bit. While bits below a bound are free, it takes one of these.
-/

namespace LuckOS.Bitmap

variable {b : Bitmap} {n f : Nat}

/-- The number of free bits below `n`. -/
def freeBelow (b : Bitmap) (n : Nat) : Nat := ((Finset.range n).filter fun f => b.testBit f = false).card

theorem exists_free (h : 0 < b.freeBelow n) : ∃ f < n, b.testBit f = false := by
  obtain ⟨f, hf⟩ := Finset.card_pos.mp h
  rw [Finset.mem_filter, Finset.mem_range] at hf
  exact ⟨f, hf.1, hf.2⟩

/-- A bit below the bound is taken. -/
theorem freeBelow_taken {b' : Bitmap} (hlt : f < n) (hfree : b.testBit f = false)
    (htest : ∀ g, b'.testBit g = (decide (g = f) || b.testBit g)) : b'.freeBelow n + 1 = b.freeBelow n := by
  have hmem : f ∈ (Finset.range n).filter fun g => b.testBit g = false :=
    Finset.mem_filter.mpr ⟨Finset.mem_range.mpr hlt, hfree⟩
  have hset : ((Finset.range n).filter fun g => b'.testBit g = false) =
      ((Finset.range n).filter fun g => b.testBit g = false).erase f := by
    ext g
    rw [Finset.mem_erase, Finset.mem_filter, Finset.mem_filter, htest, Bool.or_eq_false_iff, decide_eq_false_iff_not]
    exact and_left_comm
  rw [freeBelow, freeBelow, hset, Finset.card_erase_of_mem hmem]
  have := Finset.card_pos.mpr ⟨f, hmem⟩
  omega

/-- The first free bit is below the bound. -/
theorem allocateFirstFree_below (hsize : n ≤ 32 * b.arraySize) (h : 0 < b.freeBelow n) :
    ∃ f < n, b.testBit f = false ∧ b.allocateFirstFree = some (f, b.setBit f) ∧
    (∀ g, (b.setBit f).testBit g = (decide (g = f) || b.testBit g)) ∧ (b.setBit f).freeBelow n + 1 = b.freeBelow n := by
  obtain ⟨g, hg, hfree⟩ := exists_free h
  cases ha : b.allocateFirstFree with
  | none =>
    have hused := findFirstFree_eq_none (allocateFirstFree_eq_none ha) (n := g) (by omega)
    rw [hfree] at hused
    cases hused
  | some r =>
    obtain ⟨f, b'⟩ := r
    have htest := testBit_allocateFirstFree ha
    obtain ⟨hfind, rfl⟩ := allocateFirstFree_eq_some ha
    obtain ⟨-, hf, hleast⟩ := findFirstFree_eq_some hfind
    have hlt : f < n := by
      by_contra hle
      rw [hleast g (by omega)] at hfree
      cases hfree
    exact ⟨f, hlt, hf, rfl, htest, freeBelow_taken hlt hf htest⟩

/-- The first free bit is taken. -/
theorem allocateFirstFree_first (hsize : f < 32 * b.arraySize) (hused : ∀ g < f, b.testBit g = true)
    (hfree : b.testBit f = false) : b.allocateFirstFree = some (f, b.setBit f) := by
  cases ha : b.allocateFirstFree with
  | none =>
    have hall := findFirstFree_eq_none (allocateFirstFree_eq_none ha) hsize
    rw [hfree] at hall
    cases hall
  | some r =>
    obtain ⟨g, b'⟩ := r
    obtain ⟨hfind, rfl⟩ := allocateFirstFree_eq_some ha
    obtain ⟨-, hg, hleast⟩ := findFirstFree_eq_some hfind
    rcases Nat.lt_trichotomy g f with hlt | rfl | hgt
    · rw [hused g hlt] at hg
      cases hg
    · rfl
    · rw [hleast f hgt] at hfree
      cases hfree

/-- To clear a free bit changes nothing. -/
theorem clearBit_of_free (h : b.testBit f = false) : b.clearBit f = b := by
  rw [testBit_eq] at h
  have hword : b.word (f / 32) &&& ~~~mask (f % 32) = b.word (f / 32) := by
    apply BitVec.eq_of_getLsbD_eq
    intro i hi
    rw [BitVec.getLsbD_and, BitVec.getLsbD_not, getLsbD_mask hi]
    by_cases heq : i = f % 32
    · rw [heq, h, Bool.false_and]
    · simp [heq, hi]
  have harray : b.array.modify (f / 32) (· &&& ~~~mask (f % 32)) = b.array := by
    apply List.ext_getElem? fun i => ?_
    rw [List.getElem?_modify]
    by_cases hi : f / 32 = i
    · subst hi
      rw [word, List.getD_eq_getElem?_getD] at hword
      cases hget : b.array[f / 32]? with
      | none => rfl
      | some w =>
        rw [hget, Option.getD_some] at hword
        simp [hword]
    · simp [hi]
  rw [clearBit, modifyWord, indexFromBit, offsetFromBit]
  simp only [harray]

end LuckOS.Bitmap
