import LuckOS.Bitmap
import LuckOS.Runs
import Mathlib.Data.Finset.Erase
import Mathlib.Data.Finset.Insert

/-!
# Bitmaps against finite sets

A bitmap whose size is a multiple of 32 stands for a finite set of bits below a bound. Each operation
changes the set as the operation on sets does, and it returns what the set determines: a search returns the
least bit below the bound that is absent, if there is one.
-/

namespace LuckOS

/-- A finite set of bits below a bound. -/
structure BitSet where
  totalBits : Nat
  members : Finset Nat
  below : ∀ i ∈ members, i < totalBits

namespace BitSet

def empty (totalBits : Nat) : BitSet := ⟨totalBits, ∅, nofun⟩

def insert (x : BitSet) (bit : Nat) (h : bit < x.totalBits) : BitSet where
  totalBits := x.totalBits
  members := Insert.insert bit x.members
  below := by
    intro i hi
    rcases Finset.mem_insert.mp hi with rfl | hi
    · exact h
    · exact x.below i hi

def erase (x : BitSet) (bit : Nat) : BitSet :=
  ⟨x.totalBits, x.members.erase bit, fun i hi => x.below i (Finset.mem_of_mem_erase hi)⟩

/-- The bound grows, and the bits that are added are absent. -/
def expand (x : BitSet) (expandSize : Nat) (h : x.totalBits < expandSize) : BitSet :=
  ⟨expandSize, x.members, fun i hi => Nat.lt_trans (x.below i hi) h⟩

/-- The least bit below the bound that is absent. -/
structure IsLeastAbsent (x : BitSet) (bit : Nat) : Prop where
  lt : bit < x.totalBits
  absent : bit ∉ x.members
  least : ∀ i, i < bit → i ∈ x.members

/-- No bit below the bound is absent. -/
def Full (x : BitSet) : Prop := ∀ i, i < x.totalBits → i ∈ x.members

end BitSet

namespace Bitmap

/-- The calls on a bitmap. -/
inductive Op where
  | setBit (bit : Nat)
  | clearBit (bit : Nat)
  | testBit (bit : Nat)
  | findFirstFree
  | allocateFirstFree
  | clear
  | expand (expandSize : Nat)

/-- What a call returns: nothing, a truth value, or whether there is a bit together with the bit. -/
inductive Result where
  | done
  | truth (b : Bool)
  | found (bit : Option Nat)

def perform (b : Bitmap) : Op → Result × Bitmap
  | .setBit bit => (.done, b.setBit bit)
  | .clearBit bit => (.done, b.clearBit bit)
  | .testBit bit => (.truth (b.testBit bit), b)
  | .findFirstFree => (.found b.findFirstFree, b)
  | .allocateFirstFree =>
    match b.allocateFirstFree with
    | some (bit, b) => (.found (some bit), b)
    | none => (.found none, b)
  | .clear => (.done, b.clear)
  | .expand expandSize => (.truth true, b.expand expandSize)

/-- The bits that are named lie below `total_bits`, and the size grows by whole words. -/
def Legal (b : Bitmap) : Op → Prop
  | .setBit bit | .clearBit bit | .testBit bit => bit < b.totalBits
  | .expand expandSize => b.totalBits < expandSize ∧ 32 ∣ expandSize
  | _ => True

/-- A legal call with its result. -/
def Calls (b : Bitmap) (call : Op × Result) (b' : Bitmap) : Prop :=
  b.Legal call.1 ∧ b.perform call.1 = (call.2, b')

/-- The calls on a set of bits. -/
inductive Means : BitSet → Op × Result → BitSet → Prop
  | setBit {x bit} (h : bit < x.totalBits) : Means x (.setBit bit, .done) (x.insert bit h)
  | clearBit {x bit} : Means x (.clearBit bit, .done) (x.erase bit)
  | testBit {x bit} : Means x (.testBit bit, .truth (bit ∈ x.members)) x
  | found {x bit} (h : x.IsLeastAbsent bit) : Means x (.findFirstFree, .found (some bit)) x
  | notFound {x} (h : x.Full) : Means x (.findFirstFree, .found none) x
  | allocated {x bit} (h : x.IsLeastAbsent bit) :
      Means x (.allocateFirstFree, .found (some bit)) (x.insert bit h.lt)
  | notAllocated {x} (h : x.Full) : Means x (.allocateFirstFree, .found none) x
  | clear {x} : Means x (.clear, .done) (.empty x.totalBits)
  | expand {x expandSize} (h : x.totalBits < expandSize) :
      Means x (.expand expandSize, .truth true) (x.expand expandSize h)

/-- The bits of the array up to `total_bits` are those of the set. -/
structure Represents (b : Bitmap) (x : BitSet) : Prop where
  totalBits : b.totalBits = x.totalBits
  words : 32 * b.arraySize = b.totalBits
  bits : ∀ i, i < x.totalBits → b.testBit i = decide (i ∈ x.members)

variable {b b' : Bitmap} {x : BitSet} {bit expandSize i : Nat}

theorem represents_init (array : Option (List Word)) {totalBits : Nat} (h : 32 ∣ totalBits) :
    Represents (init array totalBits) (.empty totalBits) where
  totalBits := rfl
  words := Nat.mul_div_cancel' h
  bits _ hi := testBit_init array totalBits (Nat.div_lt_div_of_lt_of_dvd h hi)

namespace Represents

theorem setBit (h : Represents b x) (hbit : bit < x.totalBits) :
    Represents (b.setBit bit) (x.insert bit hbit) := by
  have hwords := h.words
  have htotal := h.totalBits
  have hsize := b.size_le
  refine ⟨htotal, hwords, fun i hi => ?_⟩
  rw [testBit_setBit b (by omega), h.bits i hi, BitSet.insert, Bool.eq_iff_iff]
  simp only [Bool.or_eq_true, decide_eq_true_eq, Finset.mem_insert]

theorem clearBit (h : Represents b x) (bit : Nat) : Represents (b.clearBit bit) (x.erase bit) := by
  refine ⟨h.totalBits, h.words, fun i hi => ?_⟩
  rw [testBit_clearBit, h.bits i hi, BitSet.erase, Bool.eq_iff_iff]
  simp only [Bool.and_eq_true, Bool.not_eq_true', decide_eq_false_iff_not, decide_eq_true_eq,
    Finset.mem_erase, ne_eq]

theorem clear (h : Represents b x) : Represents b.clear (.empty x.totalBits) := by
  have hwords := h.words
  have htotal := h.totalBits
  refine ⟨htotal, hwords, fun i hi => ?_⟩
  exact testBit_clear_of_lt (by rw [hwords, htotal]; exact hi)

theorem expand (h : Represents b x) (hsize : x.totalBits < expandSize) (hdvd : 32 ∣ expandSize) :
    Represents (b.expand expandSize) (x.expand expandSize hsize) := by
  have hwords := h.words
  have htotal := h.totalBits
  refine ⟨rfl, Nat.mul_div_cancel' hdvd, fun i _ => ?_⟩
  rw [testBit_expand_eq, hwords, htotal]
  by_cases hi : i < x.totalBits
  · rw [decide_eq_true hi, Bool.true_and]
    exact h.bits i hi
  · have habsent : i ∉ x.members := fun hmem => hi (x.below i hmem)
    rw [decide_eq_false hi, Bool.false_and]
    exact (decide_eq_false habsent).symm

/-- The search returns the least absent bit. -/
theorem isLeastAbsent (h : Represents b x) (hfind : b.findFirstFree = some bit) :
    x.IsLeastAbsent bit := by
  obtain ⟨hlt, hclear, hset⟩ := findFirstFree_eq_some hfind
  rw [h.words, h.totalBits] at hlt
  refine ⟨hlt, ?_, fun i hi => ?_⟩
  · rw [h.bits bit hlt] at hclear
    exact of_decide_eq_false hclear
  · have hmem := hset i hi
    rw [h.bits i (Nat.lt_trans hi hlt)] at hmem
    exact of_decide_eq_true hmem

theorem full (h : Represents b x) (hfind : b.findFirstFree = none) : x.Full := by
  intro i hi
  have hset := findFirstFree_eq_none hfind (n := i) (by rw [h.words, h.totalBits]; exact hi)
  rw [h.bits i hi] at hset
  exact of_decide_eq_true hset

/-- A call returns what the set determines, and the set changes as the call means. -/
theorem calls (h : Represents b x) {call : Op × Result} (hcalls : Calls b call b') :
    ∃ x', Means x call x' ∧ Represents b' x' := by
  obtain ⟨op, result⟩ := call
  obtain ⟨hlegal, hperform⟩ := hcalls
  have htotal := h.totalBits
  cases op with
  | setBit bit =>
    obtain ⟨rfl, rfl⟩ := Prod.mk.inj hperform
    have hbit : bit < x.totalBits := htotal ▸ hlegal
    exact ⟨_, .setBit hbit, h.setBit hbit⟩
  | clearBit bit =>
    obtain ⟨rfl, rfl⟩ := Prod.mk.inj hperform
    exact ⟨_, .clearBit, h.clearBit bit⟩
  | testBit bit =>
    obtain ⟨rfl, rfl⟩ := Prod.mk.inj hperform
    have hbit : bit < x.totalBits := htotal ▸ hlegal
    refine ⟨x, ?_, h⟩
    rw [h.bits bit hbit]
    exact .testBit
  | findFirstFree =>
    obtain ⟨rfl, rfl⟩ := Prod.mk.inj hperform
    cases hfind : b.findFirstFree with
    | some bit => exact ⟨x, .found (h.isLeastAbsent hfind), h⟩
    | none => exact ⟨x, .notFound (h.full hfind), h⟩
  | allocateFirstFree =>
    simp only [perform] at hperform
    cases halloc : b.allocateFirstFree with
    | some found =>
      obtain ⟨bit, b''⟩ := found
      obtain ⟨hfind, rfl⟩ := allocateFirstFree_eq_some halloc
      rw [halloc] at hperform
      obtain ⟨rfl, rfl⟩ := Prod.mk.inj hperform
      have hleast := h.isLeastAbsent hfind
      exact ⟨_, .allocated hleast, h.setBit hleast.lt⟩
    | none =>
      rw [halloc] at hperform
      obtain ⟨rfl, rfl⟩ := Prod.mk.inj hperform
      exact ⟨x, .notAllocated (h.full (allocateFirstFree_eq_none halloc)), h⟩
  | clear =>
    obtain ⟨rfl, rfl⟩ := Prod.mk.inj hperform
    exact ⟨_, .clear, h.clear⟩
  | expand expandSize =>
    obtain ⟨rfl, rfl⟩ := Prod.mk.inj hperform
    have hsize : x.totalBits < expandSize := htotal ▸ hlegal.1
    exact ⟨_, .expand hsize, h.expand hsize hlegal.2⟩

end Represents

/-- Along every run of legal calls the bitmap stands for the set that the calls mean, and the results are
those of the set. -/
theorem bitmap_refines_set (array : Option (List Word)) {totalBits : Nat} (hwords : 32 ∣ totalBits)
    {calls : List (Op × Result)} (h : Runs.Run Calls (init array totalBits) calls b) :
    ∃ x, Runs.Run Means (.empty totalBits) calls x ∧ Represents b x :=
  h.simulate (fun hrepresents hcalls => hrepresents.calls hcalls) (represents_init array hwords)

instance (b : Bitmap) (op : Op) : Decidable (b.Legal op) :=
  match op with
  | .setBit _ | .clearBit _ | .testBit _ => inferInstanceAs (Decidable (_ < _))
  | .expand _ => inferInstanceAs (Decidable (_ ∧ _))
  | .findFirstFree | .allocateFirstFree | .clear => isTrue trivial

/-- A bit is set by its number, and then the least absent ones are allocated. -/
theorem bitmap_allocates_least : ∃ x, Runs.Run Means (.empty 32)
    [(.setBit 1, .done), (.allocateFirstFree, .found (some 0)), (.allocateFirstFree, .found (some 2)),
      (.expand 64, .truth true), (.testBit 2, .truth true)] x ∧ x.totalBits = 64 := by
  have hrun : Runs.Run Calls (init none 32)
      [(.setBit 1, .done), (.allocateFirstFree, .found (some 0)), (.allocateFirstFree, .found (some 2)),
        (.expand 64, .truth true), (.testBit 2, .truth true)] _ :=
    .cons ⟨by decide, rfl⟩ <| .cons ⟨by decide, rfl⟩ <| .cons ⟨by decide, rfl⟩ <|
      .cons ⟨by decide, rfl⟩ <| .cons ⟨by decide, rfl⟩ <| .nil _
  obtain ⟨x, hmeans, hrepresents⟩ := bitmap_refines_set none (by decide) hrun
  exact ⟨x, hmeans, hrepresents.totalBits.symm⟩

end Bitmap

end LuckOS
