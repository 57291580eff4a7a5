import Mathlib.Data.List.Basic
import Mathlib.Data.Nat.ModEq
import Mathlib.Tactic.Common

/-!
# Ring buffers

A queue in an array of fixed capacity, with the index of its first element, the index behind its last
one, and the number of its elements. An element is taken out without a look at this number.
-/

namespace LuckOS

universe u

structure RingBuffer (α : Type u) where
  buffer : Nat → α
  head : Nat
  tail : Nat
  size : Int

namespace RingBuffer

variable {α : Type u} {cap : Nat} {b : RingBuffer α} {x : α}

def nextIndex (cap index : Nat) : Nat := (index + 1) % cap

/-- An element is appended unless the buffer is full. -/
def enqueue (cap : Nat) (b : RingBuffer α) (x : α) : Int × RingBuffer α :=
  if b.size = cap then (-1, b)
  else
    (0, { b with
      buffer := fun i => if i = b.tail then x else b.buffer i
      tail := nextIndex cap b.tail
      size := b.size + 1 })

/-- The first element is taken out. -/
def dequeue (cap : Nat) (b : RingBuffer α) : α × RingBuffer α :=
  (b.buffer b.head, { b with head := nextIndex cap b.head, size := b.size - 1 })

/-- The elements, the first one first. -/
def contents (cap : Nat) (b : RingBuffer α) : List α :=
  (List.range b.size.toNat).map fun i => b.buffer ((b.head + i) % cap)

/-- The two indices and the number of elements agree. -/
structure WellFormed (cap : Nat) (b : RingBuffer α) : Prop where
  nonneg : 0 ≤ b.size
  bounded : b.size ≤ cap
  head_lt : b.head < cap
  tail_eq : (b.tail : Int) = (b.head + b.size) % cap

theorem length_contents (cap : Nat) (b : RingBuffer α) : (b.contents cap).length = b.size.toNat := by
  simp [contents]

theorem enqueue_of_full (h : b.size = cap) (x : α) : (b.enqueue cap x).2 = b := by
  rw [enqueue, if_pos h]

theorem WellFormed.tail_mod (h : b.WellFormed cap) : b.tail = (b.head + b.size.toNat) % cap := by
  have hnat : ((b.size.toNat : Nat) : Int) = b.size := Int.toNat_of_nonneg h.nonneg
  have htail := h.tail_eq
  rw [← hnat] at htail
  exact_mod_cast htail

theorem index_ne {head i j : Nat} (hij : i < j) (hj : j < cap) : (head + i) % cap ≠ (head + j) % cap := by
  intro heq
  have hmod : i % cap = j % cap := Nat.ModEq.add_left_cancel' head heq
  rw [Nat.mod_eq_of_lt (Nat.lt_trans hij hj), Nat.mod_eq_of_lt hj] at hmod
  exact Nat.ne_of_lt hij hmod

/-- A new element is the last one. -/
theorem enqueue_spec (h : b.WellFormed cap) (hroom : b.size ≠ cap) (x : α) :
    (b.enqueue cap x).2.WellFormed cap ∧ (b.enqueue cap x).2.contents cap = b.contents cap ++ [x] := by
  have htail := h.tail_mod
  have hbounded := h.bounded
  obtain ⟨n, hn⟩ := Int.eq_ofNat_of_zero_le h.nonneg
  have hlt : n < cap := by omega
  rw [enqueue, if_neg hroom]
  rw [hn, Int.toNat_natCast] at htail
  refine ⟨⟨?_, ?_, h.head_lt, ?_⟩, ?_⟩
  · have hnonneg := h.nonneg
    dsimp only
    omega
  · dsimp only
    omega
  · have hnext : nextIndex cap b.tail = (b.head + (n + 1)) % cap := by
      rw [nextIndex, htail, Nat.mod_add_mod, Nat.add_assoc]
    dsimp only
    rw [hnext, hn]
    exact_mod_cast rfl
  · have hsize : (b.size + 1).toNat = n + 1 := by omega
    have hsize' : b.size.toNat = n := by omega
    rw [contents, contents]
    dsimp only
    rw [hsize, hsize', List.range_succ, List.map_append, List.map_singleton, htail, if_pos rfl]
    congr 1
    refine List.map_congr_left fun i hi => if_neg ?_
    exact index_ne (List.mem_range.mp hi) hlt

/-- The element that is taken out is the first one. -/
theorem dequeue_spec (h : b.WellFormed cap) (hne : b.size ≠ 0) :
    (b.dequeue cap).2.WellFormed cap ∧ b.contents cap = (b.dequeue cap).1 :: (b.dequeue cap).2.contents cap := by
  have htail := h.tail_mod
  have hbounded := h.bounded
  have hnonneg := h.nonneg
  have hcap : 0 < cap := Nat.zero_lt_of_lt h.head_lt
  obtain ⟨n, hn⟩ : ∃ n : Nat, b.size = n + 1 := ⟨(b.size - 1).toNat, by omega⟩
  have hsize : b.size.toNat = n + 1 := by omega
  have hsize' : (b.size - 1).toNat = n := by omega
  have hshift : ∀ i, (nextIndex cap b.head + i) % cap = (b.head + (i + 1)) % cap := by
    intro i
    rw [nextIndex, Nat.mod_add_mod, Nat.add_assoc, Nat.add_comm 1 i]
  rw [hsize] at htail
  refine ⟨⟨?_, ?_, Nat.mod_lt _ hcap, ?_⟩, ?_⟩
  · change 0 ≤ b.size - 1
    omega
  · change b.size - 1 ≤ cap
    omega
  · change (b.tail : Int) = (nextIndex cap b.head + (b.size - 1)) % cap
    have hrest : b.size - 1 = (n : Int) := by omega
    have hindex := hshift n
    rw [← htail] at hindex
    rw [hrest, ← hindex]
    exact_mod_cast rfl
  · rw [contents, contents, hsize]
    change _ = b.buffer b.head :: (List.range (b.size - 1).toNat).map fun i => b.buffer ((nextIndex cap b.head + i) % cap)
    rw [hsize', List.range_succ_eq_map, List.map_cons, List.map_map, Nat.add_zero, Nat.mod_eq_of_lt h.head_lt]
    congr 1
    refine List.map_congr_left fun i _ => ?_
    rw [hshift]
    rfl

end RingBuffer

end LuckOS
