import Mathlib.Data.List.Nodup

/-!
# Tilings of an interval

A list of pieces tiles an interval of addresses if the first piece starts at its lower
end, every piece starts where the piece before it ends, and the last one ends at its
upper end. A part of a tiling can be replaced by another tiling of the same interval.
-/

namespace LuckOS.Tiling

universe u

variable {β : Type u} {first last : β → Nat}

/-- The pieces tile the addresses from the first number up to the second one. -/
def Tiles (first last : β → Nat) : Nat → List β → Nat → Prop
  | a, [], b => a = b
  | a, x :: xs, b => first x = a ∧ a < last x ∧ Tiles first last (last x) xs b

theorem tiles_append {xs ys : List β} {a b : Nat} :
    Tiles first last a (xs ++ ys) b ↔ ∃ c, Tiles first last a xs c ∧ Tiles first last c ys b := by
  induction xs generalizing a with
  | nil => simp [Tiles]
  | cons x xs ih => simp [Tiles, ih, and_assoc]

theorem Tiles.le {xs : List β} {a b : Nat} (h : Tiles first last a xs b) : a ≤ b := by
  induction xs generalizing a with
  | nil => exact Nat.le_of_eq h
  | cons x xs ih =>
    obtain ⟨-, hlt, hrest⟩ := h
    have hle := ih hrest
    omega

theorem Tiles.mem {xs : List β} {a b : Nat} (h : Tiles first last a xs b) {x : β} (hx : x ∈ xs) :
    a ≤ first x ∧ first x < last x ∧ last x ≤ b := by
  induction xs generalizing a with
  | nil => simp at hx
  | cons y ys ih =>
    obtain ⟨hy, hlt, hrest⟩ := h
    rcases List.mem_cons.mp hx with rfl | hmem
    · have hle := hrest.le
      omega
    · have hbounds := ih hrest hmem
      omega

theorem Tiles.length_le {xs : List β} {a b : Nat} (h : Tiles first last a xs b) : a + xs.length ≤ b := by
  induction xs generalizing a with
  | nil => exact Nat.le_of_eq h
  | cons x xs ih =>
    obtain ⟨-, hlt, hrest⟩ := h
    have hle := ih hrest
    rw [List.length_cons]
    omega

/-- The pieces lie one behind the other. -/
theorem Tiles.pairwise {xs : List β} {a b : Nat} (h : Tiles first last a xs b) :
    xs.Pairwise (fun x y => last x ≤ first y) := by
  induction xs generalizing a with
  | nil => exact .nil
  | cons x xs ih =>
    obtain ⟨-, -, hrest⟩ := h
    exact .cons (fun y hy => (hrest.mem hy).1) (ih hrest)

/-- No two pieces start at the same address. -/
theorem Tiles.nodup {xs : List β} {a b : Nat} (h : Tiles first last a xs b) : (xs.map first).Nodup := by
  rw [List.Nodup, List.pairwise_map]
  refine (List.Pairwise.and_mem.mp h.pairwise).imp ?_
  rintro x y ⟨hx, -, hle⟩ heq
  have hlt := (h.mem hx).2.1
  omega

theorem Tiles.eq_of_first {xs : List β} {a b : Nat} (h : Tiles first last a xs b) {x y : β} (hx : x ∈ xs)
    (hy : y ∈ xs) (heq : first x = first y) : x = y :=
  List.inj_on_of_nodup_map h.nodup hx hy heq

/-- Two different pieces do not overlap. -/
theorem Tiles.apart {xs ys : List β} {x y : β} {a b : Nat} (h : Tiles first last a (xs ++ x :: ys) b)
    (hy : y ∈ xs ++ ys) : last y ≤ first x ∨ last x ≤ first y := by
  have hpairs := h.pairwise
  rw [List.pairwise_append, List.pairwise_cons] at hpairs
  rcases List.mem_append.mp hy with hmem | hmem
  · exact .inl (hpairs.2.2 y hmem x (List.mem_cons_self ..))
  · exact .inr (hpairs.2.1.1 y hmem)

theorem Tiles.apart_of_ne {xs : List β} {x y : β} {a b : Nat} (h : Tiles first last a xs b) (hx : x ∈ xs)
    (hy : y ∈ xs) (hne : y ≠ x) : last y ≤ first x ∨ last x ≤ first y := by
  obtain ⟨zs, ws, rfl⟩ := List.append_of_mem hx
  refine h.apart ?_
  rcases List.mem_append.mp hy with hy | hy
  · exact List.mem_append_left _ hy
  · exact List.mem_append_right _ ((List.mem_cons.mp hy).resolve_left hne)

/-- A piece is replaced by a tiling of its interval. -/
theorem Tiles.replace {xs ys zs : List β} {x : β} {a b : Nat} (h : Tiles first last a (xs ++ x :: ys) b)
    (hz : Tiles first last (first x) zs (last x)) : Tiles first last a (xs ++ zs ++ ys) b := by
  obtain ⟨c, hxs, rfl, -, hys⟩ := tiles_append.mp h
  exact tiles_append.mpr ⟨_, tiles_append.mpr ⟨_, hxs, hz⟩, hys⟩

end LuckOS.Tiling
