import Mathlib.Data.List.Count
import Mathlib.Data.List.Nodup
import Mathlib.Data.Int.Basic

/-!
# Ledgers of blocks

A ledger lists the blocks that have been allocated and those that have been freed. A block is
named by its purpose, so that its live count is the number of its allocations minus the
number of its releases.
-/

namespace LuckOS

universe u

/-- The allocated and the freed blocks. -/
structure Ledger (β : Type u) where
  allocated : List β
  freed : List β

namespace Ledger

variable {β : Type u} [DecidableEq β]

def empty : Ledger β := ⟨[], []⟩

def kmalloc (l : Ledger β) (b : β) : Ledger β := { l with allocated := b :: l.allocated }

def kfree (l : Ledger β) (b : β) : Ledger β := { l with freed := b :: l.freed }

def kmallocs (l : Ledger β) (bs : List β) : Ledger β := bs.foldl kmalloc l

def kfrees (l : Ledger β) (bs : List β) : Ledger β := bs.foldl kfree l

/-- Allocations minus releases. -/
def live (l : Ledger β) (b : β) : Int := l.allocated.count b - l.freed.count b

@[simp] theorem live_empty (b : β) : (empty : Ledger β).live b = 0 := by
  simp [empty, live]

@[simp] theorem live_kmalloc (l : Ledger β) (a b : β) : (l.kmalloc a).live b = l.live b + if a = b then 1 else 0 := by
  simp only [live, kmalloc, List.count_cons, beq_iff_eq]
  split_ifs <;> omega

@[simp] theorem live_kfree (l : Ledger β) (a b : β) : (l.kfree a).live b = l.live b - if a = b then 1 else 0 := by
  simp only [live, kfree, List.count_cons, beq_iff_eq]
  split_ifs <;> omega

@[simp] theorem live_kmallocs (l : Ledger β) (bs : List β) (b : β) : (l.kmallocs bs).live b = l.live b + bs.count b := by
  induction bs generalizing l with
  | nil => simp [kmallocs]
  | cons a bs ih =>
    have hrest : (l.kmallocs (a :: bs)).live b = ((l.kmalloc a).kmallocs bs).live b := rfl
    rw [hrest, ih, live_kmalloc, List.count_cons]
    simp only [beq_iff_eq]
    split_ifs <;> omega

@[simp] theorem live_kfrees (l : Ledger β) (bs : List β) (b : β) : (l.kfrees bs).live b = l.live b - bs.count b := by
  induction bs generalizing l with
  | nil => simp [kfrees]
  | cons a bs ih =>
    have hrest : (l.kfrees (a :: bs)).live b = ((l.kfree a).kfrees bs).live b := rfl
    rw [hrest, ih, live_kfree, List.count_cons]
    simp only [beq_iff_eq]
    split_ifs <;> omega

theorem live_eq_zero (l : Ledger β) (b : β) : l.live b = 0 ↔ l.allocated.count b = l.freed.count b := by
  rw [live]
  omega

end Ledger

end LuckOS
