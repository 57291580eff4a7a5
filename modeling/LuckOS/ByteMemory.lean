import Mathlib.Algebra.Group.Nat.Defs
import Mathlib.Data.List.Basic

/-!
# Bytes and little-endian words

A memory maps addresses to bytes. A word of four bytes is stored with its lowest byte
first. Reading depends on four bytes only, and writing changes four bytes only.
-/

namespace LuckOS.ByteMemory

abbrev Memory := Nat → UInt8

def read32 (m : Memory) (a : Nat) : Nat :=
  (m a).toNat + 2 ^ 8 * (m (a + 1)).toNat + 2 ^ 16 * (m (a + 2)).toNat + 2 ^ 24 * (m (a + 3)).toNat

def write32 (m : Memory) (a v : Nat) : Memory := fun x =>
  if x = a then UInt8.ofNat v
  else if x = a + 1 then UInt8.ofNat (v / 2 ^ 8)
  else if x = a + 2 then UInt8.ofNat (v / 2 ^ 16)
  else if x = a + 3 then UInt8.ofNat (v / 2 ^ 24)
  else m x

def write8 (m : Memory) (a : Nat) (v : UInt8) : Memory := fun x => if x = a then v else m x

/-- Two memories have the same bytes from `lo` up to `hi`. -/
def SameOn (m m' : Memory) (lo hi : Nat) : Prop := ∀ x, lo ≤ x → x < hi → m' x = m x

variable {m m' m'' : Memory} {a b v lo hi : Nat}

theorem SameOn.mono {lo' hi' : Nat} (h : SameOn m m' lo hi) (hlo : lo ≤ lo') (hhi : hi' ≤ hi) : SameOn m m' lo' hi' :=
  fun x hx hx' => h x (Nat.le_trans hlo hx) (Nat.lt_of_lt_of_le hx' hhi)

theorem SameOn.trans (h : SameOn m m' lo hi) (h' : SameOn m' m'' lo hi) : SameOn m m'' lo hi :=
  fun x hx hx' => (h' x hx hx').trans (h x hx hx')

theorem write32_of_ne {x : Nat} (h : x < a ∨ a + 4 ≤ x) : write32 m a v x = m x := by
  have h0 : x ≠ a := by omega
  have h1 : x ≠ a + 1 := by omega
  have h2 : x ≠ a + 2 := by omega
  have h3 : x ≠ a + 3 := by omega
  simp [write32, h0, h1, h2, h3]

theorem write8_of_ne {v : UInt8} {x : Nat} (h : x ≠ a) : write8 m a v x = m x := if_neg h

theorem sameOn_write32 (h : hi ≤ a ∨ a + 4 ≤ lo) : SameOn m (write32 m a v) lo hi :=
  fun _ _ _ => write32_of_ne (by omega)

theorem sameOn_write8 {v : UInt8} (h : hi ≤ a ∨ a + 1 ≤ lo) : SameOn m (write8 m a v) lo hi :=
  fun _ _ _ => write8_of_ne (by omega)

theorem read32_congr (h : SameOn m m' a (a + 4)) : read32 m' a = read32 m a := by
  simp only [read32]
  rw [h a (by omega) (by omega), h (a + 1) (by omega) (by omega), h (a + 2) (by omega) (by omega),
    h (a + 3) (by omega) (by omega)]

theorem read32_write32 (hv : v < 2 ^ 32) : read32 (write32 m a v) a = v := by
  simp [read32, write32]
  omega

theorem read32_write32_of_ne (h : a + 4 ≤ b ∨ b + 4 ≤ a) : read32 (write32 m a v) b = read32 m b :=
  read32_congr (sameOn_write32 (by omega))

end LuckOS.ByteMemory
