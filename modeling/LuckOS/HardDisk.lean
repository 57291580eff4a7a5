import Mathlib.Algebra.Group.Nat.Defs
import Mathlib.Data.List.Basic

/-!
# `read_hard_disk`

The loop of `driver/hard_disk.c` reads one sector after the other into a buffer and copies a part of each to
the moving destination. A turn of the loop is the sector that it reads, the offset in the sector buffer at which
the copy starts, and `copy_size`; each sum and difference is one of `uint32`. The size of the last sector of the
address space wraps, and a copy may then run over the end of the sector buffer. `memcpy` takes the size as an
`int` and copies nothing if this is negative, and the destination moves by `copy_size` all the same.
-/

namespace LuckOS.HardDisk

def sectorSize : Nat := 512

def uint32Add (a b : Nat) : Nat := (a + b) % 2 ^ 32
def uint32Sub (a b : Nat) : Nat := (a + (2 ^ 32 - b)) % 2 ^ 32

structure Turn where
  sector : Nat
  offset : Nat
  copySize : Nat

/-- The turn of the loop for the sector `i`. -/
def turn (start stop i : Nat) : Turn :=
  let copyStartAddr := max (i * sectorSize % 2 ^ 32) start
  let copyEndAddr := min ((i + 1) * sectorSize % 2 ^ 32) stop
  ⟨i, uint32Sub copyStartAddr (i * sectorSize % 2 ^ 32), uint32Sub copyEndAddr copyStartAddr⟩

/-- The turns of `read_hard_disk`. -/
def turns (start length : Nat) : List Turn :=
  let stop := uint32Add start length
  let startSector := start / sectorSize
  let endSector := uint32Sub stop 1 / sectorSize + 1
  (List.range' startSector (endSector - startSector)).map (turn start stop)

/-- The number of bytes that `memcpy` copies for a size which it takes as an `int`. -/
def memcpyNum (size : Nat) : Nat := if size < 2 ^ 31 then size else 0

/-- Where a copied byte lies: on the disk, or behind the sector buffer. -/
inductive Source where
  | disk (addr : Nat)
  | behind (i : Nat)
  deriving DecidableEq

/-- A byte of the buffer that holds a sector. -/
def sectorSource (sector i : Nat) : Source :=
  if i < sectorSize then .disk (sector * sectorSize + i) else .behind i

/-- The bytes that a turn copies. -/
def Turn.sources (t : Turn) : List Source :=
  (List.range (memcpyNum t.copySize)).map fun k => sectorSource t.sector (uint32Add t.offset k)

/-- The bytes that `read_hard_disk` copies. -/
def copyHardDisk (start length : Nat) : List Source := (turns start length).flatMap Turn.sources

/-- The value of a copied byte, with the memory behind the sector buffer. -/
def Source.value (disk behind : Nat → UInt8) : Source → UInt8
  | .disk addr => disk addr
  | .behind i => behind i

variable {start stop length i n : Nat}

theorem uint32Sub_of_le (hle : n ≤ stop) (hlt : stop < 2 ^ 32) : uint32Sub stop n = stop - n := by
  rw [uint32Sub]
  omega

theorem uint32Add_assoc (a b c : Nat) : uint32Add (uint32Add a b) c = uint32Add a (b + c) := by
  rw [uint32Add, uint32Add, uint32Add, Nat.mod_add_mod, Nat.add_assoc]

theorem memcpyNum_of_lt (h : n < 2 ^ 31) : memcpyNum n = n := if_pos h

theorem sector_bounds (n : Nat) : n / sectorSize * sectorSize ≤ n ∧ n < (n / sectorSize + 1) * sectorSize :=
  ⟨Nat.div_mul_le_self .., Nat.lt_mul_of_div_lt (Nat.lt_succ_self _) (by decide)⟩

/-- The turn for a sector in front of the last one that meets the range. -/
theorem turn_eq (hstart : start < (i + 1) * sectorSize) (hstop : i * sectorSize ≤ stop) (hle : start ≤ stop)
    (hlt : stop < 2 ^ 32) (hi : (i + 1) * sectorSize < 2 ^ 32) :
    turn start stop i = ⟨i, max (i * sectorSize) start - i * sectorSize,
      min ((i + 1) * sectorSize) stop - max (i * sectorSize) start⟩ := by
  have hsucc : (i + 1) * sectorSize = i * sectorSize + sectorSize := Nat.succ_mul ..
  have hfirst : i * sectorSize % 2 ^ 32 = i * sectorSize := Nat.mod_eq_of_lt (by omega)
  have hlast : (i + 1) * sectorSize % 2 ^ 32 = (i + 1) * sectorSize := Nat.mod_eq_of_lt hi
  have hsize : uint32Sub (min ((i + 1) * sectorSize) stop) (max (i * sectorSize) start) =
      min ((i + 1) * sectorSize) stop - max (i * sectorSize) start :=
    uint32Sub_of_le (by omega) (by omega)
  have hoffset : uint32Sub (max (i * sectorSize) start) (i * sectorSize) = max (i * sectorSize) start - i * sectorSize :=
    uint32Sub_of_le (by omega) (by omega)
  simp only [turn, hfirst, hlast, hsize, hoffset]

/-- The bytes that the turns for `count` sectors from `i` on copy. -/
def copySectors (start stop count i : Nat) : List Source :=
  ((List.range' i count).map (turn start stop)).flatMap Turn.sources

theorem copySectors_zero (start stop i : Nat) : copySectors start stop 0 i = [] := rfl

theorem copySectors_succ (start stop count i : Nat) :
    copySectors start stop (count + 1) i = (turn start stop i).sources ++ copySectors start stop count (i + 1) := by
  rw [copySectors, List.range'_succ, List.map_cons, List.flatMap_cons, copySectors]

theorem copySectors_append (start stop c d i : Nat) :
    copySectors start stop (c + d) i = copySectors start stop c i ++ copySectors start stop d (i + c) := by
  have hrange := List.range'_append_1 (s := i) (m := c) (n := d)
  rw [copySectors, ← hrange, List.map_append, List.flatMap_append, copySectors, copySectors]

theorem length_copySectors_succ (start stop count i : Nat) :
    (copySectors start stop (count + 1) i).length =
      memcpyNum (uint32Sub (min ((i + 1) * sectorSize % 2 ^ 32) stop) (max (i * sectorSize % 2 ^ 32) start)) +
        (copySectors start stop count (i + 1)).length := by
  rw [copySectors_succ, List.length_append, Turn.sources, List.length_map, List.length_range, turn]

/-- The bytes of a sector in front of the last one. -/
theorem sources_eq (hstart : start < (i + 1) * sectorSize) (hstop : i * sectorSize ≤ stop) (hle : start ≤ stop)
    (hlt : stop < 2 ^ 32) (hi : (i + 1) * sectorSize < 2 ^ 32) :
    (turn start stop i).sources =
      (List.range' (max (i * sectorSize) start)
        (min ((i + 1) * sectorSize) stop - max (i * sectorSize) start)).map .disk := by
  have hsucc : (i + 1) * sectorSize = i * sectorSize + sectorSize := Nat.succ_mul ..
  have hsector : sectorSize = 512 := rfl
  rw [turn_eq hstart hstop hle hlt hi, Turn.sources, List.range'_eq_map_range, List.map_map]
  dsimp only
  rw [memcpyNum_of_lt (by omega)]
  refine List.map_congr_left fun k hk => ?_
  rw [List.mem_range] at hk
  have hindex : uint32Add (max (i * sectorSize) start - i * sectorSize) k =
      max (i * sectorSize) start - i * sectorSize + k :=
    Nat.mod_eq_of_lt (by omega)
  rw [hindex, sectorSource, if_pos (by omega)]
  simp only [Function.comp, Source.disk.injEq]
  omega

/-- The loop over sectors in front of the last one copies the range. -/
theorem copySectors_eq (hle : start ≤ stop) (hlt : stop < 2 ^ 32) {count : Nat} (hstart : start < (i + 1) * sectorSize)
    (hend : (i + count) * sectorSize < 2 ^ 32) (hlast : ∀ j, j < i + count → j * sectorSize ≤ stop) :
    copySectors start stop count i =
      (List.range' (max (i * sectorSize) start)
        (min ((i + count) * sectorSize) stop - max (i * sectorSize) start)).map .disk := by
  induction count generalizing i with
  | zero =>
    have hzero : min ((i + 0) * sectorSize) stop - max (i * sectorSize) start = 0 := by
      rw [Nat.add_zero]
      omega
    rw [hzero]
    rfl
  | succ count ih =>
    have hi := hlast i (by omega)
    have hcount : i + (count + 1) = i + 1 + count := by omega
    have hsucc : (i + 1) * sectorSize = i * sectorSize + sectorSize := Nat.succ_mul ..
    have hsucc' : (i + 1 + 1) * sectorSize = (i + 1) * sectorSize + sectorSize := Nat.succ_mul ..
    have hcover : (i + 1) * sectorSize ≤ (i + 1 + count) * sectorSize :=
      Nat.mul_le_mul_right _ (Nat.le_add_right ..)
    rw [hcount] at hend hlast
    rw [copySectors_succ, sources_eq hstart hi hle hlt (by omega), ih (by omega) hend hlast, hcount, ← List.map_append]
    have hsum : min ((i + 1 + count) * sectorSize) stop - max (i * sectorSize) start =
        (min ((i + 1) * sectorSize) stop - max (i * sectorSize) start) +
          (min ((i + 1 + count) * sectorSize) stop - max ((i + 1) * sectorSize) start) := by omega
    have hjoin : max ((i + 1) * sectorSize) start = max (i * sectorSize) start +
          (min ((i + 1) * sectorSize) stop - max (i * sectorSize) start) ∨
        min ((i + 1 + count) * sectorSize) stop - max ((i + 1) * sectorSize) start = 0 := by omega
    rcases hjoin with hjoin | hjoin
    · rw [hsum, hjoin, List.range'_append_1]
    · rw [hsum, hjoin, List.range'_zero, List.append_nil]
      rfl

theorem copyHardDisk_eq_copySectors (start length : Nat) :
    copyHardDisk start length = copySectors start (uint32Add start length)
      (uint32Sub (uint32Add start length) 1 / sectorSize + 1 - start / sectorSize) (start / sectorSize) :=
  rfl

/-- A range that ends in front of the last sector is copied as it is. -/
theorem copyHardDisk_of_le (hpos : 0 < length) (hrange : start + length ≤ 2 ^ 32 - 512) :
    copyHardDisk start length = (List.range' start length).map .disk := by
  obtain ⟨hlo, hhi⟩ := sector_bounds start
  obtain ⟨hlo', hhi'⟩ := sector_bounds (start + length - 1)
  have hstop : uint32Add start length = start + length := Nat.mod_eq_of_lt (by omega)
  have hprev : uint32Sub (start + length) 1 = start + length - 1 := uint32Sub_of_le (by omega) (by omega)
  have hle : start / sectorSize ≤ (start + length - 1) / sectorSize := Nat.div_le_div_right (by omega)
  have hcount : start / sectorSize + ((start + length - 1) / sectorSize + 1 - start / sectorSize) =
      (start + length - 1) / sectorSize + 1 := by omega
  have hsector : sectorSize = 512 := rfl
  have hsucc : ((start + length - 1) / sectorSize + 1) * sectorSize =
      (start + length - 1) / sectorSize * sectorSize + sectorSize := Nat.succ_mul ..
  rw [copyHardDisk_eq_copySectors, hstop, hprev]
  refine (copySectors_eq (by omega) (by omega) hhi ?_ fun j hj => ?_).trans ?_
  · rw [hcount, hsucc]
    omega
  · rw [hcount] at hj
    have hj' : j * sectorSize ≤ (start + length - 1) / sectorSize * sectorSize :=
      Nat.mul_le_mul_right _ (Nat.le_of_lt_succ hj)
    omega
  · rw [hcount, Nat.max_eq_right hlo, Nat.min_eq_right (by omega), Nat.add_sub_cancel_left]

/-- The last sector of the address space. -/
def lastSector : Nat := 8388607

theorem lastSector_eq : lastSector * sectorSize = 2 ^ 32 - 512 ∧ (lastSector + 1) * sectorSize = 2 ^ 32 := by decide

theorem lastSector_of_le (hle : 2 ^ 32 - 512 ≤ n) (hlt : n < 2 ^ 32) : n / sectorSize = lastSector := by
  obtain ⟨hfirst, hend⟩ := lastSector_eq
  refine Nat.div_eq_of_lt_le ?_ ?_
  · rw [hfirst]
    exact hle
  · rw [hend]
    exact hlt

end LuckOS.HardDisk
