import LuckOS.FileReads

/-!
# The sector loop of `read_hard_disk`

One sector at a time is read into the sector buffer, and the part of it that belongs to the range is
copied to the moving destination. The sectors that are read and the stores to the destination are
recorded.
-/

namespace LuckOS.DiskSectors

open HardDisk (sectorSize uint32Add uint32Sub uint32Sub_of_le uint32Add_assoc sector_bounds Turn turn turns turn_eq memcpyNum
  memcpyNum_of_lt)

/-- The local variables of `read_hard_disk` with what it has done. What lies behind the sector buffer
in memory has the indexes from `sectorSize` on. -/
structure Reader where
  buffer : Nat
  sectorBuffer : Nat → Byte
  sectors : List Nat
  stores : List (Nat × Byte)

/-- `read_sector`: `read_disk` delivers the bytes of the sector. -/
def readSector (disk : Nat → Byte) (r : Reader) (sector : Nat) : Reader :=
  { r with
    sectorBuffer := fun j => if j < sectorSize then disk (sector * sectorSize + j) else r.sectorBuffer j
    sectors := r.sectors ++ [sector] }

/-- `memcpy` to the destination, from an offset in the sector buffer. -/
def memcpy (r : Reader) (offset size : Nat) : Reader :=
  { r with stores := r.stores ++ (List.range (memcpyNum size)).map fun k =>
      (uint32Add r.buffer k, r.sectorBuffer (uint32Add offset k)) }

/-- What a turn of the loop does behind `read_sector`. -/
def copyTurn (r : Reader) (t : Turn) : Reader :=
  let r := memcpy r t.offset t.copySize
  { r with buffer := uint32Add r.buffer t.copySize }

/-- One turn of the loop. -/
def copySector (disk : Nat → Byte) (r : Reader) (t : Turn) : Reader := copyTurn (readSector disk r t.sector) t

/-- `read_hard_disk`. The memory from the sector buffer on holds `garbage` at first. -/
def readHardDisk (disk garbage : Nat → Byte) (buffer start length : Nat) : Reader :=
  (turns start length).foldl (copySector disk) ⟨buffer, garbage, [], []⟩

variable {disk garbage : Nat → Byte} {buffer start stop length i n size : Nat} {r : Reader}

/-- The bytes that were stored from the buffer on are those of the disk from `start` on. -/
def storesOf (disk : Nat → Byte) (buffer start size : Nat) : List (Nat × Byte) :=
  (List.range size).map fun k => (uint32Add buffer k, disk (start + k))

theorem storesOf_add (m : Nat) : storesOf disk buffer start (size + m) =
    storesOf disk buffer start size ++ (List.range m).map fun k =>
    (uint32Add buffer (size + k), disk (start + size + k)) := by
  simp only [storesOf, List.range_add, List.map_append, List.map_map]
  congr 1
  apply List.map_congr_left
  intro k _
  simp only [Function.comp, Nat.add_assoc]

/-- The part of the range in front of sector `start / sectorSize + n`. -/
def sizeBefore (start stop n : Nat) : Nat := min ((start / sectorSize + n) * sectorSize) stop - start

/-- What the loop has done after `n` sectors. -/
structure Copied (disk : Nat → Byte) (buffer start stop n : Nat) (r : Reader) : Prop where
  moved : ∀ k, uint32Add r.buffer k = uint32Add buffer (sizeBefore start stop n + k)
  sectors : r.sectors = List.range' (start / sectorSize) n
  stores : r.stores = storesOf disk buffer start (sizeBefore start stop n)

/-- One turn, for a sector that meets the range and ends in front of the end of the address space. -/
theorem copySector_eq (disk : Nat → Byte) (r : Reader) (hfirst : start < (i + 1) * sectorSize)
    (hlast : i * sectorSize < stop) (hstop : start < stop)
    (hend : (i + 1) * sectorSize < 2 ^ 32) (hlt : stop < 2 ^ 32) :
    (copySector disk r (turn start stop i)).buffer =
        uint32Add r.buffer (min ((i + 1) * sectorSize) stop - max (i * sectorSize) start) ∧
      (copySector disk r (turn start stop i)).sectors = r.sectors ++ [i] ∧
      (copySector disk r (turn start stop i)).stores =
      r.stores ++ storesOf disk r.buffer (max (i * sectorSize) start)
        (min ((i + 1) * sectorSize) stop - max (i * sectorSize) start) := by
  have hsucc : (i + 1) * sectorSize = i * sectorSize + sectorSize := Nat.succ_mul ..
  have hsector : sectorSize = 512 := rfl
  rw [turn_eq hfirst (by omega) (by omega) hlt hend]
  simp only [copySector, copyTurn, memcpy, memcpyNum_of_lt
    (show min ((i + 1) * sectorSize) stop - max (i * sectorSize) start < 2 ^ 31 by omega)]
  refine ⟨rfl, rfl, congrArg (r.stores ++ ·) (List.map_congr_left fun k hk => ?_)⟩
  have hk' := List.mem_range.mp hk
  have hin : max (i * sectorSize) start - i * sectorSize + k < sectorSize := by omega
  have hindex : uint32Add (max (i * sectorSize) start - i * sectorSize) k =
    max (i * sectorSize) start - i * sectorSize + k :=
    Nat.mod_eq_of_lt (by omega)
  have haddr : i * sectorSize + (max (i * sectorSize) start - i * sectorSize + k) =
    max (i * sectorSize) start + k := by omega
  simp only [readSector, hindex, if_pos hin, haddr]

/-- One more sector is copied. -/
theorem Copied.next (h : Copied disk buffer start stop n r) (hstop : start < stop)
    (hn : start / sectorSize + n ≤ (stop - 1) / sectorSize) (hend : stop ≤ 2 ^ 32 - 512) :
    Copied disk buffer start stop (n + 1) (copySector disk r (turn start stop (start / sectorSize + n))) := by
  obtain ⟨hlo, hhi⟩ := sector_bounds start
  obtain ⟨hlo', -⟩ := sector_bounds (stop - 1)
  have hmul : (start / sectorSize + n) * sectorSize ≤ (stop - 1) / sectorSize * sectorSize :=
    Nat.mul_le_mul_right _ hn
  have hadd : (start / sectorSize + n) * sectorSize =
    start / sectorSize * sectorSize + n * sectorSize := Nat.add_mul ..
  have hsucc : (start / sectorSize + n + 1) * sectorSize =
    (start / sectorSize + n) * sectorSize + sectorSize := Nat.succ_mul ..
  have hsucc' : (start / sectorSize + 1) * sectorSize =
    start / sectorSize * sectorSize + sectorSize := Nat.succ_mul ..
  have hhi' : (start / sectorSize + 1) * sectorSize ≤ (start / sectorSize + n + 1) * sectorSize :=
    Nat.mul_le_mul_right _ (by omega)
  have hsector : sectorSize = 512 := rfl
  have hfrom : max ((start / sectorSize + n) * sectorSize) start = start + sizeBefore start stop n := by
    rw [sizeBefore]
    omega
  have hsize : sizeBefore start stop (n + 1) = sizeBefore start stop n +
      (min ((start / sectorSize + n + 1) * sectorSize) stop - max
        ((start / sectorSize + n) * sectorSize) start) := by
    rw [sizeBefore, sizeBefore, ← Nat.add_assoc]
    omega
  obtain ⟨hbuffer, hsectors, hstores⟩ :=
    copySector_eq (i := start / sectorSize + n) disk r (by omega) (by omega) hstop (by omega) (by omega)
  refine ⟨fun k => ?_, ?_, ?_⟩
  · rw [hbuffer, uint32Add_assoc, h.moved, hsize]
    exact congrArg _ (Nat.add_assoc ..).symm
  · rw [hsectors, h.sectors, List.range'_1_concat]
  · rw [hstores, h.stores, hsize, storesOf_add, hfrom]
    exact congrArg _ (List.map_congr_left fun k _ => by rw [h.moved])

/-- The loop over the first `n` sectors of the range. -/
theorem copied_foldl (disk garbage : Nat → Byte) (buffer : Nat) (hstop : start < stop)
    (hend : stop ≤ 2 ^ 32 - 512)
    (hn : n ≤ (stop - 1) / sectorSize + 1 - start / sectorSize) : Copied disk buffer start stop n
      (((List.range' (start / sectorSize) n).map (turn start stop)).foldl (copySector disk) ⟨buffer, garbage,
        [], []⟩) := by
  induction n with
  | zero =>
    obtain ⟨hlo, -⟩ := sector_bounds start
    have hnone : sizeBefore start stop 0 = 0 := by
      rw [sizeBefore, Nat.add_zero]
      omega
    refine ⟨fun k => ?_, rfl, ?_⟩
    · rw [hnone, Nat.zero_add]
      rfl
    · rw [hnone]
      rfl
  | succ n ih =>
    rw [List.range'_1_concat, List.map_append, List.foldl_append]
    exact (ih (by omega)).next hstop (by omega) hend

/-- The loop reads the sectors of the range and copies all of it. -/
theorem copied_readHardDisk (disk garbage : Nat → Byte) (buffer : Nat) (hlength : 1 ≤ length)
    (hend : start + length ≤ 2 ^ 32 - 512) :
    (readHardDisk disk garbage buffer start length).sectors =
        List.range' (start / sectorSize) ((start + length - 1) / sectorSize + 1 - start / sectorSize) ∧
      (readHardDisk disk garbage buffer start length).stores = storesOf disk buffer start length := by
  have hstop : uint32Add start length = start + length := Nat.mod_eq_of_lt (by omega)
  have hprev : uint32Sub (start + length) 1 = start + length - 1 :=
    uint32Sub_of_le (by omega) (by omega)
  have hcopied := copied_foldl disk garbage buffer (Nat.lt_add_of_pos_right hlength) hend
    (Nat.le_refl _)
  obtain ⟨hlo, -⟩ := sector_bounds start
  obtain ⟨-, hhi⟩ := sector_bounds (start + length - 1)
  have hle : start / sectorSize ≤ (start + length - 1) / sectorSize := Nat.div_le_div_right (by omega)
  have hsize : sizeBefore start (start + length)
      ((start + length - 1) / sectorSize + 1 - start / sectorSize) = length := by
    have hcount : start / sectorSize + ((start + length - 1) / sectorSize + 1 - start / sectorSize) =
      (start + length - 1) / sectorSize + 1 := by omega
    rw [sizeBefore, hcount]
    omega
  rw [readHardDisk, turns, hstop, hprev]
  refine ⟨hcopied.sectors, ?_⟩
  rw [hcopied.stores, hsize]

/-- The sectors between the first and the last one are those that meet the range. -/
theorem mem_sectors_iff (hlength : 1 ≤ length) (sector : Nat) :
    sector ∈ List.range' (start / sectorSize) ((start + length - 1) / sectorSize +
      1 - start / sectorSize) ↔
      ∃ a, start ≤ a ∧ a < start + length ∧ a / sectorSize = sector := by
  rw [List.mem_range'_1]
  constructor
  · intro hmem
    by_cases hfirst : sector = start / sectorSize
    · exact ⟨start, Nat.le_refl _, by omega, hfirst.symm⟩
    · have hlower : (start / sectorSize + 1) * sectorSize ≤ sector * sectorSize :=
        Nat.mul_le_mul_right _ (by omega)
      have hupper : sector * sectorSize ≤ (start + length - 1) / sectorSize * sectorSize :=
        Nat.mul_le_mul_right _ (by omega)
      obtain ⟨-, hfirst'⟩ := sector_bounds start
      obtain ⟨hlast, -⟩ := sector_bounds (start + length - 1)
      exact ⟨sector * sectorSize, by omega, by omega, Nat.mul_div_cancel _ (by decide)⟩
  · rintro ⟨a, hfrom, hto, rfl⟩
    have hlower : start / sectorSize ≤ a / sectorSize := Nat.div_le_div_right hfrom
    have hupper : a / sectorSize ≤ (start + length - 1) / sectorSize := Nat.div_le_div_right (by omega)
    omega

/-- `read_hard_disk` reads each sector that meets the range once, in ascending order, and stores the
bytes of the range from the buffer on and nothing else. -/
theorem readHardDisk_exact (disk garbage : Nat → Byte) (buffer : Nat) {start length : Nat}
    (hlength : 1 ≤ length)
    (hend : start + length ≤ 2 ^ 32 - 512) :
    (readHardDisk disk garbage buffer start length).stores =
        (List.range length).map (fun k => (uint32Add buffer k, disk (start + k))) ∧
      (readHardDisk disk garbage buffer start length).sectors.Pairwise (· < ·) ∧
      ∀ sector, sector ∈ (readHardDisk disk garbage buffer start length).sectors ↔
        ∃ a, start ≤ a ∧ a < start + length ∧ a / sectorSize = sector := by
  obtain ⟨hsectors, hstores⟩ := copied_readHardDisk disk garbage buffer hlength hend
  refine ⟨hstores, ?_, ?_⟩
  · rw [hsectors]
    exact List.pairwise_lt_range'
  · rw [hsectors]
    exact mem_sectors_iff hlength

/-- Bytes of two sectors. -/
theorem readHardDisk_two_sectors : (readHardDisk UInt8.ofNat (fun _ => 0) 0xC0D00000 1023 2).stores =
    [(0xC0D00000, 255), (0xC0D00001, 0)] := by
  rw [(readHardDisk_exact UInt8.ofNat (fun _ => 0) 0xC0D00000 (by decide) (by decide)).1]
  decide

end LuckOS.DiskSectors
