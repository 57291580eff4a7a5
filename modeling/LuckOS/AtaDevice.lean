import Mathlib.Algebra.Group.Nat.Defs

/-!
# A disk behind the ports of an ATA channel

The primary channel with one drive, as far as programmed input is concerned. A command to
read sectors makes the device busy, for as many accesses to its ports as the first sector
takes. It then offers the words of the sector one after the other at the data port, becomes
busy again for the next sector, and is idle behind the last one. What the data port gives at
other times is not specified, and neither are the other bits of the status of a busy device.
-/

namespace LuckOS.Ata

/-- A word on the data port, the low byte first. -/
abbrev PortWord := UInt8 × UInt8

def sectorSize : Nat := 512

/-- `left` counts the sectors that are still to be read, together with the current one. -/
inductive Phase where
  | idle
  | busy (sector left delay : Nat)
  | ready (sector left offset : Nat)

/-- `latency` is the time that a sector takes, `floating` the word that floats on the data port. -/
structure Device where
  disk : Nat → UInt8
  latency : Nat → Nat
  floating : Nat → PortWord
  time : Nat
  sectorCount : UInt8
  lbaLow : UInt8
  lbaMid : UInt8
  lbaHigh : UInt8
  drive : UInt8
  phase : Phase

namespace Device

/-- The address of 28 bits in the registers. -/
def lba (d : Device) : Nat :=
  d.lbaLow.toNat + 2 ^ 8 * d.lbaMid.toNat + 2 ^ 16 * d.lbaHigh.toNat + 2 ^ 24 * (d.drive.toNat % 2 ^ 4)

/-- The number of sectors in the register, where 0 stands for 256. -/
def count (d : Device) : Nat := if d.sectorCount = 0 then 256 else d.sectorCount.toNat

/-- The first drive is selected, with logical addresses. -/
def Selected (d : Device) : Prop := d.drive.toNat / 2 ^ 4 % 2 = 0 ∧ d.drive.toNat / 2 ^ 6 % 2 = 1

instance (d : Device) : Decidable d.Selected := inferInstanceAs (Decidable (_ ∧ _))

/-- The device turns to a sector. -/
def seek (d : Device) (sector left : Nat) : Phase :=
  match d.latency sector with
  | 0 => .ready sector left 0
  | delay + 1 => .busy sector left delay

/-- The command register. Command 0x20 reads sectors; no other one is modelled. -/
def command (d : Device) (v : UInt8) : Device :=
  if v = 0x20 ∧ d.Selected then { d with phase := d.seek d.lba d.count } else d

/-- A write to a port. The registers of a device that is at work are not written. -/
def outb (d : Device) (port : Nat) (v : UInt8) : Device :=
  match d.phase with
  | .idle =>
    if port = 0x1F2 then { d with sectorCount := v }
    else if port = 0x1F3 then { d with lbaLow := v }
    else if port = 0x1F4 then { d with lbaMid := v }
    else if port = 0x1F5 then { d with lbaHigh := v }
    else if port = 0x1F6 then { d with drive := v }
    else if port = 0x1F7 then d.command v
    else d
  | _ => d

/-- An access to a port takes a unit of time. -/
def tick (d : Device) : Device :=
  { d with
    time := d.time + 1
    phase := match d.phase with
      | .busy sector left 0 => .ready sector left 0
      | .busy sector left (delay + 1) => .busy sector left delay
      | p => p }

/-- The status: bit 7 is set if the device is busy, and bit 3 if it offers data. -/
def status (d : Device) : UInt8 :=
  match d.phase with
  | .idle => 0x50
  | .busy _ _ _ => 0x80 ||| (d.floating d.time).1
  | .ready _ _ _ => 0x58

/-- A read of the status port. -/
def readStatus (d : Device) : UInt8 × Device := (d.status, d.tick)

/-- A read of the data port. -/
def readData (d : Device) : PortWord × Device :=
  match d.phase with
  | .ready sector left offset =>
    ((d.disk (sector * sectorSize + offset), d.disk (sector * sectorSize + offset + 1)),
      { d with
        time := d.time + 1
        phase := if offset + 2 < sectorSize then .ready sector left (offset + 2)
          else if 1 < left then d.seek (sector + 1) (left - 1)
          else .idle })
  | _ => (d.floating d.time, d.tick)

end Device

/-- Two states of one drive with the same sectors. -/
structure SameDrive (d d' : Device) : Prop where
  disk : d'.disk = d.disk
  latency : d'.latency = d.latency
  floating : d'.floating = d.floating

theorem SameDrive.refl (d : Device) : SameDrive d d := ⟨rfl, rfl, rfl⟩

theorem SameDrive.trans {d d' d'' : Device} (h : SameDrive d d') (h' : SameDrive d' d'') : SameDrive d d'' :=
  ⟨h'.disk.trans h.disk, h'.latency.trans h.latency, h'.floating.trans h.floating⟩

variable {d : Device} {sector left offset : Nat}

theorem readStatus_busy {delay : Nat} (h : d.phase = .busy sector left delay) :
    d.readStatus.1 &&& 0x88 ≠ 0x08 := by
  have hbusy : ∀ v : UInt8, (0x80 ||| v) &&& 0x88 ≠ 0x08 := by
    intro v heq
    have hbit := congrArg (fun w : UInt8 => w.toBitVec.getLsbD 7) heq
    simp at hbit
  have hstatus : d.readStatus.1 = 0x80 ||| (d.floating d.time).1 := by
    rw [Device.readStatus, Device.status, h]
  rw [hstatus]
  exact hbusy _

theorem readStatus_ready (h : d.phase = .ready sector left offset) : d.readStatus.1 &&& 0x88 = 0x08 := by
  have hstatus : d.readStatus.1 = 0x58 := by
    rw [Device.readStatus, Device.status, h]
  rw [hstatus]
  decide

theorem sameDrive_tick (d : Device) : SameDrive d d.tick := ⟨rfl, rfl, rfl⟩

/-! ## Reading words -/

/-- The words that are read from the data port one after the other. -/
def Device.readWords : Nat → Device → List PortWord × Device
  | 0, d => ([], d)
  | n + 1, d =>
    let r := d.readData.2.readWords n
    (d.readData.1 :: r.1, r.2)

/-- The word of the disk at an address in bytes. -/
def wordAt (disk : Nat → UInt8) (a : Nat) : PortWord := (disk a, disk (a + 1))

/-- The state in which a device is that has offered everything up to an offset, with the next sectors at hand. -/
def offering (sector left offset : Nat) : Phase :=
  if offset / sectorSize < left then
    .ready (sector + offset / sectorSize) (left - offset / sectorSize) (offset % sectorSize)
  else .idle

theorem sameDrive_readData (d : Device) : SameDrive d d.readData.2 := by
  rw [Device.readData]
  cases d.phase <;> exact ⟨rfl, rfl, rfl⟩

theorem readData_offering (h : d.phase = offering sector left offset) (heven : offset % 2 = 0)
    (hoffset : offset < sectorSize * left)
    (hnext : ∀ k, 0 < k → k < left → d.latency (sector + k) = 0) :
    d.readData.1 = wordAt d.disk (sector * sectorSize + offset) ∧
      d.readData.2.phase = offering sector left (offset + 2) := by
  have hleft : offset / sectorSize < left := Nat.div_lt_of_lt_mul hoffset
  rw [offering, if_pos hleft] at h
  have haddr : (sector + offset / sectorSize) * sectorSize + offset % sectorSize = sector * sectorSize + offset := by
    rw [Nat.add_mul, Nat.add_assoc, Nat.div_add_mod']
  have hread : d.readData.1 = wordAt d.disk (sector * sectorSize + offset) := by
    rw [Device.readData, h, wordAt, ← haddr]
  refine ⟨hread, ?_⟩
  have hphase : d.readData.2.phase = if offset % sectorSize + 2 < sectorSize then
      .ready (sector + offset / sectorSize) (left - offset / sectorSize) (offset % sectorSize + 2)
      else if 1 < left - offset / sectorSize then
        d.seek (sector + offset / sectorSize + 1) (left - offset / sectorSize - 1)
      else .idle := by
    rw [Device.readData, h]
  rw [hphase, offering]
  unfold sectorSize at hleft ⊢
  by_cases hinside : offset % 512 + 2 < 512
  · have hdiv : (offset + 2) / 512 = offset / 512 := by omega
    have hmod : (offset + 2) % 512 = offset % 512 + 2 := by omega
    rw [if_pos hinside, hdiv, hmod, if_pos (by omega)]
  · have hdiv : (offset + 2) / 512 = offset / 512 + 1 := by omega
    have hmod : (offset + 2) % 512 = 0 := by omega
    rw [if_neg hinside, hdiv, hmod]
    by_cases hmore : 1 < left - offset / 512
    · have hready := hnext (offset / 512 + 1) (by omega) (by omega)
      rw [if_pos hmore, if_pos (by omega), Device.seek, Nat.add_assoc, hready, Nat.sub_sub]
    · rw [if_neg hmore, if_neg (by omega)]

/-- The sectors behind the first one are at hand: then the words come from the disk, in order. -/
theorem readWords_offering (n : Nat) (h : d.phase = offering sector left offset) (heven : offset % 2 = 0)
    (hoffset : offset + 2 * n ≤ sectorSize * left)
    (hnext : ∀ k, 0 < k → k < left → d.latency (sector + k) = 0) :
    (d.readWords n).1 = (List.range n).map (fun i => wordAt d.disk (sector * sectorSize + offset + 2 * i)) ∧
      (d.readWords n).2.phase = offering sector left (offset + 2 * n) ∧ SameDrive d (d.readWords n).2 := by
  induction n generalizing d offset with
  | zero => exact ⟨rfl, h, .refl d⟩
  | succ n ih =>
    obtain ⟨hword, hphase⟩ := readData_offering h heven (by omega) hnext
    have hsame := sameDrive_readData d
    obtain ⟨hwords, hlast, hdrive⟩ := ih hphase (by omega) (by omega) (by rwa [hsame.latency])
    rw [hsame.disk] at hwords
    refine ⟨?_, ?_, hsame.trans hdrive⟩
    · have hrest : (List.range n).map (fun i => wordAt d.disk (sector * sectorSize + (offset + 2) + 2 * i)) =
          (List.range n).map ((fun i => wordAt d.disk (sector * sectorSize + offset + 2 * i)) ∘ Nat.succ) := by
        refine List.map_congr_left fun i _ => ?_
        rw [Function.comp_apply]
        exact congrArg _ (by omega)
      rw [Device.readWords, List.range_succ_eq_map, List.map_cons, List.map_map, hword, hwords, hrest, Nat.mul_zero,
        Nat.add_zero]
    · rw [Device.readWords, hlast]
      exact congrArg _ (by omega)

theorem readWords_add (n m : Nat) (d : Device) : (d.readWords (n + m)).1 =
      (d.readWords n).1 ++ ((d.readWords n).2.readWords m).1 ∧
    (d.readWords (n + m)).2 = ((d.readWords n).2.readWords m).2 := by
  induction n generalizing d with
  | zero =>
    rw [Nat.zero_add]
    exact ⟨rfl, rfl⟩
  | succ n ih =>
    rw [Nat.succ_add]
    exact ⟨congrArg (List.cons _) (ih d.readData.2).1, (ih d.readData.2).2⟩

theorem length_readWords (n : Nat) (d : Device) : (d.readWords n).1.length = n := by
  induction n generalizing d with
  | zero => rfl
  | succ n ih =>
    rw [Device.readWords, List.length_cons, ih]

theorem sameDrive_readWords (n : Nat) (d : Device) : SameDrive d (d.readWords n).2 := by
  induction n generalizing d with
  | zero => exact .refl d
  | succ n ih => exact (sameDrive_readData d).trans (ih d.readData.2)

theorem readWords_idle (n : Nat) (h : d.phase = .idle) : (d.readWords n).2.phase = .idle := by
  induction n generalizing d with
  | zero => exact h
  | succ n ih =>
    refine ih (d := d.readData.2) ?_
    rw [Device.readData, h, Device.tick, h]

theorem offering_zero (hleft : 0 < left) : offering sector left 0 = .ready sector left 0 := if_pos hleft

theorem offering_end (sector left : Nat) : offering sector left (2 * (256 * left)) = .idle := by
  have hdiv : 2 * (256 * left) / sectorSize = left := by
    rw [← Nat.mul_assoc]
    exact Nat.mul_div_cancel_left left (by decide)
  rw [offering, hdiv]
  exact if_neg (Nat.lt_irrefl left)

/-- The words of the sectors that were asked for come first; behind them the device is idle. -/
theorem readWords_sectors (n : Nat) (h : d.phase = .ready sector left 0) (hleft : 0 < left)
    (hnext : ∀ k, 0 < k → k < left → d.latency (sector + k) = 0) :
    (∀ i, i < n → i < 256 * left →
        (d.readWords n).1[i]? = some (wordAt d.disk (sector * sectorSize + 2 * i))) ∧
      (256 * left ≤ n → (d.readWords n).2.phase = .idle) := by
  have hoffering := h.trans (offering_zero hleft).symm
  have hbound : 0 + 2 * min n (256 * left) ≤ sectorSize * left := by
    have hsize : sectorSize * left = 2 * (256 * left) := (Nat.mul_assoc 2 256 left)
    omega
  obtain ⟨hwords, hphase, -⟩ := readWords_offering (min n (256 * left)) hoffering rfl hbound hnext
  obtain ⟨hlist, hlast⟩ := readWords_add (min n (256 * left)) (n - min n (256 * left)) d
  rw [Nat.add_sub_cancel' (Nat.min_le_left n (256 * left))] at hlist hlast
  refine ⟨fun i hi hi' => ?_, fun hall => ?_⟩
  · have hmin : i < min n (256 * left) := Nat.lt_min.mpr ⟨hi, hi'⟩
    rw [hlist, List.getElem?_append_left (by rwa [length_readWords]), hwords, List.getElem?_map,
      List.getElem?_range hmin, Option.map_some, Nat.add_zero]
  · rw [Nat.min_eq_right hall, Nat.zero_add, offering_end] at hphase
    rw [hlast, Nat.min_eq_right hall]
    exact readWords_idle _ hphase

end LuckOS.Ata
