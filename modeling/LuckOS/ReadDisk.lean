import LuckOS.AtaDevice
import LuckOS.DiskSectors

/-!
# `read_disk`

The driver of `driver/disk_io.S`, which `boot/loader.S` and `boot/mbr.S` have copies of. It
writes the registers, waits until the device offers data, and then reads all words without
looking at the status again. The words are stored through a function, which is that of a
flat memory in the kernel and goes through the page tables in the boot loader.
-/

namespace LuckOS.ReadDisk

open Ata hiding sectorSize

section Code

-- the width of the registers is 16 in `boot/mbr.S`, and 32 elsewhere
variable {σ : Type} (width : Nat) (store : σ → Nat → PortWord → Option σ)

/-- `.hd_not_ready`, with the number of reads of the status for which it is followed. -/
def hdNotReady : Nat → Device → Option Device
  | 0, _ => none
  | fuel + 1, d =>
    let (al, d) := d.readStatus
    if al &&& 0x88 = 0x08 then some d else hdNotReady fuel d

/-- `.go_on_read_data`, with the rounds that are left and `bx`. -/
def goOnReadData : Nat → Nat → Device × σ → Option (Device × σ)
  | 0, _, s => some s
  | rounds + 1, bx, (d, s) => do
    let (ax, d) := d.readData
    let s ← store s bx ax
    goOnReadData rounds ((bx + 2) % 2 ^ width) (d, s)

/-- The rounds of a `loop` instruction: `cx` is decremented before it is tested. -/
def loopRounds (cx : Nat) : Nat := if cx % 2 ^ width = 0 then 2 ^ width else cx % 2 ^ width

/-- The registers are written in front of the command. -/
def setUp (startSector sectorNum : Nat) (d : Device) : Device :=
  let d := d.outb 0x1F2 (UInt8.ofNat sectorNum)
  let d := d.outb 0x1F3 (UInt8.ofNat startSector)
  let d := d.outb 0x1F4 (UInt8.ofNat (startSector >>> 8))
  let d := d.outb 0x1F5 (UInt8.ofNat (startSector >>> 16))
  let d := d.outb 0x1F6 (UInt8.ofNat (startSector >>> 24) &&& 0x0F ||| 0xE0)
  d.outb 0x1F7 0x20

/-- `read_disk`, `read_disk_32`. -/
def readDisk (fuel buffer startSector sectorNum : Nat) (s : Device × σ) : Option (Device × σ) := do
  let d ← hdNotReady fuel (setUp startSector sectorNum s.1)
  goOnReadData width store (loopRounds width (sectorNum * 256)) buffer (d, s.2)

end Code

variable {σ : Type} {width : Nat} {store : σ → Nat → PortWord → Option σ} {d : Device} {s : σ}
  {sector left offset n fuel buffer : Nat}

theorem drive_bits (v : UInt8) : (v &&& 0x0F ||| 0xE0).toNat % 2 ^ 4 = v.toNat % 2 ^ 4 ∧
    (v &&& 0x0F ||| 0xE0).toNat / 2 ^ 4 % 2 = 0 ∧ (v &&& 0x0F ||| 0xE0).toNat / 2 ^ 6 % 2 = 1 := by
  have hsmall : ∀ k < 2 ^ 4, (k ||| 224) % 2 ^ 4 = k ∧ (k ||| 224) / 2 ^ 4 % 2 = 0 ∧ (k ||| 224) / 2 ^ 6 % 2 = 1 := by
    decide
  have hlow : (v &&& 0x0F ||| 0xE0).toNat = v.toNat % 2 ^ 4 ||| 224 := by
    rw [UInt8.toNat_or, UInt8.toNat_and]
    exact congrArg (· ||| 224) (Nat.and_two_pow_sub_one_eq_mod v.toNat 4)
  rw [hlow]
  exact hsmall _ (Nat.mod_lt _ (by decide))

/-- The registers of a device that is idle. -/
theorem setUp_eq (h : d.phase = .idle) (startSector sectorNum : Nat) : setUp startSector sectorNum d = Device.command
    { d with
      sectorCount := UInt8.ofNat sectorNum
      lbaLow := UInt8.ofNat startSector
      lbaMid := UInt8.ofNat (startSector >>> 8)
      lbaHigh := UInt8.ofNat (startSector >>> 16)
      drive := UInt8.ofNat (startSector >>> 24) &&& 0x0F ||| 0xE0 } 0x20 := by
  simp [setUp, Device.outb, h]

/-- The registers take the low 28 bits of the sector and the low 8 bits of the count. -/
theorem setUp_phase (h : d.phase = .idle) (startSector sectorNum : Nat) :
    (setUp startSector sectorNum d).phase =
        d.seek (startSector % 2 ^ 28) (if sectorNum % 256 = 0 then 256 else sectorNum % 256) ∧
      SameDrive d (setUp startSector sectorNum d) := by
  obtain ⟨hlow, hselected⟩ := drive_bits (UInt8.ofNat (startSector >>> 24))
  have hzero : UInt8.ofNat sectorNum = 0 ↔ sectorNum % 256 = 0 := by
    rw [← UInt8.toNat_inj, UInt8.toNat_ofNat']
    rfl
  have hcount : (if UInt8.ofNat sectorNum = 0 then 256 else (UInt8.ofNat sectorNum).toNat) =
      if sectorNum % 256 = 0 then 256 else sectorNum % 256 := by
    rw [UInt8.toNat_ofNat']
    exact if_congr hzero rfl rfl
  rw [setUp_eq h, Device.command, if_pos ⟨rfl, hselected⟩]
  refine ⟨?_, rfl, rfl, rfl⟩
  have hlba : (UInt8.ofNat startSector).toNat + 2 ^ 8 * (UInt8.ofNat (startSector >>> 8)).toNat +
      2 ^ 16 * (UInt8.ofNat (startSector >>> 16)).toNat +
      2 ^ 24 * ((UInt8.ofNat (startSector >>> 24) &&& 0x0F ||| 0xE0).toNat % 2 ^ 4) = startSector % 2 ^ 28 := by
    rw [hlow]
    simp only [UInt8.toNat_ofNat', Nat.shiftRight_eq_div_pow]
    omega
  simp only [Device.seek, Device.lba, Device.count, hlba, hcount]

theorem tick_busy_zero (h : d.phase = .busy sector left 0) : d.tick.phase = .ready sector left 0 := by
  rw [Device.tick, h]

theorem tick_busy_succ {delay : Nat} (h : d.phase = .busy sector left (delay + 1)) :
    d.tick.phase = .busy sector left delay := by
  rw [Device.tick, h]

theorem hdNotReady_ready (h : d.phase = .ready sector left offset) (hfuel : 0 < fuel) :
    hdNotReady fuel d = some d.tick := by
  obtain ⟨fuel, rfl⟩ := Nat.exists_eq_succ_of_ne_zero (Nat.ne_of_gt hfuel)
  exact if_pos (readStatus_ready h)

theorem hdNotReady_busy {delay : Nat} (h : d.phase = .busy sector left delay) (hfuel : delay + 1 < fuel) :
    ∃ d', hdNotReady fuel d = some d' ∧ d'.phase = .ready sector left 0 ∧ SameDrive d d' := by
  obtain ⟨fuel, rfl⟩ := Nat.exists_eq_succ_of_ne_zero (Nat.ne_of_gt (Nat.zero_lt_of_lt hfuel))
  have hagain : hdNotReady (fuel + 1) d = hdNotReady fuel d.tick := if_neg (readStatus_busy h)
  rw [hagain]
  induction delay generalizing d fuel with
  | zero =>
    have hready := tick_busy_zero h
    refine ⟨d.tick.tick, hdNotReady_ready hready (by omega), ?_, (sameDrive_tick d).trans (sameDrive_tick d.tick)⟩
    rw [Device.tick, hready]
  | succ delay ih =>
    have hbusy := tick_busy_succ h
    obtain ⟨fuel, rfl⟩ := Nat.exists_eq_succ_of_ne_zero (show fuel ≠ 0 by omega)
    have hnext : hdNotReady (fuel + 1) d.tick = hdNotReady fuel d.tick.tick := if_neg (readStatus_busy hbusy)
    obtain ⟨d', hd', hready, hsame⟩ := ih hbusy fuel (by omega) hnext
    exact ⟨d', hnext.trans hd', hready, (sameDrive_tick d).trans hsame⟩

/-- The device is waited for as long as the sector takes. -/
theorem hdNotReady_seek (h : d.phase = d.seek sector left) (hfuel : d.latency sector < fuel) :
    ∃ d', hdNotReady fuel d = some d' ∧ d'.phase = .ready sector left 0 ∧ SameDrive d d' := by
  rw [Device.seek] at h
  cases hlatency : d.latency sector with
  | zero =>
    rw [hlatency] at h
    refine ⟨d.tick, hdNotReady_ready h (by omega), ?_, sameDrive_tick d⟩
    rw [Device.tick, h]
  | succ delay =>
    rw [hlatency] at h
    exact hdNotReady_busy h (by omega)

/-- Words are stored one behind the other. -/
def storeWords (width : Nat) (store : σ → Nat → PortWord → Option σ) : Nat → List PortWord → σ → Option σ
  | _, [], s => some s
  | bx, w :: ws, s => (store s bx w).bind (storeWords width store ((bx + 2) % 2 ^ width) ws)

theorem goOnReadData_eq (width : Nat) (store : σ → Nat → PortWord → Option σ) (rounds bx : Nat) (d : Device) (s : σ) :
    goOnReadData width store rounds bx (d, s) =
      (storeWords width store bx (d.readWords rounds).1 s).map fun s => ((d.readWords rounds).2, s) := by
  induction rounds generalizing bx d s with
  | zero => rfl
  | succ n ih =>
    rw [goOnReadData, Device.readWords, storeWords]
    cases hstore : store s bx d.readData.1 with
    | none => simp [hstore]
    | some t => simp [hstore, ih]

/-! ## What is stored -/

/-- The two bytes of a word are stored. -/
def put16 (m : Nat → UInt8) (a : Nat) (w : PortWord) : Nat → UInt8 := fun x =>
  if x = a then w.1 else if x = a + 1 then w.2 else m x

/-- The words are in memory, from an address on. -/
def filled (m : Nat → UInt8) (buffer : Nat) (ws : List PortWord) : Nat → UInt8 := fun x =>
  if x < buffer then m x
  else match ws[(x - buffer) / 2]? with
    | none => m x
    | some w => if (x - buffer) % 2 = 0 then w.1 else w.2

/-- The first `n` words are those of a disk from an address on. -/
theorem filled_of_lt {disk m : Nat → UInt8} {a x : Nat} {ws : List PortWord}
    (h : ∀ i < n, ws[i]? = some (wordAt disk (a + 2 * i))) (hlo : buffer ≤ x) (hhi : x < buffer + 2 * n) :
    filled m buffer ws x = disk (a + (x - buffer)) := by
  rw [filled, if_neg (by omega), h _ (by omega)]
  dsimp only [wordAt]
  split_ifs with heven
  · exact congrArg disk (by omega)
  · exact congrArg disk (by omega)

theorem filled_of_ge {m : Nat → UInt8} {x : Nat} {ws : List PortWord} (h : x < buffer ∨ buffer + 2 * ws.length ≤ x) :
    filled m buffer ws x = m x := by
  rw [filled]
  by_cases hlow : x < buffer
  · rw [if_pos hlow]
  · rw [if_neg hlow, List.getElem?_eq_none (by omega)]

/-- Within a range, and under an invariant, words at even distances are stored in a view of the state. -/
def Stores (store : σ → Nat → PortWord → Option σ) (inv : σ → Prop) (view : σ → Nat → UInt8) (lo hi : Nat) : Prop :=
  ∀ {s a} (w), inv s → lo ≤ a → a + 2 ≤ hi → (a - lo) % 2 = 0 →
    ∃ t, store s a w = some t ∧ inv t ∧ view t = put16 (view s) a w

theorem filled_cons (m : Nat → UInt8) (buffer : Nat) (w : PortWord) (ws : List PortWord) :
    filled (put16 m buffer w) (buffer + 2) ws = filled m buffer (w :: ws) := by
  funext x
  simp only [filled, put16]
  by_cases hlow : x < buffer
  · rw [if_pos (by omega), if_pos hlow, if_neg (by omega), if_neg (by omega)]
  · rw [if_neg hlow]
    by_cases hfirst : x < buffer + 2
    · have hdiv : (x - buffer) / 2 = 0 := by omega
      rw [if_pos hfirst, hdiv]
      by_cases heq : x = buffer
      · simp [heq]
      · have heq' : x = buffer + 1 := by omega
        simp [heq']
    · have hdiv : (x - buffer) / 2 = (x - (buffer + 2)) / 2 + 1 := by omega
      have hmod : (x - buffer) % 2 = (x - (buffer + 2)) % 2 := by omega
      rw [if_neg hfirst, hdiv, hmod, List.getElem?_cons_succ, if_neg (by omega), if_neg (by omega)]

theorem storeWords_filled {inv : σ → Prop} {view : σ → Nat → UInt8} {lo hi : Nat} (h : Stores store inv view lo hi)
    (s : σ) (ws : List PortWord) (hs : inv s) (hlo : lo ≤ buffer) (heven : (buffer - lo) % 2 = 0)
    (hhi : buffer + 2 * ws.length ≤ hi) (hend : hi ≤ 2 ^ width) :
    ∃ t, storeWords width store buffer ws s = some t ∧ inv t ∧ view t = filled (view s) buffer ws := by
  induction ws generalizing buffer s with
  | nil =>
    refine ⟨s, rfl, hs, funext fun x => ?_⟩
    simp [filled]
  | cons w ws ih =>
    rw [List.length_cons] at hhi
    obtain ⟨t, hstore, ht, hview⟩ := h w hs hlo (by omega) heven
    rw [storeWords, hstore, Option.bind_some]
    cases ws with
    | nil => exact ⟨t, rfl, ht, by rw [hview, ← filled_cons]; funext x; simp [filled]⟩
    | cons w' ws =>
      rw [List.length_cons] at hhi
      have hmod : (buffer + 2) % 2 ^ width = buffer + 2 := Nat.mod_eq_of_lt (by omega)
      rw [hmod]
      obtain ⟨u, hrest, hu, hview'⟩ := ih t ht (show lo ≤ buffer + 2 by omega) (by omega)
        (by rw [List.length_cons]; omega)
      exact ⟨u, hrest, hu, by rw [hview', hview, filled_cons]⟩

/-- `read_disk` with a device that is idle: the first words are those of the sectors that the low 8 bits of the count
name, provided that the device has each sector but the first at hand when the one before it has been read. -/
theorem readDisk_eq (width : Nat) (store : σ → Nat → PortWord → Option σ) (buffer startSector sectorNum : Nat) (s : σ)
    (h : d.phase = .idle)
    (hfuel : d.latency (startSector % 2 ^ 28) < fuel)
    (hleft : left = if sectorNum % 256 = 0 then 256 else sectorNum % 256)
    (hnext : ∀ k, 0 < k → k < left → d.latency (startSector % 2 ^ 28 + k) = 0) :
    ∃ ws d', ws.length = loopRounds width (sectorNum * 256) ∧
      (∀ i, i < loopRounds width (sectorNum * 256) → i < 256 * left →
        ws[i]? = some (wordAt d.disk (startSector % 2 ^ 28 * Ata.sectorSize + 2 * i))) ∧
      (256 * left ≤ loopRounds width (sectorNum * 256) → d'.phase = .idle) ∧ SameDrive d d' ∧
      readDisk width store fuel buffer startSector sectorNum (d, s) =
        (storeWords width store buffer ws s).map fun s => (d', s) := by
  have hpos : 0 < left := by
    rw [hleft]
    split_ifs <;> omega
  obtain ⟨hseek, hsame⟩ := setUp_phase h startSector sectorNum
  rw [← hleft] at hseek
  have hseek' : (setUp startSector sectorNum d).phase =
      (setUp startSector sectorNum d).seek (startSector % 2 ^ 28) left := by
    rw [hseek, Device.seek, Device.seek, hsame.latency]
  obtain ⟨d₁, hd₁, hready, hsame₁⟩ := hdNotReady_seek hseek' (by rwa [hsame.latency])
  have hdrive := hsame.trans hsame₁
  obtain ⟨hwords, hidle⟩ := readWords_sectors (loopRounds width (sectorNum * 256)) hready hpos
    (by rwa [hdrive.latency])
  rw [hdrive.disk] at hwords
  refine ⟨_, _, length_readWords _ d₁, hwords, hidle, hdrive.trans (sameDrive_readWords _ d₁), ?_⟩
  rw [readDisk, hd₁]
  exact goOnReadData_eq width store _ buffer d₁ s

/-! ## The driver -/

section Driver

open DiskSectors (Reader)
open HardDisk (sectorSize uint32Add uint32Sub Turn turns)

/-- `mov [ebx], ax` -/
def movWord (m : Nat → UInt8) (a : Nat) (w : PortWord) : Option (Nat → UInt8) := some (put16 m a w)

/-- `read_sector`. The memory has the indexes of the sector buffer. -/
def readSector (fuel : Nat) (s : Device × Reader) (sector : Nat) : Option (Device × Reader) :=
  (readDisk 32 movWord fuel 0 sector 1 (s.1, s.2.sectorBuffer)).map fun r =>
    (r.1, { s.2 with sectorBuffer := r.2, sectors := s.2.sectors ++ [sector] })

/-- One turn of the loop of `read_hard_disk`. -/
def copySector (fuel : Nat) (s : Device × Reader) (t : Turn) : Option (Device × Reader) :=
  (readSector fuel s t.sector).map fun r => (r.1, DiskSectors.copyTurn r.2 t)

/-- `read_hard_disk`, with the device behind the driver. -/
def readHardDisk (fuel : Nat) (d : Device) (garbage : Nat → Byte) (buffer start length : Nat) : Option (Device × Reader) :=
  (turns start length).foldlM (copySector fuel) (d, ⟨buffer, garbage, [], []⟩)

theorem stores_movWord : Stores movWord (fun _ => True) id 0 (2 ^ 32) :=
  fun _ _ _ _ _ => ⟨_, rfl, trivial, rfl⟩

/-- An idle device whose sectors all take less than `fuel` accesses. -/
def Usable (fuel : Nat) (d : Device) : Prop := d.phase = .idle ∧ ∀ sector, d.latency sector < fuel

theorem loopRounds_one : loopRounds 32 (1 * 256) = 256 := by decide

/-- `read_sector` delivers the bytes of the sector, however long the device takes. -/
theorem readSector_eq {r : Reader} {sector : Nat} (h : Usable fuel d) (hsector : sector < 2 ^ 28) :
    ∃ d', readSector fuel (d, r) sector = some (d', DiskSectors.readSector d.disk r sector) ∧
      Usable fuel d' ∧ d'.disk = d.disk := by
  have hnumber : sector % 2 ^ 28 = sector := Nat.mod_eq_of_lt hsector
  obtain ⟨ws, d', hlength, hwords, hidle, hsame, hread⟩ := readDisk_eq 32 movWord 0 sector 1
    r.sectorBuffer h.1 (h.2 _) (show 1 = _ from rfl) (fun k _ _ => by omega)
  rw [loopRounds_one] at hlength hwords hidle
  rw [hnumber] at hwords
  obtain ⟨m, hstore, -, hm⟩ := storeWords_filled stores_movWord r.sectorBuffer ws
    trivial (Nat.le_refl 0) rfl (show 0 + 2 * ws.length ≤ 2 ^ 32 by rw [hlength]; decide) (Nat.le_refl (2 ^ 32))
  have hbytes : m = (DiskSectors.readSector d.disk r sector).sectorBuffer := by
    funext x
    have hsize : sectorSize = 512 := rfl
    change m x = if x < sectorSize then d.disk (sector * sectorSize + x) else r.sectorBuffer x
    rw [id, id] at hm
    rw [hm]
    split_ifs with hx
    · exact filled_of_lt (fun i hi => hwords i hi (by omega)) (Nat.zero_le x) (by omega)
    · exact filled_of_ge (.inr (by omega))
  refine ⟨d', ?_, ⟨hidle (Nat.le_refl _), by rw [hsame.latency]; exact h.2⟩, hsame.disk⟩
  rw [readSector, hread, hstore, hbytes]
  rfl

theorem copySector_eq {r : Reader} {t : Turn} (h : Usable fuel d) (ht : t.sector < 2 ^ 28) :
    ∃ d', copySector fuel (d, r) t = some (d', DiskSectors.copySector d.disk r t) ∧ Usable fuel d' ∧ d'.disk = d.disk := by
  obtain ⟨d', hread, husable, hdisk⟩ := readSector_eq (r := r) h ht
  exact ⟨d', by rw [copySector, hread]; rfl, husable, hdisk⟩

theorem foldlM_copySector {r : Reader} (ts : List Turn) (h : Usable fuel d) (hsectors : ∀ t ∈ ts, t.sector < 2 ^ 28) :
    ∃ d', ts.foldlM (copySector fuel) (d, r) = some (d', ts.foldl (DiskSectors.copySector d.disk) r) ∧ Usable fuel d' := by
  induction ts generalizing d r with
  | nil => exact ⟨d, rfl, h⟩
  | cons t ts ih =>
    obtain ⟨d₁, hcopy, h₁, hdisk⟩ := copySector_eq (r := r) h (hsectors t (List.mem_cons_self ..))
    obtain ⟨d₂, hrest, h₂⟩ := ih h₁ fun u hu => hsectors u (List.mem_cons_of_mem t hu)
    refine ⟨d₂, ?_, h₂⟩
    rw [List.foldlM_cons, hcopy, List.foldl_cons, ← hdisk]
    exact hrest

/-- The sectors of `read_hard_disk` have numbers of less than 28 bits. -/
theorem sector_lt {start length : Nat} {t : Turn} (ht : t ∈ turns start length) : t.sector < 2 ^ 28 := by
  have hstop : uint32Sub (uint32Add start length) 1 < 2 ^ 32 := Nat.mod_lt _ (by decide)
  have hsize : sectorSize = 512 := rfl
  rw [turns, List.mem_map] at ht
  obtain ⟨i, hi, rfl⟩ := ht
  rw [List.mem_range'_1] at hi
  have hlast : uint32Sub (uint32Add start length) 1 / sectorSize < 2 ^ 23 := by
    rw [hsize]
    omega
  change i < 2 ^ 28
  omega

/-- `read_hard_disk` with the driver and the device behind it does what it does with a disk that delivers sectors. -/
theorem readHardDisk_refines (h : Usable fuel d) (garbage : Nat → Byte) (buffer start length : Nat) :
    ∃ d', readHardDisk fuel d garbage buffer start length =
        some (d', DiskSectors.readHardDisk d.disk garbage buffer start length) ∧ Usable fuel d' :=
  foldlM_copySector _ h fun _ ht => sector_lt ht

/-- With any idle device `read_hard_disk` returns, stores the bytes of the range from the buffer on and nothing else,
and leaves the device idle. -/
theorem read_hard_disk_delivers (h : Usable fuel d) (garbage : Nat → Byte) (buffer : Nat) {start length : Nat}
    (hlength : 1 ≤ length) (hend : start + length ≤ 2 ^ 32 - 512) :
    ∃ d' r, readHardDisk fuel d garbage buffer start length = some (d', r) ∧ Usable fuel d' ∧
      r.stores = (List.range length).map fun k => (uint32Add buffer k, d.disk (start + k)) := by
  obtain ⟨d', hread, husable⟩ := readHardDisk_refines h garbage buffer start length
  exact ⟨d', _, hread, husable, (DiskSectors.copied_readHardDisk d.disk garbage buffer hlength hend).2⟩

/-- A device that is slow at every third sector. -/
def slowDevice : Device where
  disk := fun a => UInt8.ofNat a
  latency := fun sector => sector % 3
  floating := fun time => (UInt8.ofNat time, 0xFF)
  time := 0
  sectorCount := 1
  lbaLow := 1
  lbaMid := 0
  lbaHigh := 0
  drive := 0
  phase := .idle

theorem slowDevice_delivers : ∃ d r, readHardDisk 3 slowDevice (fun _ => 0) 0xC0D00000 1023 2 = some (d, r) ∧
    Usable 3 d ∧ r.stores = [(0xC0D00000, 255), (0xC0D00001, 0)] := by
  have husable : Usable 3 slowDevice := ⟨rfl, fun sector => Nat.mod_lt sector (by decide)⟩
  exact read_hard_disk_delivers husable (fun _ => 0) 0xC0D00000 (by decide) (by decide)

end Driver

end LuckOS.ReadDisk
