import LuckOS.FileSystem

/-!
# Slices of files

`read_file` passes any start and length of the caller to `naive_fs_read_data`. Of each byte that
`read_hard_disk` copies to the buffer it is known where the byte comes from, also where the size
of the last sector of the address space wraps.
-/

namespace LuckOS

/-- The address on the disk at which the contents of a file start. -/
def NaiveFileMeta.base (m : NaiveFileMeta) : Nat := NaiveFs.partitionOffset + m.offset

namespace FileSystem

open HardDisk
open NaiveFs (partitionOffset)

/-- The value of a `uint32` that is returned as an `int32`. -/
def ofUint32 (n : Nat) : Int := if n < 2 ^ 31 then n else n - 2 ^ 32

/-- `read_file`, which calls `naive_fs_read_data`: the result and the bytes that are stored
from the buffer on. -/
def readFile (fs : State) (filename : List Byte) (start length : Nat) : Option (Int × List Source) :=
  (findMeta filename fs.fileMetas).map fun
    | some m =>
      let length := if m.size < length then m.size else length
      (ofUint32 length, copyHardDisk (uint32Add (uint32Add partitionOffset m.offset) start) length)
    | none => (-1, [])

/-- The number of bytes that a read of a slice delivers. -/
def sliceLength (size start length : Nat) : Nat := if size ≤ start then 0 else min length (size - start)

/-- The result of a read is the slice of the file `m`. -/
structure ReadsSlice (metas : List NaiveFileMeta) (m : NaiveFileMeta) (start length : Nat) (r : Int × List Source) : Prop where
  returned : r.1 = sliceLength m.size start length
  stored : r.2 = (List.range' (m.base + start) (sliceLength m.size start length)).map .disk
  inside : ∀ s ∈ r.2, ∃ a, s = .disk a ∧ m.base ≤ a ∧ a < m.base + m.size
  own : ∀ s ∈ r.2, ∀ m' ∈ metas, m' ≠ m → ∀ a, s = .disk a → ¬ (m'.base ≤ a ∧ a < m'.base + m'.size)

/-- The files lie on the disk and do not overlap. -/
structure DataApart (metas : List NaiveFileMeta) : Prop where
  fits : ∀ m ∈ metas, m.base + m.size ≤ 2 ^ 32
  apart : ∀ m ∈ metas, ∀ m' ∈ metas, m' ≠ m → m.base + m.size ≤ m'.base ∨
    m'.base + m'.size ≤ m.base

variable {start stop length i n : Nat}

/-- The sizes of the copies out of the last sector. -/
theorem length_lastSector (start stop : Nat) (hstart : start < 2 ^ 32) :
    (copySectors start stop 1 lastSector).length = 2 ^ 32 - max (2 ^ 32 - 512) start := by
  obtain ⟨hfirst, hend⟩ := lastSector_eq
  have hsize : uint32Sub 0 (max (2 ^ 32 - 512) start) = 2 ^ 32 - max (2 ^ 32 - 512) start := by
    rw [uint32Sub]
    omega
  have hmod : (2 ^ 32 - 512) % 2 ^ 32 = 2 ^ 32 - 512 := by decide
  rw [length_copySectors_succ, hfirst, hend, copySectors_zero, Nat.mod_self, Nat.zero_min, hmod, hsize,
    memcpyNum_of_lt (by omega), List.length_nil, Nat.add_zero]

/-- A range that ends in front of the last sector, or with it, is copied as it is. -/
theorem copyHardDisk_eq (hpos : 0 < length)
    (hrange : start + length ≤ 2 ^ 32 - 512 ∨ 2 ^ 32 - 512 ≤ start ∧ start + length = 2 ^ 32) :
    copyHardDisk start length = (List.range' start length).map .disk := by
  rcases hrange with hrange | ⟨hlast, hend⟩
  · exact copyHardDisk_of_le hpos hrange
  · obtain ⟨hfirst, hnext⟩ := lastSector_eq
    have hstop : uint32Add start length = 0 := by
      rw [uint32Add, hend]
      rfl
    have hprev : uint32Sub 0 1 = 2 ^ 32 - 1 := by decide
    have hsector : sectorSize = 512 := rfl
    have hcount : lastSector + 1 - lastSector = 1 := rfl
    have hmod : (2 ^ 32 - 512) % 2 ^ 32 = 2 ^ 32 - 512 := by decide
    have hturn : turn start 0 lastSector = ⟨lastSector, start - (2 ^ 32 - 512), length⟩ := by
      simp only [turn, hfirst, hmod, Nat.min_zero, Nat.max_eq_right hlast, uint32Sub, Turn.mk.injEq, true_and]
      omega
    rw [copyHardDisk_eq_copySectors, hstop, hprev, lastSector_of_le (by omega) (by omega), lastSector_of_le hlast (by omega),
      hcount, copySectors_succ, copySectors_zero, List.append_nil, hturn, Turn.sources]
    dsimp only
    rw [memcpyNum_of_lt (by omega), List.range'_eq_map_range, List.map_map]
    refine List.map_congr_left fun k hk => ?_
    rw [List.mem_range] at hk
    have hindex : uint32Add (start - (2 ^ 32 - 512)) k = start - (2 ^ 32 - 512) + k := Nat.mod_eq_of_lt (by omega)
    rw [hindex, sectorSource, if_pos (by omega), hfirst]
    simp only [Function.comp, Source.disk.injEq]
    omega

/-- Any other range that lies on the disk is copied with more bytes than it has. -/
theorem length_copyHardDisk (hpos : 0 < length) (hlt : length < 2 ^ 31) (hend : start + length ≤ 2 ^ 32)
    (hrange : ¬ (start + length ≤ 2 ^ 32 - 512 ∨ 2 ^ 32 - 512 ≤ start ∧ start + length = 2 ^ 32)) :
    length < (copyHardDisk start length).length := by
  obtain ⟨hlo, hhi⟩ := sector_bounds start
  obtain ⟨hfirst, hlast⟩ := lastSector_eq
  have hsector : sectorSize = 512 := rfl
  by_cases htop : start + length = 2 ^ 32
  · have hstop : uint32Add start length = 0 := by
      rw [uint32Add, htop]
      rfl
    have hprev : uint32Sub 0 1 = 2 ^ 32 - 1 := by decide
    have hbefore : start / sectorSize < lastSector := by
      refine Nat.div_lt_of_lt_mul ?_
      rw [Nat.mul_comm, hfirst]
      omega
    obtain ⟨count, hcount⟩ : ∃ count, lastSector + 1 - start / sectorSize = count + 1 + 1 :=
      ⟨lastSector - 1 - start / sectorSize, by omega⟩
    have hnext : (start / sectorSize + 1) * sectorSize ≤ lastSector * sectorSize := Nat.mul_le_mul_right _ hbefore
    have hsucc : (start / sectorSize + 1) * sectorSize = start / sectorSize * sectorSize + sectorSize := Nat.succ_mul ..
    -- the range starts behind 2 GB, so that no size is negative
    have hsize : memcpyNum (uint32Sub 0 start) = length := by
      rw [memcpyNum_of_lt] <;> rw [uint32Sub] <;> omega
    have hsize' : 0 < memcpyNum (uint32Sub 0 (max ((start / sectorSize + 1) * sectorSize) start)) := by
      rw [memcpyNum_of_lt] <;> rw [uint32Sub] <;> omega
    rw [copyHardDisk_eq_copySectors, hstop, hprev, lastSector_of_le (by omega) (by omega), hcount, length_copySectors_succ,
      length_copySectors_succ, Nat.min_zero, Nat.min_zero, Nat.mod_eq_of_lt (by omega), Nat.mod_eq_of_lt (by omega),
      Nat.max_eq_right hlo, hsize]
    omega
  · have hstop : uint32Add start length = start + length := Nat.mod_eq_of_lt (by omega)
    have hprev : uint32Sub (start + length) 1 = start + length - 1 := uint32Sub_of_le (by omega) (by omega)
    have hle : start / sectorSize ≤ lastSector := by
      rw [← lastSector_of_le (n := start + length - 1) (by omega) (by omega)]
      exact Nat.div_le_div_right (by omega)
    have hcount : lastSector + 1 - start / sectorSize = lastSector - start / sectorSize + 1 := by omega
    have hsum : start / sectorSize + (lastSector - start / sectorSize) = lastSector := by omega
    have hfront : (copySectors start (start + length) (lastSector - start / sectorSize) (start / sectorSize)).length =
        min (2 ^ 32 - 512) (start + length) - start := by
      rw [copySectors_eq (by omega) (by omega) hhi (by rw [hsum, hfirst]; decide) fun j hj => ?_, hsum, hfirst,
        List.length_map, List.length_range', Nat.max_eq_right hlo]
      have hj' : j * sectorSize ≤ lastSector * sectorSize := Nat.mul_le_mul_right _ (by omega)
      omega
    rw [copyHardDisk_eq_copySectors, hstop, hprev, lastSector_of_le (by omega) (by omega), hcount, copySectors_append,
      List.length_append, hfront, hsum, length_lastSector _ _ (by omega)]
    omega

/-- From the address zero on, an empty range makes `read_hard_disk` read all sectors and copy more than the buffer holds:
the first sector behind 2 GB is one whose size is not negative. -/
theorem copyHardDisk_zero_zero : copyHardDisk 0 0 ≠ [] := by
  intro hnil
  have hstop : uint32Add 0 0 = 0 := rfl
  have hcount : uint32Sub 0 1 / sectorSize + 1 - 0 / sectorSize = 4194305 + (4194302 + 1) := by decide
  have hsector : 0 / sectorSize + 4194305 = 4194305 := rfl
  have hlength := congrArg List.length hnil
  rw [copyHardDisk_eq_copySectors, hstop, hcount, copySectors_append 0 0 4194305 (4194302 + 1), List.length_append, hsector,
    length_copySectors_succ 0 0 4194302 4194305] at hlength
  have hsize : memcpyNum (uint32Sub (min ((4194305 + 1) * sectorSize % 2 ^ 32) 0)
      (max (4194305 * sectorSize % 2 ^ 32) 0)) = 2147483136 := by decide
  rw [hsize, List.length_nil] at hlength
  omega

/-- An empty range is copied as it is, unless it starts at the address zero or inside of the
last sector. -/
theorem copyHardDisk_zero (hlt : start < 2 ^ 32) :
    copyHardDisk start 0 = [] ↔ start ≠ 0 ∧ (start % sectorSize = 0 ∨ start < 2 ^ 32 - 512) := by
  by_cases hzero : start = 0
  · rw [hzero]
    exact iff_of_false copyHardDisk_zero_zero fun hcond => hcond.1 rfl
  · rw [and_iff_right hzero]
    by_cases hbefore : start < 2 ^ 32 - 512
    · exact iff_of_true (copyHardDisk_empty (by omega) hbefore) (.inr hbefore)
    · rw [or_iff_left hbefore]
      have hsector : sectorSize = 512 := rfl
      obtain ⟨hfirst, -⟩ := lastSector_eq
      have hstop : uint32Add start 0 = start := Nat.mod_eq_of_lt hlt
      have hprev : uint32Sub start 1 = start - 1 := uint32Sub_of_le (by omega) hlt
      have hlast := lastSector_of_le (by omega) hlt
      rw [copyHardDisk_eq_copySectors, hstop, hprev]
      by_cases hmod : start % sectorSize = 0
      · have hcount : (start - 1) / sectorSize + 1 - start / sectorSize = 0 := by
          rw [hsector] at hmod ⊢
          omega
        rw [hcount, copySectors_zero]
        exact iff_of_true rfl hmod
      · have hcount : (start - 1) / sectorSize + 1 - start / sectorSize = 1 := by
          rw [hsector] at hmod ⊢
          omega
        refine iff_of_false (fun hnil => ?_) hmod
        have hlength := congrArg List.length hnil
        rw [hcount, hlast, length_lastSector _ _ hlt, List.length_nil] at hlength
        omega

/-- The address on the disk at which a read starts. -/
def readAddress (m : NaiveFileMeta) (start : Nat) : Nat := uint32Add (uint32Add partitionOffset m.offset) start

/-- The reads that deliver the slice they are asked for. The length is cut down to the size of
the file, whatever the start, and what is left must lie inside of the file. -/
structure ReadInside (m : NaiveFileMeta) (start length : Nat) : Prop where
  empty : min length m.size = 0 → readAddress m start ≠ 0 ∧
    (readAddress m start % sectorSize = 0 ∨ readAddress m start < 2 ^ 32 - 512)
  slice : min length m.size ≠ 0 → start + min length m.size ≤ m.size
  signed : min length m.size < 2 ^ 31
  sectors : min length m.size ≠ 0 → m.base + start + min length m.size ≤ 2 ^ 32 - 512 ∨
    2 ^ 32 - 512 ≤ m.base + start ∧ m.base + start + min length m.size = 2 ^ 32

variable {fs : State} {filename : List Byte} {m : NaiveFileMeta}

theorem readFile_of_find (hfind : findMeta filename fs.fileMetas = some (some m)) (start length : Nat) :
    readFile fs filename start length =
      some (ofUint32 (min length m.size), copyHardDisk (readAddress m start) (min length m.size)) := by
  have hmin : (if m.size < length then m.size else length) = min length m.size := by
    split_ifs <;> omega
  unfold readFile
  rw [hfind]
  simp only [Option.map_some, hmin]
  rfl

theorem mem_of_findMeta {metas : List NaiveFileMeta} (hfind : findMeta filename metas = some (some m)) : m ∈ metas := by
  induction metas with
  | nil => cases hfind
  | cons m' metas ih =>
    rw [findMeta, Option.bind_eq_some_iff] at hfind
    obtain ⟨r, -, hr⟩ := hfind
    split_ifs at hr
    · rw [Option.some.inj (Option.some.inj hr)]
      exact List.mem_cons_self ..
    · exact List.mem_cons_of_mem _ (ih hr)

/-- The bytes of a slice are bytes of the file, and of no other. -/
theorem readsSlice_of_eq {metas : List NaiveFileMeta} {r : Int × List Source} (hmetas : DataApart metas) (hm : m ∈ metas)
    (hreturned : r.1 = sliceLength m.size start length)
    (hstored : r.2 = (List.range' (m.base + start) (sliceLength m.size start length)).map .disk) :
    ReadsSlice metas m start length r := by
  have hinside : ∀ s ∈ r.2, ∃ a, s = .disk a ∧ m.base ≤ a ∧ a < m.base + m.size := by
    intro s hs
    rw [hstored, List.mem_map] at hs
    obtain ⟨a, ha, rfl⟩ := hs
    rw [List.mem_range'_1, sliceLength] at ha
    refine ⟨a, rfl, by omega, ?_⟩
    split_ifs at ha <;> omega
  refine ⟨hreturned, hstored, hinside, fun s hs m' hm' hne a ha hother => ?_⟩
  obtain ⟨a', rfl, hlo, hhi⟩ := hinside s hs
  cases ha
  have hapart := hmetas.apart m hm m' hm' hne
  omega

/-- A read of an existing file delivers the slice it is asked for exactly if the slice lies
inside of the file, and out of reach of the last sector of the address space. -/
theorem reads_slice_iff (hmetas : DataApart fs.fileMetas) (hfind : findMeta filename fs.fileMetas = some (some m))
    (hstart : start < 2 ^ 32) (hlength : length < 2 ^ 32) :
    (∃ r, readFile fs filename start length = some r ∧ ReadsSlice fs.fileMetas m start length r) ↔
      ReadInside m start length := by
  have hm := mem_of_findMeta hfind
  have hfits := hmetas.fits m hm
  rw [readFile_of_find hfind]
  have hslice : min length m.size = 0 → sliceLength m.size start length = 0 := by
    intro hzero
    rw [sliceLength]
    split_ifs <;> omega
  have hsigned : (ofUint32 (min length m.size) = sliceLength m.size start length) ↔
      min length m.size < 2 ^ 31 ∧ (min length m.size ≠ 0 → start + min length m.size ≤ m.size) := by
    rw [ofUint32, sliceLength]
    split_ifs <;> omega
  by_cases hzero : min length m.size = 0
  · have hempty : copyHardDisk (readAddress m start) 0 = [] ↔ _ := copyHardDisk_zero (Nat.mod_lt _ (by decide))
    constructor
    · rintro ⟨r, hr, hreads⟩
      obtain rfl := Option.some.inj hr
      have hstored := hreads.stored
      rw [hslice hzero, hzero] at hstored
      exact ⟨fun _ => hempty.mp hstored, fun hne => absurd hzero hne, by omega, fun hne => absurd hzero hne⟩
    · intro hinside
      refine ⟨_, rfl, readsSlice_of_eq hmetas hm (hsigned.mpr ⟨by omega, hinside.slice⟩) ?_⟩
      rw [hslice hzero, hzero]
      exact hempty.mpr (hinside.empty hzero)
  · have hplace : start + min length m.size ≤ m.size → readAddress m start = m.base + start := by
      intro hle
      rw [NaiveFileMeta.base] at hfits ⊢
      rw [readAddress, uint32Add, uint32Add, Nat.mod_eq_of_lt (a := partitionOffset + m.offset) (by omega),
        Nat.mod_eq_of_lt (by omega)]
    have hwhole : start + min length m.size ≤ m.size → sliceLength m.size start length = min length m.size := by
      intro hle
      rw [sliceLength, if_neg (by omega)]
      omega
    constructor
    · rintro ⟨r, hr, hreads⟩
      obtain rfl := Option.some.inj hr
      obtain ⟨hlt, hle⟩ := hsigned.mp hreads.returned
      have hle := hle hzero
      refine ⟨fun heq => absurd heq hzero, fun _ => hle, hlt, fun _ => ?_⟩
      by_contra hrange
      have hlong := length_copyHardDisk (by omega) (by omega) (by omega) hrange
      have hstored : (copyHardDisk _ _).length = _ := congrArg List.length hreads.stored
      rw [hplace hle, hwhole hle, List.length_map, List.length_range'] at hstored
      omega
    · intro hinside
      have hle := hinside.slice hzero
      refine ⟨_, rfl, readsSlice_of_eq hmetas hm (hsigned.mpr ⟨hinside.signed, hinside.slice⟩) ?_⟩
      rw [hplace hle, hwhole hle]
      exact copyHardDisk_eq (by omega) (hinside.sectors hzero)

/-- A file of four bytes behind its record. -/
def sampleFile : NaiveFileMeta := ⟨[97, 0], 4, 76⟩

theorem sample_dataApart : DataApart [sampleFile] where
  fits m hm := by
    rw [List.mem_singleton.mp hm]
    decide
  apart m hm m' hm' hne := absurd ((List.mem_singleton.mp hm').trans (List.mem_singleton.mp hm).symm) hne

/-- The two bytes in the middle of the file are read. -/
theorem sample_reads_slice : ∃ r, readFile ⟨1, [sampleFile]⟩ [97, 0] 1 2 = some r ∧ ReadsSlice [sampleFile] sampleFile 1 2 r := by
  have hfind : findMeta [97, 0] [sampleFile] = some (some sampleFile) := rfl
  exact (reads_slice_iff sample_dataApart hfind (by decide) (by decide)).mpr
    ⟨by decide, by decide, by decide, by decide⟩

/-- A read that starts in the middle of the file runs over its end. -/
theorem read_past_end : ∃ r, readFile ⟨1, [sampleFile]⟩ [97, 0] 2 4 = some r ∧ r.1 = 4 ∧
    r.2 = (List.range' (sampleFile.base + 2) 4).map .disk ∧ sliceLength sampleFile.size 2 4 = 2 ∧
    ¬ ReadsSlice [sampleFile] sampleFile 2 4 r := by
  refine ⟨(4, (List.range' (sampleFile.base + 2) 4).map .disk), by decide +kernel, rfl, rfl, rfl, fun hreads => ?_⟩
  cases hreads.returned

end FileSystem

end LuckOS
