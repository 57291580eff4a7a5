import LuckOS.KernelStores

/-!
# The file system of `fs/naive_fs.c` and its image writer

`user/disk_image_writer.c` writes the number of files, a record of 72 bytes for each of them, and their
contents. The kernel finds this image at sector 2057 and reads it through `read_hard_disk`. A string in memory is a list of bytes that goes at least up to its terminating
zero.
-/

namespace LuckOS

/-- An `int` of four bytes, the lowest one first. -/
def intBytes (v : Nat) : List Byte :=
  [UInt8.ofNat v, UInt8.ofNat (v / 2 ^ 8), UInt8.ofNat (v / 2 ^ 16), UInt8.ofNat (v / 2 ^ 24)]

/-- A `uint32` from four bytes. -/
def ofIntBytes : List Byte → Nat
  | [a, b, c, d] => a.toNat + 2 ^ 8 * b.toNat + 2 ^ 16 * c.toNat + 2 ^ 24 * d.toNat
  | _ => 0

theorem length_intBytes (v : Nat) : (intBytes v).length = 4 := rfl

theorem ofIntBytes_intBytes {v : Nat} (h : v < 2 ^ 32) : ofIntBytes (intBytes v) = v := by
  simp [ofIntBytes, intBytes]
  omega

/-! ## The hard disk -/

namespace HardDisk

/-- The bytes from an address on. -/
def bytesAt (disk : Nat → Byte) (start length : Nat) : List Byte := (List.range' start length).map disk

/-- `read_hard_disk` with the bytes that are copied to the buffer. What lies behind the sector buffer, which is
reached from the last sector of the address space only, counts as zero. -/
def readHardDisk (disk : Nat → Byte) (start length : Nat) : List Byte :=
  (copyHardDisk start length).map (Source.value disk fun _ => 0)

variable {disk : Nat → Byte} {start stop i n : Nat}

theorem length_bytesAt (disk : Nat → Byte) (start n : Nat) : (bytesAt disk start n).length = n := by
  simp [bytesAt]

theorem bytesAt_append (disk : Nat → Byte) (start m n : Nat) :
    bytesAt disk start m ++ bytesAt disk (start + m) n = bytesAt disk start (m + n) := by
  rw [bytesAt, bytesAt, bytesAt, ← List.map_append, List.range'_append_1]

theorem take_drop_bytesAt {k m : Nat} (h : k + m ≤ n) :
    ((bytesAt disk start n).drop k).take m = bytesAt disk (start + k) m := by
  obtain ⟨r, rfl⟩ := Nat.exists_eq_add_of_le h
  rw [Nat.add_assoc, ← bytesAt_append, List.drop_left' (length_bytesAt ..), ← bytesAt_append,
    List.take_left' (length_bytesAt ..)]

/-- An empty range in front of the last sector is copied as it is. -/
theorem copyHardDisk_empty (hpos : 0 < start) (hlt : start < 2 ^ 32 - 512) : copyHardDisk start 0 = [] := by
  obtain ⟨hlo, hhi⟩ := sector_bounds start
  have hsector : sectorSize = 512 := rfl
  have hsucc : (start / sectorSize + 1) * sectorSize = start / sectorSize * sectorSize + sectorSize := Nat.succ_mul ..
  have hstop : uint32Add start 0 = start := Nat.mod_eq_of_lt (by omega)
  have hprev : uint32Sub start 1 = start - 1 := uint32Sub_of_le (by omega) (by omega)
  rw [copyHardDisk_eq_copySectors, hstop, hprev]
  by_cases hmod : start % sectorSize = 0
  · have hcount : (start - 1) / sectorSize + 1 - start / sectorSize = 0 := by
      rw [hsector] at hmod ⊢
      omega
    rw [hcount, copySectors_zero]
  · have hcount : (start - 1) / sectorSize + 1 - start / sectorSize = 1 := by
      rw [hsector] at hmod ⊢
      omega
    have hzero : min ((start / sectorSize + 1) * sectorSize) start - max (start / sectorSize * sectorSize) start = 0 := by
      omega
    rw [hcount, copySectors_succ, sources_eq hhi hlo (Nat.le_refl _) (by omega) (by omega), hzero, copySectors_zero]
    rfl

/-- `read_hard_disk` reads the bytes from `start` on. -/
theorem readHardDisk_eq {length : Nat} (hpos : 0 < start) (hlt : start + length < 2 ^ 32 - 512) :
    readHardDisk disk start length = bytesAt disk start length := by
  rw [readHardDisk, bytesAt]
  rcases Nat.eq_zero_or_pos length with rfl | hlength
  · rw [copyHardDisk_empty hpos (by omega)]
    rfl
  · rw [copyHardDisk_of_le hlength (by omega), List.map_map]
    rfl

end HardDisk

/-! ## The image writer -/

namespace DiskImageWriter

/-- A file: its name without the terminating zero, and its contents. -/
structure File where
  name : List Byte
  data : List Byte

/-- The record of a file, with the offset of its contents. -/
def record (f : File) (offset : Nat) : List Byte :=
  f.name ++ List.replicate (64 - f.name.length) 0 ++ intBytes f.data.length ++ intBytes offset

/-- The loop that writes the records. -/
def records : Nat → List File → List Byte
  | _, [] => []
  | offset, f :: files => record f offset ++ records (offset + f.data.length) files

/-- The image. -/
def image (files : List File) : List Byte :=
  intBytes files.length ++ records (4 + files.length * (64 + 4 + 4)) files ++ files.flatMap File.data

end DiskImageWriter

/-! ## The kernel -/

/-- `naive_file_meta_t`. -/
structure NaiveFileMeta where
  filename : List Byte
  size : Nat
  offset : Nat

/-- `strcmp` of two strings in memory, on `char`, which is signed. It is undefined without a terminating zero. -/
def strcmp : List Byte → List Byte → Option Int
  | c :: str1, c2 :: str2 =>
    if c = 0 then some (if c2 = 0 then 0 else 1)
    else if c2 = 0 then some 1
    else if c ≠ c2 then some (if c.toInt8 < c2.toInt8 then -1 else 1)
    else strcmp str1 str2
  | _, _ => none

namespace FileSystem

open HardDisk

open NaiveFs (partitionOffset)

/-- `file_num` and the array `file_metas`. -/
structure State where
  fileNum : Nat
  fileMetas : List NaiveFileMeta

/-- The fields of a record in memory. -/
def ofRecord (bytes : List Byte) : NaiveFileMeta where
  filename := bytes.take 64
  size := ofIntBytes ((bytes.drop 64).take 4)
  offset := ofIntBytes ((bytes.drop 68).take 4)

/-- An array of records in memory. -/
def ofRecords : Nat → List Byte → List NaiveFileMeta
  | 0, _ => []
  | n + 1, bytes => ofRecord (bytes.take 72) :: ofRecords n (bytes.drop 72)

/-- `init_naive_fs`. -/
def initNaiveFs (disk : Nat → Byte) : State :=
  let fileNum := ofIntBytes (readHardDisk disk (0 + partitionOffset) 4)
  let metaSize := fileNum * 72 % 2 ^ 32
  ⟨fileNum, ofRecords fileNum (readHardDisk disk (4 + partitionOffset) metaSize)⟩

/-- The loops that look for a file name. -/
def findMeta (filename : List Byte) : List NaiveFileMeta → Option (Option NaiveFileMeta)
  | [] => some none
  | m :: metas => (strcmp m.filename filename).bind fun r => if r = 0 then some (some m) else findMeta filename metas

/-- `naive_fs_stat_file`, with the size that it stores. -/
def statFile (fs : State) (filename : List Byte) : Option (Int × Option Nat) :=
  (findMeta filename fs.fileMetas).map fun
    | some m => (0, some m.size)
    | none => (-1, none)

/-- `naive_fs_read_data`, with the bytes that it stores. -/
def readData (disk : Nat → Byte) (fs : State) (filename : List Byte) (start length : Nat) : Option (Int × List Byte) :=
  (findMeta filename fs.fileMetas).map fun
    | some m =>
      let length := min length m.size
      (length, readHardDisk disk (uint32Add (uint32Add partitionOffset m.offset) start) length)
    | none => (-1, [])

open DiskImageWriter

/-- The image is placed at the partition. -/
def Holds (disk : Nat → Byte) (files : List File) : Prop :=
  bytesAt disk partitionOffset (image files).length = image files

/-- Names are distinct, and fit into a record with their terminating zero. -/
structure Names (files : List File) : Prop where
  distinct : (files.map File.name).Nodup
  length_pos : ∀ f ∈ files, 0 < f.name.length
  length_lt : ∀ f ∈ files, f.name.length < 64
  nonzero : ∀ f ∈ files, 0 ∉ f.name

variable {disk : Nat → Byte} {files : List File} {f : File} {name xs ys : List Byte} {offset k : Nat}

/-! ## Records -/

/-- The record of a file, as it is in memory. -/
def metaOf (f : File) (offset : Nat) : NaiveFileMeta :=
  ⟨f.name ++ List.replicate (64 - f.name.length) 0, f.data.length, offset⟩

def metasOf : Nat → List File → List NaiveFileMeta
  | _, [] => []
  | offset, f :: files => metaOf f offset :: metasOf (offset + f.data.length) files

theorem length_record (h : f.name.length < 64) (offset : Nat) : (record f offset).length = 72 := by
  simp only [record, List.length_append, List.length_replicate, length_intBytes]
  omega

theorem length_records (h : ∀ f ∈ files, f.name.length < 64) (offset : Nat) :
    (records offset files).length = files.length * 72 := by
  induction files generalizing offset with
  | nil => simp [records]
  | cons f files ih =>
    obtain ⟨hf, hfiles⟩ := List.forall_mem_cons.mp h
    rw [records, List.length_append, length_record hf, ih hfiles, List.length_cons]
    omega

theorem ofRecord_record (h : f.name.length < 64) (hsize : f.data.length < 2 ^ 32) (hoffset : offset < 2 ^ 32) :
    ofRecord (record f offset) = metaOf f offset := by
  have hname : (f.name ++ List.replicate (64 - f.name.length) 0).length = 64 := by
    simp only [List.length_append, List.length_replicate]
    omega
  have hhead : (f.name ++ List.replicate (64 - f.name.length) 0 ++ intBytes f.data.length).length = 68 := by
    rw [List.length_append, hname, length_intBytes]
  rw [ofRecord, metaOf, record, List.drop_left' hhead, List.append_assoc, List.take_left' hname, List.drop_left' hname,
    List.take_left' (length_intBytes _), List.take_of_length_le (Nat.le_of_eq (length_intBytes _)),
    ofIntBytes_intBytes hsize, ofIntBytes_intBytes hoffset]

theorem ofRecords_records (h : ∀ f ∈ files, f.name.length < 64) (hoffset : offset + (files.flatMap File.data).length < 2 ^ 32) :
    ofRecords files.length (records offset files) = metasOf offset files := by
  induction files generalizing offset with
  | nil => rfl
  | cons f files ih =>
    obtain ⟨hf, hfiles⟩ := List.forall_mem_cons.mp h
    rw [List.flatMap_cons, List.length_append] at hoffset
    rw [List.length_cons, ofRecords, records, List.take_left' (length_record hf _), List.drop_left' (length_record hf _),
      ofRecord_record hf (by omega) (by omega), ih hfiles (by omega), metasOf]

/-! ## Names -/

/-- `strcmp` of a name that is padded with zeros. -/
theorem strcmp_eq_zero (hxs : 0 ∉ xs) (hys : 0 ∉ ys) :
    ∃ r, strcmp (xs ++ List.replicate (k + 1) 0) (ys ++ [0]) = some r ∧ (r = 0 ↔ xs = ys) := by
  induction xs generalizing ys with
  | nil =>
    cases ys with
    | nil => exact ⟨0, rfl, by simp⟩
    | cons y ys =>
      obtain ⟨hy, -⟩ := List.ne_and_not_mem_of_not_mem_cons hys
      refine ⟨1, ?_, by simp⟩
      rw [List.nil_append, List.replicate_succ, List.cons_append, strcmp, if_pos rfl, if_neg hy.symm]
  | cons x xs ih =>
    obtain ⟨hx, hxs⟩ := List.ne_and_not_mem_of_not_mem_cons hxs
    cases ys with
    | nil =>
      refine ⟨1, ?_, by simp⟩
      rw [List.cons_append, List.nil_append, strcmp, if_neg hx.symm, if_pos rfl]
    | cons y ys =>
      obtain ⟨hy, hys⟩ := List.ne_and_not_mem_of_not_mem_cons hys
      rw [List.cons_append, List.cons_append, strcmp, if_neg hx.symm, if_neg hy.symm]
      by_cases hxy : x = y
      · obtain ⟨r, hr, hiff⟩ := ih hxs hys
        refine ⟨r, (if_neg (not_not.mpr hxy)).trans hr, hiff.trans ?_⟩
        rw [hxy, List.cons.injEq, and_iff_right rfl]
      · rw [if_pos hxy]
        refine ⟨_, rfl, iff_of_false ?_ fun heq => hxy (List.cons.inj heq).1⟩
        split_ifs <;> decide

theorem strcmp_metaOf (h : f.name.length < 64) (hf : 0 ∉ f.name) (hname : 0 ∉ name) (offset : Nat) :
    ∃ r, strcmp (metaOf f offset).filename (name ++ [0]) = some r ∧ (r = 0 ↔ f.name = name) := by
  have hpad : 64 - f.name.length = 63 - f.name.length + 1 := by omega
  rw [metaOf, hpad]
  exact strcmp_eq_zero hf hname

/-- Other names are not found. -/
theorem findMeta_of_not_mem (h : Names files) (hname : 0 ∉ name) (hnot : ∀ f ∈ files, f.name ≠ name) :
    findMeta (name ++ [0]) (metasOf offset files) = some none := by
  have hlt := h.length_lt
  have hzero := h.nonzero
  clear h
  induction files generalizing offset with
  | nil => rfl
  | cons f files ih =>
    rw [List.forall_mem_cons] at hlt hzero hnot
    obtain ⟨r, hr, hiff⟩ := strcmp_metaOf hlt.1 hzero.1 hname offset
    rw [metasOf, findMeta, hr]
    exact (if_neg fun heq => hnot.1 (hiff.mp heq)).trans (ih hnot.2 hlt.2 hzero.2)

/-- The record of a file is found, with the offset behind the contents of the files in front of it. -/
theorem findMeta_of_mem (h : Names files) (hf : f ∈ files) (offset : Nat) :
    ∃ pre post, files = pre ++ f :: post ∧ findMeta (f.name ++ [0]) (metasOf offset files) =
      some (some (metaOf f (offset + (pre.flatMap File.data).length))) := by
  have hlt := h.length_lt
  have hzero := h.nonzero
  have hdistinct := h.distinct
  have hname := hzero f hf
  clear h
  induction files generalizing offset with
  | nil => cases hf
  | cons g files ih =>
    rw [List.forall_mem_cons] at hlt hzero
    rw [List.map_cons, List.nodup_cons] at hdistinct
    obtain ⟨r, hr, hiff⟩ := strcmp_metaOf hlt.1 hzero.1 hname offset
    rw [metasOf, findMeta, hr]
    rcases List.mem_cons.mp hf with rfl | hf
    · exact ⟨[], files, rfl, if_pos (hiff.mpr rfl)⟩
    · have hne : g.name ≠ f.name := fun heq => hdistinct.1 (heq ▸ List.mem_map_of_mem hf)
      obtain ⟨pre, post, hsplit, hfind⟩ := ih hf (offset + g.data.length) hlt.2 hzero.2 hdistinct.2
      refine ⟨g :: pre, post, congrArg (g :: ·) hsplit, (if_neg fun heq => hne (hiff.mp heq)).trans (hfind.trans ?_)⟩
      rw [List.flatMap_cons, List.length_append, Nat.add_assoc]

/-! ## The image on the disk -/

theorem bytesAt_image (h : Holds disk files) {n : Nat} (hn : k + n ≤ (image files).length) :
    bytesAt disk (partitionOffset + k) n = ((image files).drop k).take n := by
  rw [← h, take_drop_bytesAt hn]

theorem length_image (hnames : Names files) :
    (image files).length = 4 + files.length * (64 + 4 + 4) + (files.flatMap File.data).length := by
  rw [image, List.length_append, List.length_append, length_intBytes, length_records hnames.length_lt]

/-- `init_naive_fs` reads the records. -/
theorem initNaiveFs_eq (h : Holds disk files) (hnames : Names files) (hcount : files.length ≤ 256)
    (hfits : (image files).length ≤ 2048 * sectorSize) :
    initNaiveFs disk = ⟨files.length, metasOf (4 + files.length * (64 + 4 + 4)) files⟩ := by
  have hsector : sectorSize = 512 := rfl
  have hpartition : partitionOffset = 1053184 := rfl
  have hrecords := length_records hnames.length_lt (4 + files.length * (64 + 4 + 4))
  have himage := length_image hnames
  have hnum : ofIntBytes (readHardDisk disk (0 + partitionOffset) 4) = files.length := by
    have hbytes := bytesAt_image (k := 0) (n := 4) h (by omega)
    rw [readHardDisk_eq (by omega) (by omega), Nat.zero_add, ← Nat.add_zero partitionOffset, hbytes, List.drop_zero, image,
      List.append_assoc, List.take_left' (length_intBytes _), ofIntBytes_intBytes (by omega)]
  have hmetas : readHardDisk disk (4 + partitionOffset) (files.length * 72) =
      records (4 + files.length * (64 + 4 + 4)) files := by
    have hbytes := bytesAt_image (k := 4) (n := files.length * 72) h (by omega)
    rw [readHardDisk_eq (by omega) (by omega), Nat.add_comm 4 partitionOffset, hbytes, image, List.append_assoc,
      List.drop_left' (length_intBytes _), List.take_left' hrecords]
  have hsize : files.length * 72 % 2 ^ 32 = files.length * 72 := Nat.mod_eq_of_lt (by omega)
  rw [initNaiveFs, hnum, hsize, hmetas, ofRecords_records hnames.length_lt (by omega)]

/-- The contents of a file lie behind the records and the contents of the files in front of it. -/
theorem take_drop_image {pre post : List File} (hnames : Names files) (hsplit : files = pre ++ f :: post) :
    ((image files).drop (4 + files.length * (64 + 4 + 4) + (pre.flatMap File.data).length)).take f.data.length = f.data := by
  have hrecords := length_records hnames.length_lt (4 + files.length * (64 + 4 + 4))
  have hhead : (intBytes files.length ++ records (4 + files.length * (64 + 4 + 4)) files).length =
      4 + files.length * (64 + 4 + 4) := by
    rw [List.length_append, length_intBytes, hrecords]
  have hdata : files.flatMap File.data = pre.flatMap File.data ++ (f.data ++ post.flatMap File.data) := by
    rw [hsplit, List.flatMap_append, List.flatMap_cons]
  rw [image, ← List.drop_drop, List.drop_left' hhead, hdata, List.drop_left, List.take_left]

theorem offset_le {pre post : List File} (hnames : Names files) (hsplit : files = pre ++ f :: post) :
    4 + files.length * (64 + 4 + 4) + (pre.flatMap File.data).length + f.data.length ≤ (image files).length := by
  have hdata : (files.flatMap File.data).length =
      (pre.flatMap File.data).length + (f.data.length + (post.flatMap File.data).length) := by
    rw [hsplit, List.flatMap_append, List.flatMap_cons, List.length_append, List.length_append]
  rw [length_image hnames]
  omega

theorem bytesAt_data {pre post : List File} (h : Holds disk files) (hnames : Names files) (hsplit : files = pre ++ f :: post) :
    bytesAt disk (partitionOffset + (4 + files.length * (64 + 4 + 4) + (pre.flatMap File.data).length)) f.data.length = f.data := by
  rw [bytesAt_image h (offset_le hnames hsplit), take_drop_image hnames hsplit]

theorem readData_of_find {fs : State} {m : NaiveFileMeta} (h : findMeta name fs.fileMetas = some (some m))
    (start length : Nat) :
    readData disk fs name start length = some (((min length m.size : Nat) : Int),
      readHardDisk disk (uint32Add (uint32Add partitionOffset m.offset) start) (min length m.size)) := by
  unfold readData
  rw [h]
  rfl

/-- The kernel finds exactly the files of the image, and reads their contents. -/
theorem naive_fs_decodes (hcount : files.length ≤ 256) (hnames : Names files)
    (hfits : (image files).length ≤ 2048 * sectorSize) (hdisk : Holds disk files) :
    (∀ f ∈ files, statFile (initNaiveFs disk) (f.name ++ [0]) = some (0, some f.data.length)) ∧
    (∀ name, 0 ∉ name → (∀ f ∈ files, f.name ≠ name) → statFile (initNaiveFs disk) (name ++ [0]) = some (-1, none)) ∧
    ∀ f ∈ files, readData disk (initNaiveFs disk) (f.name ++ [0]) 0 f.data.length =
      some ((f.data.length : Int), f.data) := by
  rw [initNaiveFs_eq hdisk hnames hcount hfits]
  refine ⟨fun f hf => ?_, fun name hname hnot => ?_, fun f hf => ?_⟩
  · obtain ⟨pre, post, -, hfind⟩ := findMeta_of_mem hnames hf (4 + files.length * (64 + 4 + 4))
    rw [statFile, hfind]
    rfl
  · rw [statFile, findMeta_of_not_mem hnames hname hnot]
    rfl
  · obtain ⟨pre, post, hsplit, hfind⟩ := findMeta_of_mem hnames hf (4 + files.length * (64 + 4 + 4))
    have hbytes := bytesAt_data hdisk hnames hsplit
    have hend := offset_le hnames hsplit
    have hsector : sectorSize = 512 := rfl
    have hpartition : partitionOffset = 1053184 := rfl
    have hplace : uint32Add (uint32Add partitionOffset (4 + files.length * (64 + 4 + 4) +
        (pre.flatMap File.data).length)) 0 =
        partitionOffset + (4 + files.length * (64 + 4 + 4) + (pre.flatMap File.data).length) := by
      rw [uint32Add, uint32Add]
      omega
    have hdata : readHardDisk disk (partitionOffset + (4 + files.length * (64 + 4 + 4) + (pre.flatMap File.data).length))
        f.data.length = f.data :=
      (readHardDisk_eq (by omega) (by omega)).trans hbytes
    refine (readData_of_find hfind 0 f.data.length).trans ?_
    simp only [metaOf]
    rw [Nat.min_self, hplace, hdata]

/-- Two programs, the second one empty. -/
def sampleFiles : List File := [⟨[104, 105], [1, 2, 0, 3]⟩, ⟨[97], []⟩]

def sampleDisk : Nat → Byte := fun a => (image sampleFiles).getD (a - partitionOffset) 0

theorem sample_decodes :
    (∀ f ∈ sampleFiles, statFile (initNaiveFs sampleDisk) (f.name ++ [0]) = some (0, some f.data.length)) ∧
    (∀ name, 0 ∉ name → (∀ f ∈ sampleFiles, f.name ≠ name) →
      statFile (initNaiveFs sampleDisk) (name ++ [0]) = some (-1, none)) ∧
    ∀ f ∈ sampleFiles, readData sampleDisk (initNaiveFs sampleDisk) (f.name ++ [0]) 0 f.data.length =
      some ((f.data.length : Int), f.data) :=
  naive_fs_decodes (by decide) ⟨by decide, by decide, by decide, by decide⟩ (by decide +kernel) (by unfold Holds; decide +kernel)

end FileSystem

end LuckOS
