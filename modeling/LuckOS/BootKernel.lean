import LuckOS.BootPaging
import LuckOS.ReadDisk

/-!
# The kernel is loaded

`init_kernel` of `boot/loader.S` reads the kernel from the disk to the pages that it has mapped at the
end of the address space, and copies the sections to the addresses of their program headers. The
count of sectors in the command has 8 bits: of the 2048 sectors that are asked for, the drive is
told to read 256, and what the data port gives behind them is not specified.
-/

namespace LuckOS.BootLoader

open ByteMemory PageWalk

def kernelStartSector : Nat := 9
def kernelSectors : Nat := kernelBinMaxSize / 512

/-- `rep movsb`, with `ecx`, `edi` and `esi`. -/
def movsb : Nat → Nat → Nat → Memory → Option Memory
  | 0, _, _, m => some m
  | ecx + 1, edi, esi, m => do
    let b ← load8 m pageDirPhysicalAddr esi
    let m ← store8 m pageDirPhysicalAddr edi b
    movsb ecx ((edi + 1) % 2 ^ 32) ((esi + 1) % 2 ^ 32) m

/-- The body of the loop over the program headers. -/
def loadSegment (ebx : Nat) (m : Memory) : Option Memory := do
  let type ← load8 m pageDirPhysicalAddr ebx
  if type = 0 then some m
  else do
    let filesz ← load32 m pageDirPhysicalAddr ((ebx + 16) % 2 ^ 32)
    let offset ← load32 m pageDirPhysicalAddr ((ebx + 4) % 2 ^ 32)
    let vaddr ← load32 m pageDirPhysicalAddr ((ebx + 8) % 2 ^ 32)
    movsb filesz vaddr ((offset + kernelBinLoadVirtualAddr) % 2 ^ 32) m

/-- `.load_each_segment`, with `ecx`, `ebx` and `edx`. -/
def loadEachSegment : Nat → Nat → Nat → Memory → Option Memory
  | 0, _, _, m => some m
  | ecx + 1, ebx, edx, m => do
    let m ← loadSegment ebx m
    loadEachSegment ecx ((ebx + edx) % 2 ^ 32) edx m

/-- `do_load_kernel`: the entry and the memory. -/
def doLoadKernel (m : Memory) : Option (Nat × Memory) := do
  let dx ← load16 m pageDirPhysicalAddr (kernelBinLoadVirtualAddr + 42)
  let ebx ← load32 m pageDirPhysicalAddr (kernelBinLoadVirtualAddr + 28)
  let cx ← load16 m pageDirPhysicalAddr (kernelBinLoadVirtualAddr + 44)
  let m ← loadEachSegment (ReadDisk.loopRounds 32 cx) ((ebx + kernelBinLoadVirtualAddr) % 2 ^ 32) dx m
  let eax ← load32 m pageDirPhysicalAddr (kernelBinLoadVirtualAddr + 24)
  some (eax, m)

/-- `load_hd_kernel_image`. -/
def loadHdKernelImage (fuel : Nat) (s : Ata.Device × Memory) : Option (Ata.Device × Memory) :=
  ReadDisk.readDisk 32 (fun m a w => store16 m pageDirPhysicalAddr a w) fuel kernelBinLoadVirtualAddr kernelStartSector
    kernelSectors s

/-- `setup_page` and `init_kernel`, up to the jump to the kernel: its entry, the device and the memory. -/
def initKernel (fuel : Nat) (s : Ata.Device × Memory) : Option (Nat × Ata.Device × Memory) := do
  let m ← setUpPaging s.2
  let (d, m) ← loadHdKernelImage fuel (s.1, m)
  let (entry, m) ← doLoadKernel m
  some (entry, d, m)

variable {m m' img : Memory} {a h k n dst source x : Nat} {f : Nat → UInt8}

/-! ## The mapped pages -/

/-- The pages at which the binary is read are mapped to the end of the memory. -/
theorem Mapped.binary (hm : Mapped m) : Linear m 0x101000 0xFFF00000 (2 ^ 32) 0x1EFF000 := by
  intro v hlo hhi
  have hpage : Paging.loaderPte (v / 4096) = .mapTo (v / 4096 - 0xFFF00 + 7935) := by
    rw [Paging.loaderPte, if_neg (by omega), if_neg (by omega), if_neg (by omega), if_neg (by omega), if_pos (by omega)]
  rw [hm.walk hhi (by omega), hpage]
  change some ((v / 4096 - 0xFFF00 + 7935) * 4096 + v % 4096) = _
  refine congrArg some ?_
  omega

/-- The pages of the kernel are mapped behind the page tables. -/
theorem Mapped.kernel (hm : Mapped m) : Linear m 0x101000 0xC0800000 0xC0900000 0x200000 := by
  intro v hlo hhi
  have hpage : Paging.loaderPte (v / 4096) = .mapTo (v / 4096 - 0xC0800 + 0x200) := by
    rw [Paging.loaderPte, if_neg (by omega), if_neg (by omega), if_pos (by omega)]
  rw [hm.walk (by omega) (by omega), hpage]
  change some ((v / 4096 - 0xC0800 + 0x200) * 4096 + v % 4096) = _
  refine congrArg some ?_
  omega

/-- Stores behind the page tables keep them. -/
theorem Mapped.write8 (hm : Mapped m) (ha : 0x200000 ≤ a) (w : UInt8) : Mapped (write8 m a w) :=
  hm.congr (sameOn_write8 (by omega))

/-! ## The image -/

/-- What lies behind the mapping of the binary, at the addresses of the mapping. -/
def binaryView (m : Memory) : Nat → UInt8 := fun v => if v < 0xFFF00000 then 0 else m (0x1EFF000 + (v - 0xFFF00000))

theorem stores_binary (m : Memory) :
    ReadDisk.Stores (fun m a w => store16 m pageDirPhysicalAddr a w)
      (fun t => Mapped t ∧ ∀ x, x < 0x1EFF000 ∨ 0x1FFF000 ≤ x → t x = m x) binaryView 0xFFF00000 (2 ^ 32) := by
  rintro t a w ⟨hm, hsame⟩ hlo hhi -
  refine ⟨_, hm.binary.store16 hlo (by omega) w, ⟨(hm.write8 (by omega) _).write8 (by omega) _, fun x hx => ?_⟩,
    funext fun x => ?_⟩
  · rw [write8_of_ne (by omega), write8_of_ne (by omega)]
    exact hsame x hx
  · dsimp only [binaryView, ReadDisk.put16]
    by_cases hlow : x < 0xFFF00000
    · rw [if_pos hlow, if_neg (by omega), if_neg (by omega), if_pos hlow]
    · rw [if_neg hlow, if_neg hlow]
      by_cases hfirst : x = a
      · subst hfirst
        rw [if_pos rfl, write8_of_ne (by omega)]
        exact if_pos rfl
      · rw [if_neg hfirst]
        by_cases hsecond : x = a + 1
        · subst hsecond
          rw [if_pos rfl]
          exact if_pos (by omega)
        · rw [if_neg hsecond, write8_of_ne (by omega), write8_of_ne (by omega)]

/-- An idle device that has each sector of the command at hand when the one before it has been read. The loader does
not look at the status again. -/
structure Prompt (fuel : Nat) (d : Ata.Device) : Prop where
  idle : d.phase = .idle
  first : d.latency kernelStartSector < fuel
  next : ∀ k, 0 < k → k < 256 → d.latency (kernelStartSector + k) = 0

/-- The first 128 KB of the kernel binary. -/
def Holds (m img : Memory) : Prop := ∀ k < 0x20000, m (0x1EFF000 + k) = img k

/-- The file of the kernel on the disk. -/
def kernelImage (d : Ata.Device) : Memory := fun k => d.disk (kernelStartSector * Ata.sectorSize + k)

theorem loadHdKernelImage_eq {fuel : Nat} {d : Ata.Device} (hd : Prompt fuel d) (hm : Mapped m) :
    ∃ d' m', loadHdKernelImage fuel (d, m) = some (d', m') ∧ d'.phase = .idle ∧ Mapped m' ∧
    Holds m' (kernelImage d) ∧ ∀ x, x < 0x1EFF000 ∨ 0x1FFF000 ≤ x → m' x = m x := by
  have hrounds : ReadDisk.loopRounds 32 (kernelSectors * 256) = 524288 := by decide
  have hsector : kernelStartSector % 2 ^ 28 = kernelStartSector := by decide
  obtain ⟨ws, d', hlength, hwords, hidle, -, hread⟩ := ReadDisk.readDisk_eq 32
    (fun m a w => store16 m pageDirPhysicalAddr a w) kernelBinLoadVirtualAddr kernelStartSector kernelSectors m hd.idle
    (by rw [hsector]; exact hd.first) (show 256 = _ from rfl) (by rw [hsector]; exact hd.next)
  rw [hrounds] at hlength hwords hidle
  rw [hsector] at hwords
  obtain ⟨m', hstore, ⟨hm', hsame⟩, hview⟩ := ReadDisk.storeWords_filled (stores_binary m) m ws
    ⟨hm, fun _ _ => rfl⟩ (Nat.le_refl 0xFFF00000) rfl (by rw [hlength]; decide) (Nat.le_refl (2 ^ 32))
  refine ⟨d', m', ?_, hidle (by decide), hm', fun k hk => ?_, hsame⟩
  · rw [loadHdKernelImage, hread]
    exact congrArg (Option.map fun s => (d', s)) hstore
  · have hbyte := congrFun hview (0xFFF00000 + k)
    rw [ReadDisk.filled_of_lt (n := 65536) (fun i hi => hwords i (by omega) (by omega)) (by omega) (by omega), binaryView,
      if_neg (by omega)] at hbyte
    have hoffset : 0xFFF00000 + k - 0xFFF00000 = k := by omega
    rw [hoffset] at hbyte
    exact hbyte

/-! ## The sections -/

/-- Two bytes as a number. -/
def read16 (m : Memory) (a : Nat) : Nat := (m a).toNat + 2 ^ 8 * (m (a + 1)).toNat

/-- The pages are mapped, and the binary is in memory. -/
structure Loading (img m : Memory) : Prop where
  mapped : Mapped m
  image : Holds m img

theorem Holds.read32 (h : Holds m img) (hk : k + 3 < 0x20000) : read32 m (0x1EFF000 + k) = read32 img k := by
  have h₁ : 0x1EFF000 + k + 1 = 0x1EFF000 + (k + 1) := Nat.add_assoc ..
  have h₂ : 0x1EFF000 + k + 2 = 0x1EFF000 + (k + 2) := Nat.add_assoc ..
  have h₃ : 0x1EFF000 + k + 3 = 0x1EFF000 + (k + 3) := Nat.add_assoc ..
  rw [ByteMemory.read32, h₁, h₂, h₃, h k (by omega), h (k + 1) (by omega), h (k + 2) (by omega), h (k + 3) hk,
    ByteMemory.read32]

theorem Loading.load8 (h : Loading img m) (hk : k < 0x20000) :
    load8 m pageDirPhysicalAddr (0xFFF00000 + k) = some (img k) := by
  have hload := h.mapped.binary.load8 (v := 0xFFF00000 + k) (by omega) (by omega)
  rw [Nat.add_sub_cancel_left, h.image k hk] at hload
  exact hload

theorem Loading.load16 (h : Loading img m) (hk : k + 1 < 0x20000) :
    load16 m pageDirPhysicalAddr (0xFFF00000 + k) = some (read16 img k) := by
  have hload := h.mapped.binary.load16 (v := 0xFFF00000 + k) (Nat.le_refl _) (by omega) (by omega)
  have hnext : 0x1EFF000 + k + 1 = 0x1EFF000 + (k + 1) := Nat.add_assoc ..
  rw [Nat.add_sub_cancel_left, hnext, h.image k (by omega), h.image (k + 1) hk] at hload
  exact hload

theorem Loading.load32 (h : Loading img m) (hk : k + 3 < 0x20000) :
    load32 m pageDirPhysicalAddr (0xFFF00000 + k) = some (read32 img k) := by
  have hload := h.mapped.binary.load32 (v := 0xFFF00000 + k) (Nat.le_refl _) (by omega) (by omega)
  rw [Nat.add_sub_cancel_left, h.image.read32 hk] at hload
  exact hload

/-- Bytes are copied to an address. -/
def blit (m : Memory) (a n : Nat) (f : Nat → UInt8) : Memory := fun x => if a ≤ x ∧ x < a + n then f (x - a) else m x

theorem blit_outside (h : x < a ∨ a + n ≤ x) : blit m a n f x = m x := if_neg (by omega)

theorem blit_succ : blit (write8 m a (f 0)) (a + 1) n (fun k => f (k + 1)) = blit m a (n + 1) f := by
  funext x
  rw [blit, blit]
  by_cases hx : x = a
  · subst hx
    rw [if_neg (by omega), if_pos (by omega), Nat.sub_self]
    exact if_pos rfl
  · by_cases hin : a + 1 ≤ x ∧ x < a + 1 + n
    · have hindex : x - (a + 1) + 1 = x - a := by omega
      rw [if_pos hin, if_pos (by omega), hindex]
    · rw [if_neg hin, if_neg (by omega), write8_of_ne hx]

/-- Stores to the pages of the kernel keep the tables and the binary. -/
theorem Loading.congr (h : Loading img m) (hsame : ∀ x, x < 0x200000 ∨ 0x300000 ≤ x → m' x = m x) : Loading img m' :=
  ⟨h.mapped.congr fun _ _ _ => hsame _ (by omega), fun k hk => (hsame _ (by omega)).trans (h.image k hk)⟩

theorem movsb_eq (h : Loading img m) (hsource : source + n ≤ 0x20000) (hdst : 0xC0800000 ≤ dst)
    (hdst' : dst + n ≤ 0xC0900000) :
    movsb n dst (0xFFF00000 + source) m =
      some (blit m (0x200000 + (dst - 0xC0800000)) n fun k => img (source + k)) := by
  induction n generalizing dst source m with
  | zero =>
    refine congrArg some (funext fun x => ?_)
    exact (blit_outside (by omega)).symm
  | succ n ih =>
    have hmod : (dst + 1) % 2 ^ 32 = dst + 1 := Nat.mod_eq_of_lt (by omega)
    have hmod' : (0xFFF00000 + source + 1) % 2 ^ 32 = 0xFFF00000 + (source + 1) := Nat.mod_eq_of_lt (by omega)
    have hnext : 0x200000 + (dst + 1 - 0xC0800000) = 0x200000 + (dst - 0xC0800000) + 1 := by omega
    have hstore : store8 m pageDirPhysicalAddr dst (img source) =
        some (write8 m (0x200000 + (dst - 0xC0800000)) (img source)) :=
      h.mapped.kernel.store8 hdst (by omega) _
    have hstored : Loading img (write8 m (0x200000 + (dst - 0xC0800000)) (img source)) :=
      h.congr fun x hx => write8_of_ne (by omega)
    have hrest := ih hstored (show source + 1 + n ≤ 0x20000 by omega) (show 0xC0800000 ≤ dst + 1 by omega) (by omega)
    rw [hnext] at hrest
    rw [movsb, h.load8 (by omega), Option.bind_eq_bind, Option.bind_some, hstore, Option.bind_eq_bind, Option.bind_some,
      hmod, hmod', hrest, ← blit_succ (f := fun k => img (source + k))]
    refine congrArg some (congrArg (blit _ _ n) (funext fun k => congrArg img ?_))
    omega

/-- What the loop does for the program header at an offset of the binary. -/
def placeSegment (img : Memory) (m : Memory) (h : Nat) : Memory :=
  if img h = 0 then m
  else blit m (0x200000 + (read32 img (h + 8) - 0xC0800000)) (read32 img (h + 16)) fun k => img (read32 img (h + 4) + k)

/-- The header and its section lie in the part of the binary that is read, and the section is loaded to the kernel's
pages. -/
structure FitsHeader (img : Memory) (h : Nat) : Prop where
  header : h + 20 ≤ 0x20000
  source : img h ≠ 0 → read32 img (h + 4) + read32 img (h + 16) ≤ 0x20000
  target : img h ≠ 0 → 0xC0800000 ≤ read32 img (h + 8) ∧ read32 img (h + 8) + read32 img (h + 16) ≤ 0xC0900000

theorem Loading.placeSegment (hl : Loading img m) (hh : FitsHeader img h) : Loading img (placeSegment img m h) := by
  rw [BootLoader.placeSegment]
  split_ifs with htype
  · exact hl
  · have htarget := hh.target htype
    exact hl.congr fun x hx => blit_outside (by omega)

theorem loadSegment_eq (hl : Loading img m) (hh : FitsHeader img h) :
    loadSegment (0xFFF00000 + h) m = some (placeSegment img m h) := by
  have hheader := hh.header
  have haddr : ∀ k ≤ 16, (0xFFF00000 + h + k) % 2 ^ 32 = 0xFFF00000 + (h + k) := fun k hk => by
    rw [Nat.add_assoc]
    exact Nat.mod_eq_of_lt (by omega)
  rw [loadSegment, hl.load8 (by omega), Option.bind_eq_bind, Option.bind_some, BootLoader.placeSegment]
  split_ifs with htype
  · rfl
  · have hsource := hh.source htype
    have htarget := hh.target htype
    have hoffset : (read32 img (h + 4) + kernelBinLoadVirtualAddr) % 2 ^ 32 = 0xFFF00000 + read32 img (h + 4) := by
      rw [Nat.add_comm]
      exact Nat.mod_eq_of_lt (show 0xFFF00000 + _ < 2 ^ 32 by omega)
    rw [haddr 16 (by decide), haddr 4 (by decide), haddr 8 (by decide), hl.load32 (by omega), Option.bind_eq_bind,
      Option.bind_some, hl.load32 (by omega), Option.bind_some, hl.load32 (by omega), Option.bind_some, hoffset]
    exact movsb_eq hl hsource htarget.1 htarget.2

/-- The offsets of the program headers. -/
def headers : Nat → Nat → Nat → List Nat
  | 0, _, _ => []
  | n + 1, h, size => h :: headers n (h + size) size

theorem loadEachSegment_eq (hl : Loading img m) {size : Nat} (hfits : ∀ x ∈ headers n h size, FitsHeader img x) :
    loadEachSegment n (0xFFF00000 + h) size m = some ((headers n h size).foldl (placeSegment img) m) ∧
    Loading img ((headers n h size).foldl (placeSegment img) m) := by
  induction n generalizing h m with
  | zero => exact ⟨rfl, hl⟩
  | succ n ih =>
    have hfirst : FitsHeader img h := hfits h List.mem_cons_self
    have hplaced := hl.placeSegment hfirst
    rw [loadEachSegment, loadSegment_eq hl hfirst, Option.bind_eq_bind, Option.bind_some, headers, List.foldl_cons]
    cases n with
    | zero => exact ⟨rfl, hplaced⟩
    | succ n =>
      have hrest : ∀ x ∈ headers (n + 1) (h + size) size, FitsHeader img x := fun x hx =>
        hfits x (List.mem_cons_of_mem h hx)
      have hnext := (hrest (h + size) List.mem_cons_self).header
      have hmod : (0xFFF00000 + h + size) % 2 ^ 32 = 0xFFF00000 + (h + size) := by
        rw [Nat.add_assoc]
        exact Nat.mod_eq_of_lt (by omega)
      rw [hmod]
      exact ih hplaced hrest

/-- The program headers that the header of the binary names. -/
def programHeaders (img : Memory) : List Nat := headers (read16 img 44) (read32 img 28) (read16 img 42)

/-- A binary whose sections can be loaded. -/
structure KernelFile (img : Memory) : Prop where
  phnum : 0 < read16 img 44
  fits : ∀ h ∈ programHeaders img, FitsHeader img h

theorem doLoadKernel_eq (hl : Loading img m) (hfile : KernelFile img) :
    doLoadKernel m = some (read32 img 24, (programHeaders img).foldl (placeSegment img) m) ∧
    Loading img ((programHeaders img).foldl (placeSegment img) m) := by
  obtain ⟨hload, hloaded⟩ := loadEachSegment_eq hl hfile.fits
  have hphnum : read16 img 44 < 2 ^ 16 := by
    have hlow := (img 44).toNat_lt
    have hhigh := (img (44 + 1)).toNat_lt
    rw [read16]
    omega
  have hrounds : ReadDisk.loopRounds 32 (read16 img 44) = read16 img 44 := by
    have hmod : read16 img 44 % 2 ^ 32 = read16 img 44 := Nat.mod_eq_of_lt (by omega)
    rw [ReadDisk.loopRounds, hmod, if_neg hfile.phnum.ne']
  have hfirst : read32 img 28 + 20 ≤ 0x20000 := by
    have hpos := hfile.phnum
    refine (hfile.fits (read32 img 28) ?_).header
    rw [programHeaders]
    cases hn : read16 img 44 with
    | zero => omega
    | succ n => exact List.mem_cons_self
  have hoffset : (read32 img 28 + kernelBinLoadVirtualAddr) % 2 ^ 32 = 0xFFF00000 + read32 img 28 := by
    rw [Nat.add_comm]
    exact Nat.mod_eq_of_lt (show 0xFFF00000 + _ < 2 ^ 32 by omega)
  have h₁ : load16 m pageDirPhysicalAddr (kernelBinLoadVirtualAddr + 42) = some (read16 img 42) := hl.load16 (by decide)
  have h₂ : load32 m pageDirPhysicalAddr (kernelBinLoadVirtualAddr + 28) = some (read32 img 28) := hl.load32 (by decide)
  have h₃ : load16 m pageDirPhysicalAddr (kernelBinLoadVirtualAddr + 44) = some (read16 img 44) := hl.load16 (by decide)
  have h₄ : load32 ((programHeaders img).foldl (placeSegment img) m) pageDirPhysicalAddr
      (kernelBinLoadVirtualAddr + 24) = some (read32 img 24) := hloaded.load32 (by decide)
  refine ⟨?_, hloaded⟩
  rw [doLoadKernel, h₁, Option.bind_eq_bind, Option.bind_some, h₂, Option.bind_some, h₃, Option.bind_some, hrounds,
    hoffset, hload]
  change (load32 ((programHeaders img).foldl (placeSegment img) m) pageDirPhysicalAddr
    (kernelBinLoadVirtualAddr + 24)).bind _ = _
  rw [h₄]
  rfl

/-- What a section leaves at an address depends on what was there only. -/
theorem foldl_placeSegment_congr {hs : List Nat} (hx : m x = m' x) :
    hs.foldl (placeSegment img) m x = hs.foldl (placeSegment img) m' x := by
  induction hs generalizing m m' with
  | nil => exact hx
  | cons h hs ih =>
    refine ih ?_
    rw [placeSegment, placeSegment]
    split_ifs
    · exact hx
    · rw [blit, blit, hx]

/-- Whatever is in the memory of the kernel: the loader returns the entry of the binary on the disk, and has copied its
sections to the frames of their addresses, one after the other. The kernel's paging starts in the modelled state, and
apart from the tables and the pages of the binary the rest of the memory is as it was. -/
theorem loader_loads_kernel {fuel : Nat} {d : Ata.Device} (hzero : TablesZero m) (hd : Prompt fuel d)
    (hfile : KernelFile (kernelImage d)) (bytes : Nat → Nat → Byte) :
    ∃ d' m', initKernel fuel (d, m) = some (read32 (kernelImage d) 24, d', m') ∧ d'.phase = .idle ∧
    Represents m' (Paging.loaderPaging bytes) ∧
    ∀ x, x < 0x100000 ∨ 0x200000 ≤ x ∧ x < 0x1EFF000 ∨ 0x1FFF000 ≤ x →
      m' x = (programHeaders (kernelImage d)).foldl (placeSegment (kernelImage d)) m x := by
  obtain ⟨d', m₁, hread, hidle, hmapped, himage, hsame⟩ := loadHdKernelImage_eq hd (mapped_kernelTables hzero)
  obtain ⟨hload, hloaded⟩ := doLoadKernel_eq ⟨hmapped, himage⟩ hfile
  have hpaging : setUpPaging m = some (kernelTables (setupPage m)) := allocatePagesForKernel_eq (setupPage_hasDir m)
  refine ⟨d', _, ?_, hidle, hloaded.mapped.represents bytes, fun x hx => foldl_placeSegment_congr ?_⟩
  · rw [initKernel, hpaging, Option.bind_eq_bind, Option.bind_some, hread, Option.bind_eq_bind, Option.bind_some]
    change (doLoadKernel m₁).bind _ = _
    rw [hload]
    rfl
  · rw [hsame x (by omega), kernelTables_outside (by omega), setupPage_outside (by omega)]

/-- A binary with one section of four bytes, which is loaded to the start of the kernel's pages. -/
def tinyKernel : List UInt8 :=
  List.replicate 24 0 ++ [0, 0, 0x80, 0xC0, 52, 0, 0, 0] ++ List.replicate 10 0 ++ [32, 0, 1, 0] ++ List.replicate 6 0 ++
  [1, 0, 0, 0, 84, 0, 0, 0, 0, 0, 0x80, 0xC0, 0, 0, 0, 0, 4, 0, 0, 0] ++ List.replicate 12 0 ++ [0xFA, 0xF4, 0xEB, 0xFE]

def tinyDisk : Ata.Device where
  disk := fun a => tinyKernel.getD (a - 4608) 0
  latency := fun _ => 0
  floating := fun _ => (0, 0)
  time := 0
  sectorCount := 0
  lbaLow := 0
  lbaMid := 0
  lbaHigh := 0
  drive := 0
  phase := .idle

theorem loader_loads_kernel_tiny :
    ∃ d' m', initKernel 1 (tinyDisk, fun _ => 0) = some (0xC0800000, d', m') ∧ d'.phase = .idle ∧
    Represents m' (Paging.loaderPaging fun _ _ => 0) ∧ m' 0x200002 = 0xEB := by
  have hheaders : programHeaders (kernelImage tinyDisk) = [52] := by decide +kernel
  have hentry : read32 (kernelImage tinyDisk) 24 = 0xC0800000 := by decide +kernel
  have hfile : KernelFile (kernelImage tinyDisk) := by
    refine ⟨by decide +kernel, fun h hh => ?_⟩
    rw [hheaders, List.mem_singleton] at hh
    subst hh
    exact ⟨by decide, by decide +kernel, by decide +kernel⟩
  obtain ⟨d', m', hinit, hidle, hpaging, hmemory⟩ := loader_loads_kernel (m := fun _ => 0) (fun _ _ => rfl)
    (show Prompt 1 tinyDisk from ⟨rfl, by decide, fun _ _ _ => rfl⟩) hfile fun _ _ => 0
  refine ⟨d', m', by rw [hinit, hentry], hidle, hpaging, ?_⟩
  rw [hmemory 0x200002 (by decide), hheaders]
  decide +kernel

end LuckOS.BootLoader
