import LuckOS.BootPaging

/-!
# The paging code over physical memory

The directories and the page tables of `mem/paging.c` lie in the physical memory that the frame
allocator hands out. The code reads and writes them, and the pages themselves, through the tables of
the current directory: its entries at `PAGE_DIR_VIRTUAL`, those of its tables at `PAGE_TABLES_VIRTUAL`.
All memory is RAM. The processor keeps no translations, so that every access walks the tables.

The contents of the kernel's own data, the frame bitmap and the counts of shared frames among them,
are kept apart from the memory.
-/

namespace LuckOS

open ByteMemory PageWalk BootLoader
open Paging (Pte CloneHeap)

/-- Why the code does not return: it stops in `PANIC`, or it accesses a page that is not mapped. The
source does not allow a page fault in `map_page_with_frame_impl`, and none is followed in the other
functions but for pages of the kernel heap. -/
inductive Stop where
  | panic (reason : Paging.Panic)
  | pageFault (virtualAddr : Nat)

/-- The physical memory and the state of the paging code. `pageDirEntriesPhy` are the addresses of the
directories created so far, `crt` is the current one. `released` lists the arguments of the calls of
`release_phy_frame`, the latest first, and `pageFaults` counts the calls of `page_fault_handler`. No code
reads these two. -/
structure PhysicalPaging where
  memory : Memory
  phyFramesMap : Bitmap
  copyOnWriteReady : Bool
  frameCowRefCounts : Nat → Option Int
  pageDirEntriesPhy : Nat → Nat
  dirsNum : Nat
  crt : Nat
  released : List Nat
  pageFaults : Nat

namespace PhysicalPaging

def pageSize : Nat := 4096
def pageDirVirtual : Nat := 0xC0701000
def pageTablesVirtual : Nat := 0xC0400000

/-- The register that `reload_page_directory` loads. -/
def cr3 (s : PhysicalPaging) : Nat := s.pageDirEntriesPhy s.crt

/-! ## Accesses -/

/-- The physical address of an access. -/
def translate (s : PhysicalPaging) (v : Nat) : Except Stop Nat :=
  match walk s.memory s.cr3 v with
  | some a => .ok a
  | none => .error (.pageFault v)

/-- Load a word at an aligned address. -/
def load (s : PhysicalPaging) (v : Nat) : Except Stop Nat := do
  let a ← s.translate v
  .ok (read32 s.memory a)

/-- Store a word at an aligned address. -/
def store (s : PhysicalPaging) (v w : Nat) : Except Stop PhysicalPaging := do
  let a ← s.translate v
  .ok { s with memory := write32 s.memory a w }

def loadByte (s : PhysicalPaging) (v : Nat) : Except Stop UInt8 := do
  let a ← s.translate v
  .ok (s.memory a)

def storeByte (s : PhysicalPaging) (v : Nat) (b : UInt8) : Except Stop PhysicalPaging := do
  let a ← s.translate v
  .ok { s with memory := write8 s.memory a b }

/-- The word with the fields `present`, `rw`, `user` and `frame` replaced. -/
def assignFields (w : Nat) (e : Pte) : Nat :=
  e.frame % 2 ^ 20 * 2 ^ 12 + w / 8 % 2 ^ 9 * 2 ^ 3 + (if e.user then 4 else 0) + (if e.rw then 2 else 0) +
    if e.present then 1 else 0

/-- Load a `pde_t` or `pte_t`. -/
def loadEntry (s : PhysicalPaging) (v : Nat) : Except Stop Pte := do
  let w ← s.load v
  .ok (entryOf w)

/-- Assignments to the fields of a `pde_t` or `pte_t`. -/
def storeEntry (s : PhysicalPaging) (v : Nat) (e : Pte) : Except Stop PhysicalPaging := do
  let w ← s.load v
  s.store v (assignFields w e)

/-- `*((uint32*)pte) = 0` -/
def zeroEntry (s : PhysicalPaging) (v : Nat) : Except Stop PhysicalPaging := s.store v 0

/-- The address of a directory entry. -/
def pdeAt (i : Nat) : Nat := pageDirVirtual + 4 * i

/-- The address of the entry of a page. -/
def pteAt (p : Nat) : Nat := pageTablesVirtual + 4 * p

/-- The loop `for (i = lo; i < hi; i++)`. -/
def forRange (lo hi : Nat) (s : PhysicalPaging) (body : PhysicalPaging → Nat → Except Stop PhysicalPaging) :
    Except Stop PhysicalPaging :=
  (List.range' lo (hi - lo)).foldlM body s

/-- `clear_page`. -/
def clearPage (s : PhysicalPaging) (addr : Nat) : Except Stop PhysicalPaging :=
  forRange 0 (pageSize / 4) s fun s i => s.store (addr / pageSize * pageSize + 4 * i) 0

/-- `memcpy`. -/
def memcpy (s : PhysicalPaging) (dst src num : Nat) : Except Stop PhysicalPaging :=
  forRange 0 num s fun s i => do
    let b ← s.loadByte (src + i)
    s.storeByte (dst + i) b

/-! ## Frames -/

/-- `allocate_phy_frame`, with the `PANIC` of its callers for the result -1. -/
def allocatePhyFrame (s : PhysicalPaging) (reason : Paging.Panic) : Except Stop (Nat × PhysicalPaging) :=
  match s.phyFramesMap.allocateFirstFree with
  | none => .error (.panic reason)
  | some (frame, map) => .ok (frame, { s with phyFramesMap := map })

/-- `release_phy_frame`. -/
def releasePhyFrame (s : PhysicalPaging) (frame : Nat) : PhysicalPaging :=
  { s with phyFramesMap := s.phyFramesMap.clearBit frame, released := frame :: s.released }

/-- `change_cow_frame_refcount`: the old count and the new state. -/
def changeCowFrameRefcount (s : PhysicalPaging) (frame : Nat) (refcountDelta : Int) : Int × PhysicalPaging :=
  if !s.copyOnWriteReady then (0, s)
  else
    let oldCnt := (s.frameCowRefCounts frame).getD 0
    let newCnt := oldCnt + refcountDelta
    let cntPtr := if 0 < newCnt then some newCnt else none
    (oldCnt, { s with frameCowRefCounts := Function.update s.frameCowRefCounts frame cntPtr })

/-! ## Release of pages -/

/-- `release_page`. -/
def releasePage (s : PhysicalPaging) (virtualAddr : Nat) (freeFrame : Bool) : Except Stop PhysicalPaging := do
  let pteIndex := virtualAddr / 2 ^ 12
  let pte ← s.loadEntry (pteAt pteIndex)
  if !pte.present then .ok s
  else if freeFrame then
    let r := s.changeCowFrameRefcount pte.frame (-1)
    let t := if r.1 ≤ 0 then r.2.releasePhyFrame pte.frame else r.2
    t.zeroEntry (pteAt pteIndex)
  else s.zeroEntry (pteAt pteIndex)

/-- `release_pages`. -/
def releasePages (s : PhysicalPaging) (virtualAddr pages : Nat) (freeFrame : Bool) : Except Stop PhysicalPaging :=
  let pteIndexStart := virtualAddr / pageSize
  let pteIndexEnd := Paging.u32 (pteIndexStart + pages)
  let pdeIndexStart := pteIndexStart / 1024
  let pdeIndexEnd := Paging.u32 (pteIndexEnd + (2 ^ 32 - 1)) / 1024 + 1
  forRange pdeIndexStart pdeIndexEnd s fun s i => do
    let pde ← s.loadEntry (pdeAt i)
    if !pde.present then .ok s
    else forRange (max pteIndexStart (i * 1024)) (min pteIndexEnd (i * 1024 + 1024)) s fun s j =>
      s.releasePage (j * pageSize) freeFrame

/-- `release_pages_tables`. -/
def releasePagesTables (s : PhysicalPaging) (pdeIndexStart num : Nat) : Except Stop PhysicalPaging :=
  forRange pdeIndexStart (pdeIndexStart + num) s fun s i => do
    let pde ← s.loadEntry (pdeAt i)
    if !pde.present then .ok s
    else (s.releasePhyFrame pde.frame).zeroEntry (pdeAt i)

/-- `release_user_space_pages` of `task/process.c`. -/
def releaseUserSpacePages (s : PhysicalPaging) : Except Stop PhysicalPaging := do
  let s ← s.releasePages (4 * 1024 * 1024) (767 * 1024) true
  s.releasePagesTables 1 767

/-! ## Mapping of pages -/

/-- The first part of `map_page_with_frame_impl`: allocate a page table, if needed. -/
def ensurePageTable (s : PhysicalPaging) (pdeIndex : Nat) : Except Stop PhysicalPaging := do
  let pde ← s.loadEntry (pdeAt pdeIndex)
  if !pde.present then
    let (pageTableFrame, s) ← s.allocatePhyFrame (.noFrameForPageTable pdeIndex)
    let s ← s.storeEntry (pdeAt pdeIndex) (.mapTo pageTableFrame)
    s.clearPage (pageTablesVirtual + pdeIndex * pageSize)
  else .ok s

/-- `map_page_with_frame_impl`. The copy-on-write branch calls itself once, for the copy window;
`depth` bounds this nesting. -/
def mapPageWithFrameImpl (depth : Nat) (s : PhysicalPaging) (virtualAddr : Nat) (frame : Int) :
    Except Stop PhysicalPaging :=
  match depth with
  | 0 => .error (.panic .copyNested)
  | depth + 1 => do
    let s ← s.ensurePageTable (virtualAddr / 2 ^ 22)
    let pteIndex := virtualAddr / 2 ^ 12
    let pte ← s.loadEntry (pteAt pteIndex)
    if 0 < frame then
      s.storeEntry (pteAt pteIndex) (.mapTo frame.toNat)
    else if !pte.present then
      let (frame, s) ← s.allocatePhyFrame (.noFrameForAddr virtualAddr)
      let s ← s.storeEntry (pteAt pteIndex) (.mapTo frame)
      s.clearPage virtualAddr
    else if !pte.rw then
      let (cowRefs, s) := s.changeCowFrameRefcount pte.frame (-1)
      if 0 < cowRefs then
        let (frame, s) ← s.allocatePhyFrame (.noFrameForAddr virtualAddr)
        let s ← mapPageWithFrameImpl depth s Paging.copiedPageVaddr frame
        let s ← s.memcpy Paging.copiedPageVaddr (virtualAddr / pageSize * pageSize) pageSize
        let s ← s.storeEntry (pteAt pteIndex) { pte with frame := frame, rw := true }
        s.releasePages Paging.copiedPageVaddr 1 false
      else s.storeEntry (pteAt pteIndex) { pte with rw := true }
    else .ok s

/-- `map_page_with_frame`; its lock has no effect on an uninterrupted call. -/
def mapPageWithFrame (s : PhysicalPaging) (virtualAddr : Nat) (frame : Int) : Except Stop PhysicalPaging :=
  s.mapPageWithFrameImpl 2 virtualAddr frame

/-- `map_page`. -/
def mapPage (s : PhysicalPaging) (virtualAddr : Nat) : Except Stop PhysicalPaging :=
  s.mapPageWithFrame virtualAddr (-1)

/-- `page_fault_handler`. -/
def pageFaultHandler (s : PhysicalPaging) (faultingAddress : Nat) : Except Stop PhysicalPaging := do
  let s ← s.mapPage (faultingAddress / pageSize * pageSize)
  .ok { s with pageFaults := s.pageFaults + 1 }

/-- An access to a page of the kernel heap: it faults when the page is not mapped. -/
def touchPage (s : PhysicalPaging) (page : Nat) : Except Stop PhysicalPaging :=
  if (walk s.memory s.cr3 (page * pageSize)).isSome then .ok s else s.pageFaultHandler (page * pageSize)

def touchPages (s : PhysicalPaging) (pages : List Nat) : Except Stop PhysicalPaging := pages.foldlM touchPage s

/-! ## Copies of the page directory -/

/-- One turn of the loop that shares the kernel entries of the directory. -/
def sharePde (copiedPageDir newPdFrame : Nat) (s : PhysicalPaging) (i : Nat) : Except Stop PhysicalPaging :=
  if i = 769 then s.storeEntry (copiedPageDir + 4 * i) (.mapTo newPdFrame)
  else do
    let w ← s.load (pdeAt i)
    s.store (copiedPageDir + 4 * i) w

/-- One turn of the loop that marks the entries of a copied table copy-on-write. -/
def markCopyOnWrite (heap : CloneHeap) (i : Nat) (s : PhysicalPaging) (j : Nat) : Except Stop PhysicalPaging := do
  let newPte ← s.loadEntry (heap.copiedPageTable + 4 * j)
  if !newPte.present then .ok s
  else
    let crtPte ← s.loadEntry (pteAt (i * 1024 + j))
    let s ← s.storeEntry (pteAt (i * 1024 + j)) { crtPte with rw := false }
    let s ← s.storeEntry (heap.copiedPageTable + 4 * j) { newPte with rw := false }
    let newPte ← s.loadEntry (heap.copiedPageTable + 4 * j)
    let s := (s.changeCowFrameRefcount newPte.frame 1).2
    s.touchPages (heap.countPages (i * 1024 + j))

/-- One turn of the loop that copies the user page tables. -/
def copyPageTable (heap : CloneHeap) (s : PhysicalPaging) (i : Nat) : Except Stop PhysicalPaging := do
  let crtPde ← s.loadEntry (pdeAt i)
  if !crtPde.present then .ok s
  else
    let (newPtFrame, s) ← s.allocatePhyFrame .noFrameForCopiedPageTable
    let s ← s.mapPageWithFrame heap.copiedPageTable newPtFrame
    let s ← s.memcpy heap.copiedPageTable (pageTablesVirtual + i * pageSize) pageSize
    let s ← forRange 0 1024 s (markCopyOnWrite heap i)
    s.storeEntry (heap.copiedPageDir + 4 * i) (.mapTo newPtFrame)

/-- `clone_crt_page_dir`. The new directory is added to those created so far. -/
def cloneCrtPageDir (s : PhysicalPaging) (heap : CloneHeap) : Except Stop PhysicalPaging := do
  let (newPdFrame, s) ← s.allocatePhyFrame .noFrameForPageDir
  let s ← s.touchPages heap.dirPages
  let s ← s.mapPageWithFrame heap.copiedPageDir newPdFrame
  let s ← s.clearPage heap.copiedPageDir
  let first ← s.load (pdeAt 0)
  let s ← s.store heap.copiedPageDir first
  let s ← forRange 768 1024 s (sharePde heap.copiedPageDir newPdFrame)
  let s ← s.touchPages heap.tablePages
  let s ← forRange 1 768 s (copyPageTable heap)
  let s ← s.touchPages heap.freePages
  let s ← s.releasePages heap.copiedPageDir 1 false
  let s ← s.releasePages heap.copiedPageTable 1 false
  .ok { s with
    pageDirEntriesPhy := Function.update s.pageDirEntriesPhy s.dirsNum (newPdFrame * pageSize)
    dirsNum := s.dirsNum + 1 }

/-! ## Boot -/

/-- The state in which the boot loader enters the kernel. -/
def loaded (m : Memory) : PhysicalPaging where
  memory := m
  phyFramesMap := (Paging.loaderPaging fun _ _ => 0).phyFramesMap
  copyOnWriteReady := false
  frameCowRefCounts _ := none
  pageDirEntriesPhy _ := Paging.kernelPageDirPhy
  dirsNum := 1
  crt := 0
  released := []
  pageFaults := 0

/-- `init_paging`. -/
def initPaging (s : PhysicalPaging) : Except Stop PhysicalPaging :=
  let phyFramesMap := Bitmap.create (some Paging.reservedBitarray) (Paging.physicalMemSize / pageSize)
  let phyFramesMap := phyFramesMap.setBit (Paging.physicalMemSize / pageSize - 1)
  let s := { s with phyFramesMap := phyFramesMap, crt := 0 }
  s.releasePages (0xFFFFFFFF - Paging.kernelBinLoadSize + 1) (Paging.kernelBinLoadSize / pageSize) true

/-- `init_paging_stage2`. -/
def initPagingStage2 (s : PhysicalPaging) : PhysicalPaging :=
  { s with copyOnWriteReady := true, frameCowRefCounts := fun _ => none }

/-- `main` up to `init_paging_stage2`. -/
def mainUpToStage2 (m : Memory) : Except Stop PhysicalPaging := do
  let s ← initPaging (loaded m)
  let s ← s.touchPages Paging.createKheapPages
  .ok (initPagingStage2 s)

/-- The boot loader and the start of the kernel, on a machine that starts with the memory `m`. -/
def boot (m : Memory) : Except Stop PhysicalPaging :=
  (setUpPaging m).elim (.error (.pageFault kernelBinLoadVirtualAddr)) mainUpToStage2

end PhysicalPaging

end LuckOS
