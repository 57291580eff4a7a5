import LuckOS.Bitmap
import Mathlib.Logic.Function.Basic

/-!
# The paging code of `mem/paging.c`

Page-directory and page-table entries are records of the bits the code uses. The
page tables of a directory appear one after the other in the window at
`PAGE_TABLES_VIRTUAL`, so that an entry is addressed by the number of its virtual
page. The tables of the user half (4 MB to 3 GB) belong to a directory. Those of
the kernel half are shared by all directories. Bytes are kept per physical frame.
-/

namespace LuckOS

abbrev Byte := UInt8

namespace Paging

def pageSize : Nat := 4096
def physicalMemSize : Nat := 32 * 1024 * 1024
def kernelBinLoadSize : Nat := 1024 * 1024
def kernelPageDirPhy : Nat := 0x00101000
def copiedPageVaddr : Nat := 0xFFFFF000
def kheapStart : Nat := 0xC0C00000
def kheapMax : Nat := 0xE0000000

/-- `uint32` arithmetic. -/
def u32 (n : Nat) : Nat := n % 2 ^ 32

/-- `pte_t` and `pde_t`. -/
structure Pte where
  present : Bool
  rw : Bool
  user : Bool
  frame : Nat
  deriving DecidableEq

/-- The entry zero. -/
def Pte.zero : Pte := ⟨false, false, false, 0⟩

/-- `present = 1; rw = 1; user = 1; frame = f`. -/
def Pte.mapTo (f : Nat) : Pte := ⟨true, true, true, f⟩

/-- A page directory: its physical frame, its entries and its user page tables. -/
structure PageDir where
  frame : Nat
  pde : Nat → Pte
  pte : Nat → Pte

end Paging

open Paging

/-- The state of the paging code. `dirs` holds the directories created so far and
`crt` the one in `current_page_directory`. `released` lists the arguments of the calls
of `release_phy_frame`, the latest first; no code reads it. -/
structure Paging where
  phyFramesMap : Bitmap
  copyOnWriteReady : Bool
  frameCowRefCounts : Nat → Option Int
  dirs : Nat → PageDir
  dirsNum : Nat
  crt : Nat
  kernelPte : Nat → Pte
  bytes : Nat → Nat → Byte
  released : List Nat

namespace Paging

/-- The reasons for which the paging code stops in `PANIC`. The last three stand for
executions that the model does not follow any further. -/
inductive Panic where
  | noFrameForPageTable (pdeIndex : Nat)
  | noFrameForAddr (virtualAddr : Nat)
  | noFrameForPageDir
  | noFrameForCopiedPageTable
  | copyNested
  | frameZeroTable
  | faultRepeated
  deriving DecidableEq

/-- The frame allocator is exhausted. -/
def Panic.OutOfFrames : Panic → Prop
  | .copyNested | .frameZeroTable | .faultRepeated => False
  | _ => True

/-- The pages of 4 MB to 3 GB. -/
def isUserPage (page : Nat) : Bool := decide (1024 ≤ page ∧ page < 768 * 1024)

/-- The directory entries of 4 MB to 3 GB. -/
def isUserTable (i : Nat) : Bool := decide (1 ≤ i ∧ i < 768)

def crtDir (s : Paging) : PageDir := s.dirs s.crt

def setCrtDir (s : Paging) (d : PageDir) : Paging := { s with dirs := Function.update s.dirs s.crt d }

/-- Read an entry at `PAGE_DIR_VIRTUAL`. -/
def getPde (s : Paging) (i : Nat) : Pte := s.crtDir.pde i

def setPde (s : Paging) (i : Nat) (e : Pte) : Paging :=
  s.setCrtDir { s.crtDir with pde := Function.update s.crtDir.pde i e }

/-- Read an entry at `PAGE_TABLES_VIRTUAL`. -/
def getPte (s : Paging) (i : Nat) : Pte := if isUserPage i then s.crtDir.pte i else s.kernelPte i

def setPte (s : Paging) (i : Nat) (e : Pte) : Paging :=
  if isUserPage i then s.setCrtDir { s.crtDir with pte := Function.update s.crtDir.pte i e }
  else { s with kernelPte := Function.update s.kernelPte i e }

/-- `allocate_phy_frame`; `none` is the result -1. -/
def allocatePhyFrame (s : Paging) : Option (Nat × Paging) :=
  (s.phyFramesMap.allocateFirstFree).map (fun r => (r.1, { s with phyFramesMap := r.2 }))

/-- `release_phy_frame`. -/
def releasePhyFrame (s : Paging) (frame : Nat) : Paging :=
  { s with phyFramesMap := s.phyFramesMap.clearBit frame, released := frame :: s.released }

/-- `clear_page` on a mapped page. -/
def clearPage (s : Paging) (addr : Nat) : Paging :=
  { s with bytes := Function.update s.bytes (s.getPte (addr / pageSize)).frame (fun _ => 0) }

/-- `clear_page` on the page table with index `i` in the window. -/
def clearPageTable (s : Paging) (i : Nat) : Paging :=
  if isUserTable i then
    s.setCrtDir { s.crtDir with pte := fun p => if p / 1024 = i then .zero else s.crtDir.pte p }
  else { s with kernelPte := fun p => if p / 1024 = i then .zero else s.kernelPte p }

/-- `memcpy` of one mapped page to another one. -/
def memcpyPage (s : Paging) (dst src : Nat) : Paging :=
  { s with
    bytes := Function.update s.bytes (s.getPte (dst / pageSize)).frame (s.bytes (s.getPte (src / pageSize)).frame) }

/-- `change_cow_frame_refcount`: the old count and the new state. -/
def changeCowFrameRefcount (s : Paging) (frame : Nat) (refcountDelta : Int) : Int × Paging :=
  if !s.copyOnWriteReady then (0, s)
  else
    let oldCnt := (s.frameCowRefCounts frame).getD 0
    let newCnt := oldCnt + refcountDelta
    let cntPtr := if 0 < newCnt then some newCnt else none
    (oldCnt, { s with frameCowRefCounts := Function.update s.frameCowRefCounts frame cntPtr })

/-- `release_page`. -/
def releasePage (s : Paging) (virtualAddr : Nat) (freeFrame : Bool) : Paging :=
  let pteIndex := virtualAddr / pageSize
  let pte := s.getPte pteIndex
  if !pte.present then s
  else if freeFrame then
    let r := s.changeCowFrameRefcount pte.frame (-1)
    let t := if r.1 ≤ 0 then r.2.releasePhyFrame pte.frame else r.2
    t.setPte pteIndex .zero
  else s.setPte pteIndex .zero

/-- The loop `for (i = lo; i < hi; i++)`. -/
def forRange (lo hi : Nat) (s : Paging) (body : Paging → Nat → Paging) : Paging :=
  (List.range' lo (hi - lo)).foldl body s

/-- `release_pages`. -/
def releasePages (s : Paging) (virtualAddr pages : Nat) (freeFrame : Bool) : Paging :=
  let pteIndexStart := virtualAddr / pageSize
  let pteIndexEnd := u32 (pteIndexStart + pages)
  let pdeIndexStart := pteIndexStart / 1024
  let pdeIndexEnd := u32 (pteIndexEnd + (2 ^ 32 - 1)) / 1024 + 1
  forRange pdeIndexStart pdeIndexEnd s (fun s i =>
    if !(s.getPde i).present then s
    else forRange (max pteIndexStart (i * 1024)) (min pteIndexEnd (i * 1024 + 1024)) s
      (fun s j => s.releasePage (j * pageSize) freeFrame))

/-- `release_pages_tables`. -/
def releasePagesTables (s : Paging) (pdeIndexStart num : Nat) : Paging :=
  forRange pdeIndexStart (pdeIndexStart + num) s (fun s i =>
    if !(s.getPde i).present then s
    else (s.releasePhyFrame (s.getPde i).frame).setPde i .zero)

/-- The first part of `map_page_with_frame_impl`: allocate a page table, if needed. -/
def ensurePageTable (s : Paging) (pdeIndex : Nat) : Except Panic Paging :=
  if !(s.getPde pdeIndex).present then
    match s.allocatePhyFrame with
    | none => .error (.noFrameForPageTable pdeIndex)
    | some (pageTableFrame, s) => .ok ((s.setPde pdeIndex (.mapTo pageTableFrame)).clearPageTable pdeIndex)
  else .ok s

/-- `map_page_with_frame_impl`. The copy-on-write branch calls itself once, for the
copy window; `depth` bounds this nesting. -/
def mapPageWithFrameImpl (depth : Nat) (s : Paging) (virtualAddr : Nat) (frame : Int) : Except Panic Paging :=
  match depth with
  | 0 => .error .copyNested
  | depth + 1 => do
    let s ← s.ensurePageTable (virtualAddr / 2 ^ 22)
    let pteIndex := virtualAddr / 2 ^ 12
    let pte := s.getPte pteIndex
    if 0 < frame then
      .ok (s.setPte pteIndex (.mapTo frame.toNat))
    else if !pte.present then
      match s.allocatePhyFrame with
      | none => .error (.noFrameForAddr virtualAddr)
      | some (frame, s) => .ok ((s.setPte pteIndex (.mapTo frame)).clearPage virtualAddr)
    else if !pte.rw then
      let (cowRefs, s) := s.changeCowFrameRefcount pte.frame (-1)
      if 0 < cowRefs then
        match s.allocatePhyFrame with
        | none => .error (.noFrameForAddr virtualAddr)
        | some (frame, s) => do
          let s ← mapPageWithFrameImpl depth s copiedPageVaddr frame
          let s := s.memcpyPage copiedPageVaddr virtualAddr
          let s := s.setPte pteIndex { pte with frame := frame, rw := true }
          .ok (s.releasePages copiedPageVaddr 1 false)
      else .ok (s.setPte pteIndex { pte with rw := true })
    else .ok s

/-- `map_page_with_frame`; its lock has no effect on an uninterrupted call. -/
def mapPageWithFrame (s : Paging) (virtualAddr : Nat) (frame : Int) : Except Panic Paging :=
  s.mapPageWithFrameImpl 2 virtualAddr frame

/-- `map_page`. -/
def mapPage (s : Paging) (virtualAddr : Nat) : Except Panic Paging := s.mapPageWithFrame virtualAddr (-1)

/-- `page_fault_handler`. -/
def pageFaultHandler (s : Paging) (faultingAddress : Nat) : Except Panic Paging :=
  s.mapPage (faultingAddress / pageSize * pageSize)

/-- A kernel access to a page: it faults when the page is not present. -/
def touchPage (s : Paging) (page : Nat) : Except Panic Paging :=
  if (s.getPte page).present then .ok s else s.pageFaultHandler (page * pageSize)

def touchPages (s : Paging) (pages : List Nat) : Except Panic Paging := pages.foldlM touchPage s

/-- `release_user_space_pages` of `task/process.c`. -/
def releaseUserSpacePages (s : Paging) : Paging :=
  (s.releasePages (4 * 1024 * 1024) (767 * 1024) true).releasePagesTables 1 767

/-- The pages of the kernel heap. -/
def IsHeapPage (page : Nat) : Prop := kheapStart / pageSize ≤ page ∧ page < kheapMax / pageSize

/-- What `clone_crt_page_dir` gets from the kernel heap: the two aligned pages it
borrows, and the heap pages that the calls of `kmalloc_aligned`, of `kmalloc` for a
count and of `kfree` touch. -/
structure CloneHeap where
  copiedPageDir : Nat
  copiedPageTable : Nat
  dirPages : List Nat
  tablePages : List Nat
  countPages : Nat → List Nat
  freePages : List Nat
  copiedPageDir_heap : IsHeapPage (copiedPageDir / pageSize)
  copiedPageTable_heap : IsHeapPage (copiedPageTable / pageSize)
  dirPages_heap : ∀ p ∈ dirPages, IsHeapPage p
  tablePages_heap : ∀ p ∈ tablePages, IsHeapPage p
  countPages_heap : ∀ q, ∀ p ∈ countPages q, IsHeapPage p
  freePages_heap : ∀ p ∈ freePages, IsHeapPage p

/-- The new directory before the user page tables are copied. Entry 769 points to the
directory itself. -/
def newPageDir (crtPd : PageDir) (newPdFrame : Nat) : PageDir where
  frame := newPdFrame
  pde i :=
    if i = 0 then crtPd.pde 0
    else if i = 769 then .mapTo newPdFrame
    else if 768 ≤ i ∧ i < 1024 then crtPd.pde i
    else .zero
  pte _ := .zero

/-- One turn of the loop that marks the entries of a copied table copy-on-write. -/
def markCopyOnWrite (heap : CloneHeap) (i : Nat) (st : Paging × PageDir) (j : Nat) :
    Except Panic (Paging × PageDir) :=
  let p := i * 1024 + j
  let newPte := st.2.pte p
  if !newPte.present then .ok st
  else do
    let s := st.1.setPte p { st.1.getPte p with rw := false }
    let newPd := { st.2 with pte := Function.update st.2.pte p { newPte with rw := false } }
    let s := (s.changeCowFrameRefcount newPte.frame 1).2
    let s ← s.touchPages (heap.countPages p)
    .ok (s, newPd)

/-- One turn of the loop that copies the user page tables. -/
def copyPageTable (heap : CloneHeap) (st : Paging × PageDir) (i : Nat) : Except Panic (Paging × PageDir) :=
  if !(st.1.getPde i).present then .ok st
  else
    match st.1.allocatePhyFrame with
    | none => .error .noFrameForCopiedPageTable
    | some (newPtFrame, s) => do
      let s ← s.mapPageWithFrame heap.copiedPageTable newPtFrame
      if newPtFrame = 0 then .error .frameZeroTable
      else do
        let crtPd := s.crtDir
        let newPd := { st.2 with pte := fun p => if p / 1024 = i then crtPd.pte p else st.2.pte p }
        let r ← (List.range 1024).foldlM (markCopyOnWrite heap i) (s, newPd)
        .ok (r.1, { r.2 with pde := Function.update r.2.pde i (.mapTo newPtFrame) })

/-- `clone_crt_page_dir`. The new directory is added to `dirs`. Frame 0 is no frame for
`map_page_with_frame`, so that an image written to it is lost. -/
def cloneCrtPageDir (s : Paging) (heap : CloneHeap) : Except Panic Paging :=
  match s.allocatePhyFrame with
  | none => .error .noFrameForPageDir
  | some (newPdFrame, s) => do
    let s ← s.touchPages heap.dirPages
    let s ← s.mapPageWithFrame heap.copiedPageDir newPdFrame
    if newPdFrame = 0 then .error .frameZeroTable
    else do
      let newPd := newPageDir s.crtDir newPdFrame
      let s ← s.touchPages heap.tablePages
      let r ← (List.range' 1 767).foldlM (copyPageTable heap) (s, newPd)
      let s ← r.1.touchPages heap.freePages
      let s := s.releasePages heap.copiedPageDir 1 false
      let s := s.releasePages heap.copiedPageTable 1 false
      .ok { s with dirs := Function.update s.dirs s.dirsNum r.2, dirsNum := s.dirsNum + 1 }

/-- `page_dir_entries_phy`. -/
def PageDir.pageDirEntriesPhy (d : PageDir) : Nat := d.frame * pageSize

/-- The kernel page tables that `boot/loader.S` sets up, without the window of the page
tables themselves: low memory (twice), the kernel image, the kernel stack and the
loaded kernel binary. -/
def loaderPte (p : Nat) : Pte :=
  if p < 256 then .mapTo p
  else if 768 * 1024 ≤ p ∧ p < 768 * 1024 + 256 then .mapTo (p - 768 * 1024)
  else if 0xC0800 ≤ p ∧ p < 0xC0900 then .mapTo (p - 0xC0800 + 0x200)
  else if 0xEFFFF ≤ p ∧ p < 0xF0001 then .mapTo (p - 0xEFFFF + 8191)
  else if 0xFFF00 ≤ p ∧ p < 0x100000 then .mapTo (p - 0xFFF00 + 7935)
  else .zero

/-- The page directory that `boot/loader.S` sets up. -/
def loaderDir : PageDir where
  frame := kernelPageDirPhy / pageSize
  pde i :=
    if i = 0 ∨ i = 768 then .mapTo 0x100
    else if 769 ≤ i ∧ i < 1024 then .mapTo (i - 769 + 0x101)
    else .zero
  pte _ := .zero

/-- The state in which the boot loader enters the kernel. -/
def loaderPaging (bytes : Nat → Nat → Byte) : Paging where
  phyFramesMap := ⟨[], false, 0, 0, Nat.le_refl 0⟩
  copyOnWriteReady := false
  frameCowRefCounts _ := none
  dirs _ := loaderDir
  dirsNum := 1
  crt := 0
  kernelPte := loaderPte
  bytes := bytes
  released := []

/-- The static array of the frame bitmap after the loop of `init_paging`, which marks
the first 3 MB. -/
def reservedBitarray : List Word :=
  List.replicate (3 * 1024 * 1024 / pageSize / 32) 0xFFFFFFFF ++
    List.replicate (physicalMemSize / pageSize / 32 - 3 * 1024 * 1024 / pageSize / 32) 0

/-- `init_paging`. -/
@[irreducible] def initPaging (s : Paging) : Paging :=
  let phyFramesMap := Bitmap.create (some reservedBitarray) (physicalMemSize / pageSize)
  let phyFramesMap := phyFramesMap.setBit (physicalMemSize / pageSize - 1)
  let s := { s with phyFramesMap := phyFramesMap, crt := 0 }
  s.releasePages (0xFFFFFFFF - kernelBinLoadSize + 1) (kernelBinLoadSize / pageSize) true

/-- `init_paging_stage2`. -/
def initPagingStage2 (s : Paging) : Paging :=
  { s with copyOnWriteReady := true, frameCowRefCounts := fun _ => none }

/-- The heap pages that `create_kheap` writes first: header and footer of the first hole
and the first entry of the index. -/
def createKheapPages : List Nat := [0xC0C80, 0xC0EFF, 0xC0C00]

/-- `main` up to the first process: `init_paging`, `init_kheap`, `init_paging_stage2` and
the initialisers behind them, which touch the heap pages `pages`. -/
def boot (bytes : Nat → Nat → Byte) (pages : List Nat) : Except Panic Paging := do
  let s := initPaging (loaderPaging bytes)
  let s ← s.touchPages createKheapPages
  (initPagingStage2 s).touchPages pages

end Paging

end LuckOS
