import LuckOS.Traced
import LuckOS.ByteMemory
import LuckOS.OrderedArray

/-!
# The kernel heap of `mem/kheap.c`

Blocks lie in a memory of bytes: a header of 9 bytes (magic number, hole flag, size), the
payload, and a footer of 8 bytes (magic number, address of the header). The index is an
ordered array of the headers of the holes. Arithmetic is that of `uint32`. A sum of an
address and a size that wraps and an insertion that the index refuses are logged, and
the computation goes on as the code does.
-/

namespace LuckOS

open ByteMemory Outcome

def kheapStartAddr : Nat := 0xC0C00000
def kheapMinSize : Nat := 0x300000
def kheapMaxAddr : Nat := 0xE0000000
def kheapIndexNum : Nat := 0x20000
def kheapMagic : Nat := 0x123060AB

/-- `kheap_t`, with the memory it lives in. The fields `supervisor` and `readonly` are
never read. -/
structure Kheap where
  mem : Memory
  index : List Nat
  startAddress : Nat
  endAddress : Nat
  size : Nat
  maxAddress : Nat

namespace Kheap

def pageSize : Nat := 4096
def headerSize : Nat := 9
def footerSize : Nat := 8
def blockMetaSize : Nat := 17

/-- What is logged on the way. -/
inductive Event where
  | wrapped
  | refused
  deriving DecidableEq

/-- The `ASSERT`s of the heap, the `PANIC` of `kmalloc_impl`, and a recursion that goes on
for more rounds than the model follows. -/
inductive Stop where
  | expandMax
  | makeBlockSize
  | createStart
  | createEnd
  | allocSize
  | allocRemoveLast
  | allocMagic
  | allocCut
  | allocFit
  | allocRemain
  | freeHeaderMagic
  | freeFooterMagic
  | freeRemoveRight
  | freeRemoveLeft
  | validateMagic
  | validateIndex
  | validateEnd
  | validateHoles
  | kmallocNull
  | unfinished
  deriving DecidableEq

abbrev Result := Traced Event Stop

open Traced

def add32 (a b : Nat) : Nat := (a + b) % 2 ^ 32
def sub32 (a b : Nat) : Nat := (a + (2 ^ 32 - b)) % 2 ^ 32

/-- The sum of an address and a size. -/
def addrAdd (addr size : Nat) : Result Nat := do
  noteIf (2 ^ 32 ≤ addr + size) .wrapped
  pure (add32 addr size)

/-- `header->size`, `header->is_hole` and `footer->header`; the magic numbers are the first
words of both. -/
def sizeAt (m : Memory) (header : Nat) : Nat := read32 m (header + 5)
def isHoleAt (m : Memory) (header : Nat) : UInt8 := m (header + 4)
def headerAt (m : Memory) (footer : Nat) : Nat := read32 m (footer + 4)

/-- `align_to_page`. -/
def alignToPage (num : Nat) : Nat :=
  if num % pageSize ≠ 0 then add32 (num / pageSize * pageSize) pageSize else num

/-- `kheap_expand`: the size of the expansion and the new heap. -/
def expand (h : Kheap) (expandSize : Nat) : Result (Nat × Kheap) :=
  let expandSize := alignToPage expandSize
  if expandSize = 0 then pure (0, h)
  else do
    let newEnd ← addrAdd h.endAddress expandSize
    check (newEnd ≤ h.maxAddress) .expandMax
    pure (expandSize, { h with endAddress := newEnd, size := add32 h.size expandSize })

/-- `make_block`. -/
def makeBlock (m : Memory) (start size : Nat) (isHole : Bool) : Result Memory := do
  check (0 < size) .makeBlockSize
  let e ← addrAdd start (size + blockMetaSize)
  let m := write32 m start kheapMagic
  let m := write32 m (start + 5) size
  let m := write8 m (start + 4) (if isHole then 1 else 0)
  let blockFooter := sub32 e footerSize
  let m := write32 m blockFooter kheapMagic
  pure (write32 m (blockFooter + 4) start)

/-- `kheap_block_comparator`. -/
def blockComparator (m : Memory) (x y : Nat) : Int :=
  if sizeAt m x < sizeAt m y then -1 else if sizeAt m x = sizeAt m y then 0 else 1

/-- `ordered_array_insert` on the index. -/
def insertIndex (h : Kheap) (header : Nat) : Result Kheap := do
  let r := OrderedArray.insert (blockComparator h.mem) kheapIndexNum h.index header
  noteIf (r.1 = 0) .refused
  pure { h with index := r.2 }

/-- `ordered_array_remove_element` on the index and the `ASSERT(remove)` behind it. -/
def removeIndex (h : Kheap) (header : Nat) (site : Stop) : Result Kheap := do
  let r := OrderedArray.removeElement h.index header
  check (r.1 ≠ 0) site
  pure { h with index := r.2 }

/-- `create_kheap`. -/
def create (m : Memory) (start e max : Nat) : Result Kheap := do
  check (start % pageSize = 0) .createStart
  check (e % pageSize = 0) .createEnd
  let start := add32 start (4 * kheapIndexNum)
  let m ← makeBlock m start (sub32 (sub32 e start) blockMetaSize) true
  insertIndex ⟨m, [], start, e, sub32 e start, max⟩ start

/-- The loop of `find_hole` over the page boundaries of a hole. -/
def findAligned : Nat → Nat → Nat → Nat → Nat → Result (Option Nat)
  | 0, _, _, _, _ => stop .unfinished
  | rounds + 1, start, e, nextPageAlign, size => do
    let last ← addrAdd nextPageAlign size
    if last ≤ e then
      if blockMetaSize < sub32 nextPageAlign start then pure (some nextPageAlign)
      else findAligned rounds start e (add32 nextPageAlign pageSize) size
    else pure none

/-- The loop of `find_hole` over the index; `i` is the number of the entries passed. -/
def findHoleFrom (m : Memory) (size : Nat) (pageAlign : Bool) : Nat → List Nat → Result (Option (Nat × Nat))
  | _, [] => pure none
  | i, header :: rest => do
    let start ← addrAdd header headerSize
    if pageAlign then do
      let e ← addrAdd start (sizeAt m header)
      match ← findAligned 0x100000 start e (alignToPage start) size with
      | some allocPos => pure (some (i, allocPos))
      | none => findHoleFrom m size pageAlign (i + 1) rest
    else if size ≤ sizeAt m header then pure (some (i, start))
    else findHoleFrom m size pageAlign (i + 1) rest

/-- `find_hole`: the position in the index and the payload address; `none` is -1. -/
def findHole (h : Kheap) (size : Nat) (pageAlign : Bool) : Result (Option (Nat × Nat)) :=
  findHoleFrom h.mem size pageAlign 0 h.index

/-- The expansion in `alloc`. -/
def extend (h : Kheap) (size : Nat) : Result Kheap := do
  let oldEndAddress := h.endAddress
  let (extendedSize, h) ← h.expand (add32 size blockMetaSize)
  let lastHeader := headerAt h.mem (sub32 oldEndAddress footerSize)
  if isHoleAt h.mem lastHeader ≠ 0 then do
    let m ← makeBlock h.mem lastHeader (add32 (sizeAt h.mem lastHeader) extendedSize) true
    let h ← ({ h with mem := m } : Kheap).removeIndex lastHeader .allocRemoveLast
    h.insertIndex lastHeader
  else do
    let m ← makeBlock h.mem oldEndAddress (sub32 extendedSize blockMetaSize) true
    ({ h with mem := m } : Kheap).insertIndex oldEndAddress

/-- The space in front of an aligned block becomes a hole. The result is the header and
the size of the rest. -/
def cutFront (h : Kheap) (header blockSize allocPos : Nat) : Result (Nat × Nat × Kheap) :=
  let allocBlockHeader := sub32 allocPos headerSize
  if header < allocBlockHeader then do
    let cutBlockSize := sub32 allocBlockHeader header
    check (blockMetaSize < cutBlockSize) .allocCut
    let m ← makeBlock h.mem header (sub32 cutBlockSize blockMetaSize) true
    let h ← ({ h with mem := m } : Kheap).insertIndex header
    pure (allocBlockHeader, sub32 blockSize cutBlockSize, h)
  else pure (header, blockSize, h)

/-- The block is taken, and a large enough rest becomes a hole. -/
def takeBlock (h : Kheap) (header blockSize size : Nat) : Result Kheap := do
  check (size ≤ blockSize) .allocFit
  let remainSize := sub32 blockSize size
  let (size, remainSize) := if remainSize ≤ blockMetaSize then (blockSize, 0) else (size, remainSize)
  let m ← makeBlock h.mem header size false
  if 0 < remainSize then do
    check (blockMetaSize < remainSize) .allocRemain
    let remainHoleHeader ← addrAdd header (blockMetaSize + size)
    let m ← makeBlock m remainHoleHeader (sub32 remainSize blockMetaSize) true
    ({ h with mem := m } : Kheap).insertIndex remainHoleHeader
  else pure { h with mem := m }

/-- The part of `alloc` behind a successful `find_hole`. -/
def useHole (h : Kheap) (size : Nat) (pageAlign : Bool) (iterator allocPos : Nat) : Result (Nat × Kheap) := do
  let header := OrderedArray.get h.index iterator
  check (read32 h.mem header = kheapMagic) .allocMagic
  let blockSize := sizeAt h.mem header
  let h := { h with index := (OrderedArray.remove h.index iterator).2 }
  let (header, blockSize, h) ← if pageAlign then h.cutFront header blockSize allocPos else pure (header, blockSize, h)
  let h ← h.takeBlock header blockSize size
  pure (allocPos, h)

/-- `alloc`. Every round but the last one expands the heap. -/
def alloc : Nat → Kheap → Nat → Bool → Result (Nat × Kheap)
  | 0, _, _, _ => stop .unfinished
  | rounds + 1, h, size, pageAlign => do
    check (0 < size) .allocSize
    match ← h.findHole size pageAlign with
    | none => do
      let h ← h.extend size
      alloc rounds h size pageAlign
    | some (iterator, allocPos) => h.useHole size pageAlign iterator allocPos

/-- The first merge of `free`. -/
def mergeRight (h : Kheap) (header rightHeader : Nat) : Result Kheap :=
  if read32 h.mem rightHeader = kheapMagic ∧ isHoleAt h.mem rightHeader ≠ 0 then do
    let m ← makeBlock h.mem header
      (add32 (add32 (sizeAt h.mem header) (sizeAt h.mem rightHeader)) blockMetaSize) true
    ({ h with mem := m } : Kheap).removeIndex rightHeader .freeRemoveRight
  else pure h

/-- The second merge of `free`: the header of the new hole and the heap. -/
def mergeLeft (h : Kheap) (header : Nat) : Result (Nat × Kheap) :=
  let leftFooter := sub32 header footerSize
  let leftHeader := headerAt h.mem leftFooter
  if read32 h.mem leftFooter = kheapMagic ∧ isHoleAt h.mem leftHeader = 1 then do
    let m ← makeBlock h.mem leftHeader
      (add32 (add32 (sizeAt h.mem leftHeader) (sizeAt h.mem header)) blockMetaSize) true
    let h ← ({ h with mem := m } : Kheap).removeIndex leftHeader .freeRemoveLeft
    pure (leftHeader, h)
  else pure (header, h)

/-- `free`. -/
def free (h : Kheap) (ptr : Nat) : Result Kheap :=
  if ptr = 0 then pure h
  else do
    let header := sub32 ptr headerSize
    let footer ← addrAdd ptr (sizeAt h.mem header)
    check (read32 h.mem header = kheapMagic) .freeHeaderMagic
    check (read32 h.mem footer = kheapMagic) .freeFooterMagic
    let h := { h with mem := write8 h.mem (header + 4) 1 }
    let rightHeader ← addrAdd footer footerSize
    let h ← h.mergeRight header rightHeader
    let (newHole, h) ← h.mergeLeft header
    h.insertIndex newHole

/-- The loop of `kheap_validate_print`: the numbers of holes and of allocated blocks. -/
def validateFrom (h : Kheap) : Nat → Nat → Nat → Nat → Result (Nat × Nat)
  | 0, _, _, _ => stop .unfinished
  | rounds + 1, start, holeNum, allocNum =>
    if start < h.endAddress then do
      check (read32 h.mem start = kheapMagic) .validateMagic
      let isHole := isHoleAt h.mem start ≠ 0
      check (isHole → OrderedArray.findElement h.index start < h.index.length) .validateIndex
      let start ← addrAdd start (sizeAt h.mem start + blockMetaSize)
      check (start ≤ h.endAddress) .validateEnd
      validateFrom h rounds start (if isHole then holeNum + 1 else holeNum) (if isHole then allocNum else allocNum + 1)
    else pure (holeNum, allocNum)

/-- `kheap_validate_print`, without the printing. -/
def validatePrint (h : Kheap) : Result Nat := do
  let (holeNum, allocNum) ← h.validateFrom 0x100000000 h.startAddress 0 0
  check (holeNum = h.index.length) .validateHoles
  pure allocNum

/-- `init_kheap`. -/
def initKheap (m : Memory) : Result Kheap := create m kheapStartAddr (kheapStartAddr + kheapMinSize) kheapMaxAddr

/-- `kmalloc_impl`. The heap can be expanded page by page at most up to its maximum. -/
def kmallocImpl (h : Kheap) (size : Nat) (align : Bool) : Result (Nat × Kheap) :=
  if size = 0 then pure (0, h)
  else do
    let (ptr, h) ← alloc 0x100000 h size align
    check (ptr ≠ 0) .kmallocNull
    pure (ptr, h)

end Kheap

end LuckOS
