import LuckOS.KheapInvariant

/-!
# The heap pages that `clone_crt_page_dir` borrows

`clone_crt_page_dir` takes two pages of the kernel heap, maps frames of its own there, gives
both blocks back to the heap, and releases the mappings behind that. The page tables of the
kernel are shared, so that other threads see each of these changes. The memory of the heap is
what its addresses read: no frame is mapped to two pages of the heap, and a page that is not
mapped is cleared by the page fault that maps it.
-/

namespace LuckOS.Kheap

open ByteMemory Outcome Traced Tiling Runs Function

/-- How far `clone_crt_page_dir` has come, with `copied_page_dir` and `copied_page_table`. -/
inductive CloneStage where
  | idle
  | dirTaken (dir : Nat)
  | dirMapped (dir : Nat)
  | copying (dir table : Nat)
  | dirFreed (dir table : Nat)
  | bothFreed (dir table : Nat)
  | dirReleased (table : Nat)
  deriving DecidableEq

namespace CloneStage

/-- The blocks that are allocated. -/
def blocks : CloneStage → List Nat
  | dirTaken dir | dirMapped dir => [dir]
  | copying dir table => [dir, table]
  | dirFreed _ table => [table]
  | _ => []

/-- The pages that are mapped and written. -/
def written : CloneStage → List Nat
  | dirMapped dir => [dir]
  | copying dir table => [dir, table]
  | _ => []

/-- The pages of blocks that are freed and not yet released. -/
def pending : CloneStage → List Nat
  | dirFreed dir _ => [dir]
  | bothFreed dir table => [dir, table]
  | dirReleased table => [table]
  | _ => []

end CloneStage

/-- The heap, the page table entries of the kernel, the blocks of the other threads, the stage of
the clone, and the byte that another thread has stored last at each address of its blocks. -/
structure SharedHeap where
  heap : Kheap
  pte : Nat → Option Nat
  held : List Nat
  stage : CloneStage
  stored : Nat → Option UInt8

/-- The steps of `clone_crt_page_dir`. A frame that is mapped has some content. -/
inductive CloneStep where
  | kmallocDir
  | mapDir (frame : Nat) (content : Memory)
  | kmallocTable
  | mapTable (frame : Nat) (content : Memory)
  | store (addr : Nat) (byte : UInt8)
  | kfreeDir
  | kfreeTable
  | releaseDir
  | releaseTable

/-- The steps of the other threads and those of the clone. A page fault maps a page that is not
mapped. -/
inductive SharedAction where
  | kmalloc (size : Nat) (align : Bool)
  | kfree (ptr : Nat)
  | store (ptr addr : Nat) (byte : UInt8)
  | fault (page frame : Nat)
  | clone (c : CloneStep)

/-- The page gets another content. -/
def setPage (m : Memory) (page : Nat) (content : Memory) : Memory :=
  fun a => if a / pageSize = page then content a else m a

namespace SharedHeap

def start (heap : Kheap) (pte : Nat → Option Nat) : SharedHeap := ⟨heap, pte, [], .idle, fun _ => none⟩

def withMem (s : SharedHeap) (m : Memory) : SharedHeap := { s with heap := { s.heap with mem := m } }

/-- `map_page_with_frame` with a frame. -/
def mapPageWithFrame (s : SharedHeap) (addr frame : Nat) (content : Memory) : SharedHeap :=
  { s.withMem (setPage s.heap.mem (addr / pageSize) content) with
    pte := update s.pte (addr / pageSize) (some frame) }

/-- `release_pages` of one page whose frame is not freed. -/
def releasePages (s : SharedHeap) (addr : Nat) : SharedHeap :=
  if s.pte (addr / pageSize) = none then s
  else { s.withMem (setPage s.heap.mem (addr / pageSize) fun _ => 0) with pte := update s.pte (addr / pageSize) none }

/-- `kmalloc_aligned(PAGE_SIZE)` of the clone. -/
def borrow (s : SharedHeap) (stage : Nat → CloneStage) : Option SharedHeap :=
  (s.heap.kmallocImpl pageSize true).value?.map fun r => { s with heap := r.2, stage := stage r.1 }

/-- `kfree` of the clone. -/
def giveBack (s : SharedHeap) (ptr : Nat) (stage : CloneStage) : Option SharedHeap :=
  if Fenced s.heap then (s.heap.free ptr).value?.map fun h => { s with heap := h, stage := stage } else none

def clone (s : SharedHeap) (c : CloneStep) : Option SharedHeap :=
  match c, s.stage with
  | .kmallocDir, .idle => s.borrow fun dir => .dirTaken dir
  | .mapDir frame content, .dirTaken dir => some { s.mapPageWithFrame dir frame content with stage := .dirMapped dir }
  | .kmallocTable, .dirMapped dir => s.borrow fun table => .copying dir table
  | .mapTable frame content, .copying _ table => some (s.mapPageWithFrame table frame content)
  | .store addr byte, stage =>
    if ∃ p ∈ stage.written, p ≤ addr ∧ addr < p + pageSize then some (s.withMem (write8 s.heap.mem addr byte)) else none
  | .kfreeDir, .copying dir table => s.giveBack dir (.dirFreed dir table)
  | .kfreeTable, .dirFreed dir table => s.giveBack table (.bothFreed dir table)
  | .releaseDir, .bothFreed dir table => some { s.releasePages dir with stage := .dirReleased table }
  | .releaseTable, .dirReleased table => some { s.releasePages table with stage := .idle }
  | _, _ => none

def step (s : SharedHeap) : SharedAction → Option SharedHeap
  | .kmalloc size align =>
    if 0 < size then (s.heap.kmallocImpl size align).value?.map fun r =>
      { s with heap := r.2, held := r.1 :: s.held,
               stored := fun a => if r.1 ≤ a ∧ a < r.1 + recordedSize r.2.mem r.1 then none else s.stored a }
    else none
  | .kfree ptr =>
    if ptr ∈ s.held ∧ Fenced s.heap then (s.heap.free ptr).value?.map fun h =>
      { s with heap := h, held := s.held.erase ptr }
    else none
  | .store ptr addr byte =>
    if ptr ∈ s.held ∧ ptr ≤ addr ∧ addr < ptr + recordedSize s.heap.mem ptr then
      some { s.withMem (write8 s.heap.mem addr byte) with stored := update s.stored addr (some byte) }
    else none
  | .fault page frame => if s.pte page = none then some { s with pte := update s.pte page (some frame) } else none
  | .clone c => s.clone c

/-- The byte that a thread has stored last in its block is read there. -/
def ReadsBack (s : SharedHeap) : Prop :=
  ∀ ptr ∈ s.held, ∀ addr, ptr ≤ addr → addr < ptr + recordedSize s.heap.mem ptr →
    ∀ byte, s.stored addr = some byte → s.heap.mem addr = byte

/-- The page overlaps the payload of the block. -/
def Overlaps (m : Memory) (ptr page : Nat) : Prop :=
  ptr < page * pageSize + pageSize ∧ page * pageSize < ptr + recordedSize m ptr

/-- No step of the clone unmaps or remaps a page that overlaps a block of another thread. -/
def KeepsMapped (s : SharedHeap) : Prop :=
  ∀ c t, s.clone c = some t → ∀ ptr ∈ s.held, ∀ page, Overlaps s.heap.mem ptr page → t.pte page = s.pte page

/-- The page lies in a hole. -/
def HoleAround (h : Kheap) (p : Nat) : Prop :=
  ∃ header ∈ h.index, header + 9 ≤ p ∧ p + pageSize ≤ header + 9 + sizeAt h.mem header

instance (h : Kheap) (p : Nat) : Decidable (HoleAround h p) :=
  inferInstanceAs (Decidable (∃ header ∈ h.index, _))

/-- An allocation leaves the pages that the clone has still to release inside of holes. -/
def AllocatesApart (s : SharedHeap) : SharedAction → Prop
  | .kmalloc size align => ∀ r ∈ (s.heap.kmallocImpl size align).value?, ∀ p ∈ s.stage.pending, HoleAround r.2 p
  | _ => True

instance (s : SharedHeap) (a : SharedAction) : Decidable (s.AllocatesApart a) :=
  match a with
  | .kmalloc size align =>
    inferInstanceAs (Decidable (∀ r ∈ (s.heap.kmallocImpl size align).value?, ∀ p ∈ s.stage.pending, HoleAround r.2 p))
  | .kfree _ | .store .. | .fault .. | .clone _ => isTrue trivial

end SharedHeap

variable {s t : SharedHeap} {h h' : Kheap} {m : Memory} {bs bs' : List Block} {b c : Block} {p ptr : Nat}

@[simp] theorem SharedHeap.releasePages_stage (s : SharedHeap) (addr : Nat) : (s.releasePages addr).stage = s.stage := by
  rw [SharedHeap.releasePages]
  split_ifs <;> rfl

theorem changedIn_setPage (m content : Memory) (hp : p % pageSize = 0) :
    ChangedIn m (setPage m (p / pageSize) content) p (p + pageSize) := by
  intro x hx
  rw [setPage, if_neg]
  simp only [pageSize] at hp hx ⊢
  omega

/-- The page lies in the payload of a block that no other thread holds. -/
structure Roomy (held : List Nat) (bs : List Block) (p : Nat) (c : Block) : Prop where
  mem : c ∈ bs
  free : c.addr + 9 ∉ held
  aligned : p % pageSize = 0
  lower : c.addr + 9 ≤ p
  upper : p + pageSize ≤ c.addr + 9 + c.size

/-- What holds along the runs in which allocations keep away from the pages that are still to be
released. -/
structure CloneInv (s : SharedHeap) (bs : List Block) : Prop where
  laid : Laid s.heap bs
  live : (s.held ++ s.stage.blocks).Perm (Kheap.live bs)
  borrowed : ∀ p ∈ s.stage.blocks, p % pageSize = 0 ∧ pageSize ≤ recordedSize s.heap.mem p
  pending : ∀ p ∈ s.stage.pending, ∃ c, c.hole = true ∧ Roomy s.held bs p c
  reads : s.ReadsBack

theorem Laid.eq_of_live (hl : Laid h bs) (hb : b ∈ bs) (hp : b.addr + 9 ∈ live bs) : b.hole = false := by
  obtain ⟨c, hc, haddr, hhole⟩ := mem_live hp
  obtain rfl := hl.tiles.eq_of_first hc hb (by omega)
  exact hhole

theorem Laid.recordedSize_eq (hl : Laid h bs) (hl' : Laid h' bs) (hp : p ∈ live bs) :
    recordedSize h'.mem p = recordedSize h.mem p := by
  obtain ⟨b, hb, rfl, -⟩ := mem_live hp
  exact (hl'.stored b hb).recordedSize.trans (hl.stored b hb).recordedSize.symm

/-- A block whose payload is kept reads back what was stored. -/
theorem SharedHeap.ReadsBack.same (hs : s.ReadsBack) (hptr : ptr ∈ s.held) (hsame : SamePayload s.heap.mem m ptr) :
    ∀ addr, ptr ≤ addr → addr < ptr + recordedSize m ptr → ∀ byte, s.stored addr = some byte → m addr = byte := by
  intro addr haddr hlt byte hbyte
  rw [hsame.1] at hlt
  exact (hsame.2 addr haddr hlt).trans (hs ptr hptr addr haddr hlt byte hbyte)

namespace CloneInv

theorem held_live (hi : CloneInv s bs) (hp : ptr ∈ s.held) : ptr ∈ Kheap.live bs :=
  hi.live.mem_iff.mp (List.mem_append_left _ hp)

theorem block_live (hi : CloneInv s bs) (hp : p ∈ s.stage.blocks) : p ∈ Kheap.live bs :=
  hi.live.mem_iff.mp (List.mem_append_right _ hp)

theorem nodup (hi : CloneInv s bs) : (s.held ++ s.stage.blocks).Nodup :=
  hi.live.nodup_iff.mpr hi.laid.nodup_live

/-- A borrowed page. -/
theorem roomy (hi : CloneInv s bs) (hp : p ∈ s.stage.blocks) : ∃ c, c.addr + 9 = p ∧ Roomy s.held bs p c := by
  obtain ⟨c, hc, rfl, -⟩ := mem_live (hi.block_live hp)
  obtain ⟨haligned, hsize⟩ := hi.borrowed _ hp
  rw [(hi.laid.stored c hc).recordedSize] at hsize
  refine ⟨c, rfl, hc, fun hheld => ?_, haligned, Nat.le_refl _, by omega⟩
  exact (List.nodup_append.mp hi.nodup).2.2 _ hheld _ hp rfl

/-- A page that no other thread holds does not overlap the blocks of the others. -/
theorem not_overlaps {page : Nat} (hi : CloneInv s bs) (hr : Roomy s.held bs p c) (hptr : ptr ∈ s.held)
    (ho : SharedHeap.Overlaps s.heap.mem ptr page) : page ≠ p / pageSize := by
  obtain ⟨b, hb, rfl, -⟩ := mem_live (hi.held_live hptr)
  have hne : b ≠ c := by
    rintro rfl
    exact hr.free hptr
  have hapart := hi.laid.tiles.apart_of_ne hr.mem hb hne
  obtain ⟨hlo, hhi⟩ := ho
  have haligned := hr.aligned
  have hlower := hr.lower
  have hupper := hr.upper
  rw [(hi.laid.stored b hb).recordedSize] at hhi
  simp only [Block.last, pageSize] at *
  omega

/-- The clone changes the content of a page that no other thread holds. -/
theorem changePage {lo hi : Nat} {pte : Nat → Option Nat} (hinv : CloneInv s bs) (hr : Roomy s.held bs p c)
    (hc : ChangedIn s.heap.mem m lo hi) (hlo : p ≤ lo) (hhi : hi ≤ p + pageSize) :
    CloneInv { s.withMem m with pte := pte } bs := by
  have hlower := hr.lower
  have hupper := hr.upper
  have hl := hinv.laid.changePayload hr.mem hc (by omega) (by omega)
  have hsize : ∀ q ∈ Kheap.live bs, recordedSize m q = recordedSize s.heap.mem q :=
    fun q hq => hinv.laid.recordedSize_eq hl hq
  refine ⟨hl, hinv.live, ?_, hinv.pending, ?_⟩
  · intro q hq
    change _ ∧ _ ≤ recordedSize m q
    rw [hsize q (hinv.block_live hq)]
    exact hinv.borrowed q hq
  · intro ptr hptr
    refine hinv.reads.same hptr ⟨hsize ptr (hinv.held_live hptr), ?_⟩
    obtain ⟨d, hd, rfl, -⟩ := mem_live (hinv.held_live hptr)
    have hne : d ≠ c := by
      rintro rfl
      exact hr.free hptr
    rw [(hinv.laid.stored d hd).recordedSize]
    have hsame := hinv.laid.sameOn_of_ne hr.mem hc (by omega) (by omega) hd hne
    exact hsame.mono (by omega) (by simp only [Block.last]; omega)

/-- The clone maps or releases a page that no other thread holds. -/
theorem setPage {content : Memory} {pte : Nat → Option Nat} (hi : CloneInv s bs) (hr : Roomy s.held bs p c) :
    CloneInv { s.withMem (Kheap.setPage s.heap.mem (p / pageSize) content) with pte := pte } bs :=
  hi.changePage hr (changedIn_setPage s.heap.mem content hr.aligned) (Nat.le_refl _) (Nat.le_refl _)

theorem releasePages (hi : CloneInv s bs) (hr : Roomy s.held bs p c) : CloneInv (s.releasePages p) bs := by
  rw [SharedHeap.releasePages]
  split_ifs
  · exact hi
  · exact hi.setPage hr

/-- The stage moves on and keeps its blocks. -/
theorem withStage {stage : CloneStage} (hi : CloneInv s bs) (hblocks : stage.blocks = s.stage.blocks)
    (hpending : ∀ p ∈ stage.pending, p ∈ s.stage.pending) : CloneInv { s with stage := stage } bs where
  laid := hi.laid
  live := by
    change (s.held ++ stage.blocks).Perm _
    rw [hblocks]
    exact hi.live
  borrowed := by
    change ∀ p ∈ stage.blocks, _
    rw [hblocks]
    exact hi.borrowed
  pending p hp := hi.pending p (hpending p hp)
  reads := hi.reads

/-- The pages to be released are in holes of the new heap. -/
theorem roomy_of_holeAround (hl : Laid h bs) {held : List Nat} (hheld : ∀ ptr ∈ held, ptr ∈ Kheap.live bs)
    (hp : p % pageSize = 0) (hhole : SharedHeap.HoleAround h p) : ∃ c, c.hole = true ∧ Roomy held bs p c := by
  obtain ⟨header, hmem, hlo, hhi⟩ := hhole
  obtain ⟨holes, hindex, hperm, -⟩ := hl.indexed.exists_holes
  rw [hindex] at hmem
  obtain ⟨c, hc, rfl⟩ := List.mem_map.mp hmem
  obtain ⟨hcs, hchole⟩ := List.mem_filter.mp (hperm.mem_iff.mp hc)
  rw [(hl.stored c hcs).size] at hhi
  refine ⟨c, hchole, hcs, fun hin => ?_, hp, hlo, hhi⟩
  have hfalse := hl.eq_of_live hcs (hheld _ hin)
  simp [hchole] at hfalse

/-- Another thread allocates a block. -/
theorem kmalloc {size : Nat} {align : Bool} (hi : CloneInv s bs) (ha : Allocated s.heap bs size align p h' bs')
    (hpending : ∀ q ∈ s.stage.pending, SharedHeap.HoleAround h' q) :
    CloneInv { s with heap := h', held := p :: s.held,
                      stored := fun a => if p ≤ a ∧ a < p + recordedSize h'.mem p then none else s.stored a } bs' := by
  have hlive : (p :: s.held ++ s.stage.blocks).Perm (Kheap.live bs') := (hi.live.cons p).trans ha.live.symm
  refine ⟨ha.laid, hlive, ?_, ?_, ?_⟩
  · intro q hq
    change _ ∧ _ ≤ recordedSize h'.mem q
    rw [(ha.samePayload hi.laid (hi.block_live hq)).1]
    exact hi.borrowed q hq
  · intro q hq
    obtain ⟨_, -, hroomy⟩ := hi.pending q hq
    refine roomy_of_holeAround ha.laid (fun ptr hptr => ?_) hroomy.aligned (hpending q hq)
    exact hlive.mem_iff.mp (List.mem_append_left _ hptr)
  · intro ptr hptr addr haddr hlt byte hbyte
    simp only at hlt hbyte
    split_ifs at hbyte with hin
    rcases List.mem_cons.mp hptr with rfl | hptr
    · exact absurd ⟨haddr, hlt⟩ hin
    · exact hi.reads.same hptr (ha.samePayload hi.laid (hi.held_live hptr)) addr haddr hlt byte hbyte

/-- The clone allocates a page. -/
theorem borrow {stage : Nat → CloneStage} (hi : CloneInv s bs) (h : s.borrow stage = some t)
    (hblocks : ∀ p, (stage p).blocks.Perm (p :: s.stage.blocks)) (hpending : ∀ p, (stage p).pending = []) :
    (∃ bs', CloneInv t bs') ∧ t.pte = s.pte := by
  obtain ⟨⟨p, h'⟩, hcall, rfl⟩ := Option.map_eq_some_iff.mp h
  obtain ⟨bs', ha⟩ := kmallocImpl_spec hi.laid (by decide) (eq_of_value? hcall)
  refine ⟨⟨bs', ha.laid, ?_, ?_, ?_, ?_⟩, rfl⟩
  · exact (((hblocks p).append_left s.held).trans List.perm_middle).trans ((hi.live.cons p).trans ha.live.symm)
  · intro q hq
    rcases List.mem_cons.mp ((hblocks p).mem_iff.mp hq) with rfl | hq
    · exact ⟨ha.aligned rfl, ha.size_le⟩
    · change _ ∧ _ ≤ recordedSize h'.mem q
      rw [(ha.samePayload hi.laid (hi.block_live hq)).1]
      exact hi.borrowed q hq
  · intro q hq
    change q ∈ (stage p).pending at hq
    simp [hpending] at hq
  · exact fun ptr hptr => hi.reads.same hptr (ha.samePayload hi.laid (hi.held_live hptr))

/-- A block is freed, by another thread or by the clone. -/
theorem kfree {held : List Nat} {stage : CloneStage} (hi : CloneInv s bs) (hf : Freed s.heap bs ptr h' bs')
    (hperm : (ptr :: (held ++ stage.blocks)).Perm (s.held ++ s.stage.blocks)) (hheld : ∀ q ∈ held, q ∈ s.held)
    (hblocks : ∀ q ∈ stage.blocks, q ∈ s.stage.blocks)
    (hpending : ∀ q ∈ stage.pending, q ∈ s.stage.pending ∨ q = ptr ∧ q ∈ s.stage.blocks) :
    CloneInv { s with heap := h', held := held, stage := stage } bs' := by
  have hnodup := List.nodup_cons.mp (hperm.nodup_iff.mpr hi.nodup)
  have hlive : (held ++ stage.blocks).Perm (Kheap.live bs') :=
    (List.perm_cons ptr).mp ((hperm.trans hi.live).trans hf.live.symm)
  have hsame : ∀ q ∈ held ++ stage.blocks, SamePayload s.heap.mem h'.mem q := by
    intro q hq
    refine hf.samePayload hi.laid (hi.live.mem_iff.mp (hperm.mem_iff.mp (List.mem_cons_of_mem _ hq))) ?_
    rintro rfl
    exact hnodup.1 hq
  refine ⟨hf.laid, hlive, ?_, ?_, ?_⟩
  · intro q hq
    change _ ∧ _ ≤ recordedSize h'.mem q
    rw [(hsame q (List.mem_append_right _ hq)).1]
    exact hi.borrowed q (hblocks q hq)
  · intro q hq
    have hroomy : ∃ c, (c.hole = true ∨ c.addr + 9 = ptr) ∧ Roomy s.held bs q c := by
      rcases hpending q hq with hq | ⟨rfl, hq⟩
      · obtain ⟨c, hhole, hr⟩ := hi.pending q hq
        exact ⟨c, .inl hhole, hr⟩
      · obtain ⟨c, haddr, hr⟩ := hi.roomy hq
        exact ⟨c, .inr haddr, hr⟩
    obtain ⟨c, hfree, hr⟩ := hroomy
    obtain ⟨d, hd, hhole, hlo, hhi⟩ := hf.covers c hr.mem hfree
    have hlower := hr.lower
    have hupper := hr.upper
    simp only [Block.last] at hhi
    refine ⟨d, hhole, hd, fun hin => ?_, hr.aligned, by omega, by omega⟩
    have hfalse := hf.laid.eq_of_live hd (hlive.mem_iff.mp (List.mem_append_left _ hin))
    simp [hhole] at hfalse
  · exact fun q hq => hi.reads.same (hheld q hq) (hsame q (List.mem_append_left _ hq))

/-- The clone frees a page. -/
theorem giveBack {stage : CloneStage} (hi : CloneInv s bs) (h : s.giveBack ptr stage = some t)
    (hblocks : s.stage.blocks = ptr :: stage.blocks) (hpending : ∀ q ∈ stage.pending, q ∈ s.stage.pending ∨ q = ptr) :
    (∃ bs', CloneInv t bs') ∧ t.pte = s.pte := by
  rw [SharedHeap.giveBack] at h
  split_ifs at h with hfenced
  obtain ⟨heap, hcall, rfl⟩ := Option.map_eq_some_iff.mp h
  have hmem : ptr ∈ s.stage.blocks := by simp [hblocks]
  obtain ⟨bs', hf⟩ := free_spec hi.laid hfenced (hi.block_live hmem) (eq_of_value? hcall)
  refine ⟨⟨bs', hi.kfree hf ?_ (fun _ => id) ?_ ?_⟩, rfl⟩
  · rw [hblocks]
    exact List.perm_middle.symm
  · intro q hq
    rw [hblocks]
    exact List.mem_cons_of_mem _ hq
  · intro q hq
    exact (hpending q hq).imp_right fun heq => ⟨heq, heq ▸ hmem⟩

/-- Another thread stores a byte in its block. -/
theorem store {addr : Nat} {byte : UInt8} (hi : CloneInv s bs) (hptr : ptr ∈ s.held) (hlo : ptr ≤ addr)
    (hhi : addr < ptr + recordedSize s.heap.mem ptr) :
    CloneInv { s.withMem (write8 s.heap.mem addr byte) with stored := update s.stored addr (some byte) } bs := by
  have hl : Laid { s.heap with mem := write8 s.heap.mem addr byte } bs := hi.laid.store (hi.held_live hptr) hlo hhi
  have hsize : ∀ q ∈ Kheap.live bs, recordedSize (write8 s.heap.mem addr byte) q = recordedSize s.heap.mem q :=
    fun q hq => hi.laid.recordedSize_eq hl hq
  refine ⟨hl, hi.live, ?_, hi.pending, ?_⟩
  · intro q hq
    change _ ∧ _ ≤ recordedSize (write8 s.heap.mem addr byte) q
    rw [hsize q (hi.block_live hq)]
    exact hi.borrowed q hq
  · intro q hq x hx hlt byte' hbyte
    change x < q + recordedSize (write8 s.heap.mem addr byte) q at hlt
    rw [hsize q (hi.held_live hq)] at hlt
    change write8 s.heap.mem addr byte x = byte'
    change update s.stored addr (some byte) x = some byte' at hbyte
    by_cases hxa : x = addr
    · rw [hxa, update_self] at hbyte
      exact (if_pos hxa).trans (Option.some.inj hbyte)
    · rw [update_of_ne hxa] at hbyte
      exact (write8_of_ne hxa).trans (hi.reads q hq x hx hlt byte' hbyte)

theorem update_of_overlaps {page : Nat} {x : Option Nat} (hi : CloneInv s bs) (hr : Roomy s.held bs p c) (hptr : ptr ∈ s.held)
    (ho : SharedHeap.Overlaps s.heap.mem ptr page) : update s.pte (p / pageSize) x page = s.pte page :=
  update_of_ne (hi.not_overlaps hr hptr ho) _ _

theorem releasePages_pte {page : Nat} (hi : CloneInv s bs) (hr : Roomy s.held bs p c) (hptr : ptr ∈ s.held)
    (ho : SharedHeap.Overlaps s.heap.mem ptr page) : (s.releasePages p).pte page = s.pte page := by
  rw [SharedHeap.releasePages]
  split_ifs
  · rfl
  · exact hi.update_of_overlaps hr hptr ho

/-- A step of the clone keeps the invariant, and the entries of the pages that other threads use. -/
theorem clone {a : CloneStep} (hi : CloneInv s bs) (h : s.clone a = some t) :
    (∃ bs', CloneInv t bs') ∧
      ∀ ptr ∈ s.held, ∀ page, SharedHeap.Overlaps s.heap.mem ptr page → t.pte page = s.pte page := by
  unfold SharedHeap.clone at h
  split at h
  case h_1 hstage =>
    obtain ⟨hinv, hpte⟩ := hi.borrow h (fun p => by rw [hstage]; exact .refl _) fun _ => rfl
    exact ⟨hinv, fun _ _ page _ => congrFun hpte page⟩
  case h_2 frame content dir hstage =>
    obtain rfl := Option.some.inj h
    obtain ⟨c, -, hr⟩ := hi.roomy (p := dir) (by rw [hstage]; exact List.mem_singleton_self _)
    have hmapped : CloneInv (s.mapPageWithFrame dir frame content) bs := hi.setPage hr
    exact ⟨⟨bs, hmapped.withStage (by simp [SharedHeap.mapPageWithFrame, SharedHeap.withMem, hstage, CloneStage.blocks]) nofun⟩,
      fun ptr hptr page ho => hi.update_of_overlaps hr hptr ho⟩
  case h_3 dir hstage =>
    obtain ⟨hinv, hpte⟩ := hi.borrow h (fun p => by rw [hstage]; exact .swap _ _ _) fun _ => rfl
    exact ⟨hinv, fun _ _ page _ => congrFun hpte page⟩
  case h_4 frame content dir table hstage =>
    obtain rfl := Option.some.inj h
    obtain ⟨c, -, hr⟩ := hi.roomy (p := table) (by simp [hstage, CloneStage.blocks])
    exact ⟨⟨bs, hi.setPage hr⟩, fun ptr hptr page ho => hi.update_of_overlaps hr hptr ho⟩
  case h_5 addr byte =>
    split_ifs at h with hin
    obtain rfl := Option.some.inj h
    obtain ⟨p, hp, hlo, hhi⟩ := hin
    have hblock : p ∈ s.stage.blocks := by
      cases hstage : s.stage <;> simp_all [CloneStage.written, CloneStage.blocks]
    obtain ⟨c, -, hr⟩ := hi.roomy hblock
    have hinv : CloneInv (s.withMem (write8 s.heap.mem addr byte)) bs :=
      hi.changePage hr (changedIn_write8 s.heap.mem addr byte) hlo hhi
    exact ⟨⟨bs, hinv⟩, fun _ _ _ _ => rfl⟩
  case h_6 dir table hstage =>
    obtain ⟨hinv, hpte⟩ := hi.giveBack h (by rw [hstage]; rfl) (by simp [CloneStage.pending])
    exact ⟨hinv, fun _ _ page _ => congrFun hpte page⟩
  case h_7 dir table hstage =>
    obtain ⟨hinv, hpte⟩ := hi.giveBack h (by rw [hstage]; rfl) (by simp [hstage, CloneStage.pending])
    exact ⟨hinv, fun _ _ page _ => congrFun hpte page⟩
  case h_8 dir table hstage =>
    obtain rfl := Option.some.inj h
    obtain ⟨c, -, hr⟩ := hi.pending dir (by simp [hstage, CloneStage.pending])
    have hreleased := hi.releasePages hr
    exact ⟨⟨bs, hreleased.withStage (by simp [hstage, CloneStage.blocks]) (by simp [hstage, CloneStage.pending])⟩,
      fun ptr hptr page ho => hi.releasePages_pte hr hptr ho⟩
  case h_9 table hstage =>
    obtain rfl := Option.some.inj h
    obtain ⟨c, -, hr⟩ := hi.pending table (by simp [hstage, CloneStage.pending])
    have hreleased := hi.releasePages hr
    exact ⟨⟨bs, hreleased.withStage (by simp [hstage, CloneStage.blocks]) nofun⟩,
      fun ptr hptr page ho => hi.releasePages_pte hr hptr ho⟩
  case h_10 => cases h

theorem step {a : SharedAction} (hi : CloneInv s bs) (ha : s.AllocatesApart a) (h : s.step a = some t) :
    ∃ bs', CloneInv t bs' := by
  cases a with
  | kmalloc size align =>
    rw [SharedHeap.step] at h
    split_ifs at h with hpos
    obtain ⟨⟨p, h'⟩, hcall, rfl⟩ := Option.map_eq_some_iff.mp h
    obtain ⟨bs', halloc⟩ := kmallocImpl_spec hi.laid hpos (eq_of_value? hcall)
    exact ⟨bs', hi.kmalloc halloc (ha (p, h') hcall)⟩
  | kfree ptr =>
    rw [SharedHeap.step] at h
    split_ifs at h with hcond
    obtain ⟨hptr, hfenced⟩ := hcond
    obtain ⟨h', hcall, rfl⟩ := Option.map_eq_some_iff.mp h
    obtain ⟨bs', hf⟩ := free_spec hi.laid hfenced (hi.held_live hptr) (eq_of_value? hcall)
    refine ⟨bs', hi.kfree hf ?_ (fun q hq => List.mem_of_mem_erase hq) (fun _ => id) fun q hq => .inl hq⟩
    exact (List.perm_cons_erase hptr).symm.append_right _
  | store ptr addr byte =>
    rw [SharedHeap.step] at h
    split_ifs at h with hcond
    obtain rfl := Option.some.inj h
    exact ⟨bs, hi.store hcond.1 hcond.2.1 hcond.2.2⟩
  | fault page frame =>
    rw [SharedHeap.step] at h
    split_ifs at h
    obtain rfl := Option.some.inj h
    exact ⟨bs, hi.laid, hi.live, hi.borrowed, hi.pending, hi.reads⟩
  | clone c => exact (hi.clone h).1

end CloneInv

namespace SharedHeap

/-- The states of the runs from `init_kheap`. -/
def Reached (ok : SharedHeap → SharedAction → Prop) (s : SharedHeap) : Prop :=
  ∃ mem heap pte actions, initKheap mem = ⟨[], .ok heap⟩ ∧ Run (Guarded ok (Steps step)) (start heap pte) actions s

/-- What holds in every state of a run. -/
def Sound (s : SharedHeap) : Prop := ∃ bs, CloneInv s bs

theorem Sound.step {a : SharedAction} (hs : s.Sound) (h : Guarded AllocatesApart (Steps step) s a t) : t.Sound := by
  obtain ⟨bs, hi⟩ := hs
  exact hi.step h.1 h.2

theorem Reached.sound (hs : Reached AllocatesApart s) : s.Sound := by
  obtain ⟨mem, heap, pte, actions, hinit, hrun⟩ := hs
  refine hrun.invariant (fun hsound hstep => hsound.step hstep) ?_
  have hquiet := (initKheap_quiet (A := fun _ => False) mem).ensures (by rw [hinit])
  rw [hinit] at hquiet
  obtain ⟨bs, hl, hlive, -⟩ := hquiet
  exact ⟨bs, hl, by rw [hlive]; exact .refl _, nofun, nofun, nofun⟩

/-- If the allocations leave the pages alone that the clone has still to release, then the clone
never unmaps or remaps a page of another thread, and every stored byte is read back. -/
theorem clone_keeps_live_pages (hs : Reached AllocatesApart s) : s.ReadsBack ∧ s.KeepsMapped := by
  obtain ⟨bs, hi⟩ := hs.sound
  exact ⟨hi.reads, fun _ _ hstep => (hi.clone hstep).2⟩

theorem reached_of_execute {mem : Memory} {pte : Nat → Option Nat} {test : SharedHeap → SharedAction → Bool}
    (ok : SharedHeap → SharedAction → Prop) (hok : ∀ {s a}, test s a = true → ok s a) {actions : List SharedAction}
    {goal : SharedHeap → Bool}
    (h : ((initKheap mem).value?.bind fun heap => execute (permit test step) (start heap pte) actions).any goal = true) :
    ∃ s, Reached ok s ∧ goal s = true := by
  rw [Option.any_eq_true] at h
  obtain ⟨s, hs, hgoal⟩ := h
  obtain ⟨heap, hinit, hexec⟩ := Option.bind_eq_some_iff.mp hs
  exact ⟨s, ⟨mem, heap, pte, actions, eq_of_value? hinit, run_of_execute_permit hok hexec⟩, hgoal⟩

/-- The clone from its first allocation up to the release of the block of `copied_page_dir`. -/
def sampleClone (addr : Nat) : List SharedAction :=
  [.clone .kmallocDir, .clone (.mapDir 600 fun _ => 0), .clone (.store addr 1), .clone .kmallocTable,
    .clone (.mapTable 601 fun _ => 0), .clone .kfreeDir]

/-- Another thread holds a block during a clone, and takes a small one between the calls of
`kfree` and `release_pages`. -/
theorem sample_clone_keeps_live_pages : ∃ s, Reached AllocatesApart s ∧ 0xC0C81000 ∈ s.held ∧
    s.stored 0xC0C81005 = some 7 ∧ s.heap.mem 0xC0C81005 = 7 := by
  have hrun : ((initKheap fun _ => 0).value?.bind fun heap =>
      execute (permit (fun s a => decide (s.AllocatesApart a)) step) (start heap fun _ => none)
        ([.kmalloc 4096 true, .fault 0xC0C81 599, .store 0xC0C81000 0xC0C81005 7] ++ sampleClone 0xC0C83000 ++
          [.kmalloc 100 false, .clone .kfreeTable, .clone .releaseDir, .clone .releaseTable])).any
      (fun s => decide (0xC0C81000 ∈ s.held ∧ 0xC0C81005 < 0xC0C81000 + recordedSize s.heap.mem 0xC0C81000 ∧
        s.stored 0xC0C81005 = some 7)) = true := by
    decide +kernel
  obtain ⟨s, hs, hgoal⟩ := reached_of_execute AllocatesApart of_decide_eq_true hrun
  obtain ⟨hheld, hsize, hstored⟩ := of_decide_eq_true hgoal
  exact ⟨s, hs, hheld, hstored, (clone_keeps_live_pages hs).1 _ hheld _ (by omega) hsize 7 hstored⟩

/-- Another thread gets the page of `copied_page_dir` between the calls of `kfree` and
`release_pages`. The clone unmaps this page, and the byte that was stored there is lost. -/
theorem sample_clone_unmaps_live_page : ∃ s t, Reached (fun _ _ => True) s ∧ s.step (.clone .releaseDir) = some t ∧
    ¬ s.KeepsMapped ∧ ¬ t.ReadsBack := by
  have hrun : ((initKheap fun _ => 0).value?.bind fun heap =>
      execute (permit (fun _ _ => true) step) (start heap fun _ => none)
        (sampleClone 0xC0C81000 ++ [.kmalloc 4096 true, .store 0xC0C81000 0xC0C81000 7, .clone .kfreeTable])).any
      (fun s => decide (0xC0C81000 ∈ s.held ∧ 0 < recordedSize s.heap.mem 0xC0C81000 ∧ s.pte 0xC0C81 = some 600 ∧
        (s.clone .releaseDir).any fun t => decide (t.pte 0xC0C81 = none ∧ 0xC0C81000 ∈ t.held ∧
          0 < recordedSize t.heap.mem 0xC0C81000 ∧ t.stored 0xC0C81000 = some 7 ∧ t.heap.mem 0xC0C81000 = 0))) = true := by
    decide +kernel
  obtain ⟨s, hs, hgoal⟩ := reached_of_execute (fun _ _ => True) (fun _ => trivial) hrun
  obtain ⟨hheld, hsize, hpte, hstep⟩ := of_decide_eq_true hgoal
  rw [Option.any_eq_true] at hstep
  obtain ⟨t, ht, hgoal'⟩ := hstep
  obtain ⟨hpte', hheld', hsize', hstored, hmem⟩ := of_decide_eq_true hgoal'
  refine ⟨s, t, hs, ht, fun hkeeps => ?_, fun hreads => ?_⟩
  · have hsame := hkeeps _ t ht _ hheld 0xC0C81 ⟨by decide, by simp only [pageSize]; omega⟩
    simp [hpte, hpte'] at hsame
  · have hbyte := hreads _ hheld' _ (Nat.le_refl _) (by omega) 7 hstored
    rw [hmem] at hbyte
    exact absurd hbyte (by decide)

end SharedHeap

end LuckOS.Kheap
