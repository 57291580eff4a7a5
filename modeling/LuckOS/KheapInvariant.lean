import LuckOS.KheapAlloc
import LuckOS.KheapFree
import LuckOS.Runs

/-!
# Runs of the kernel heap

The heap of `init_kheap` under any sequence of allocations and releases, while the holders
of the blocks write to their payloads and the memory outside of the heap changes. The
blocks tile the heap at all times, so that no `ASSERT` fails, the validation counts the
blocks that are held, and these blocks keep out of each other's way.
-/

namespace LuckOS.Kheap

open ByteMemory Outcome Traced Tiling Runs

/-- The heap, and the payload addresses that are held by its users. -/
structure HeapState where
  heap : Kheap
  held : List Nat

inductive HeapAction where
  | alloc (size : Nat) (align : Bool)
  | free (ptr : Nat)
  | store (ptr addr : Nat) (byte : UInt8)
  | outside (mem : Memory)

/-- The steps of the users of the heap. An allocation and a release log nothing: no sum
wraps, and the index takes every hole. -/
def HeapState.Step (s : HeapState) : HeapAction → HeapState → Prop
  | .alloc size align, t => 0 < size ∧ ∃ ptr heap,
      s.heap.kmallocImpl size align = ⟨[], .ok (ptr, heap)⟩ ∧ t = ⟨heap, ptr :: s.held⟩
  | .free ptr, t => ptr ∈ s.held ∧ Fenced s.heap ∧ ∃ heap,
      s.heap.free ptr = ⟨[], .ok heap⟩ ∧ t = ⟨heap, s.held.erase ptr⟩
  | .store ptr addr byte, t => ptr ∈ s.held ∧ ptr ≤ addr ∧ addr < ptr + sizeAt s.heap.mem (ptr - 9) ∧
      t = ⟨{ s.heap with mem := write8 s.heap.mem addr byte }, s.held⟩
  | .outside mem, t => SameOn s.heap.mem mem s.heap.startAddress s.heap.endAddress ∧
      t = ⟨{ s.heap with mem := mem }, s.held⟩

/-- The states of the runs from `init_kheap`. -/
def HeapReached (s : HeapState) : Prop :=
  ∃ mem heap actions, initKheap mem = ⟨[], .ok heap⟩ ∧ Run HeapState.Step ⟨heap, []⟩ actions s

variable {h h' : Kheap} {m m' : Memory} {b c : Block} {bs bs' xs ys : List Block} {s t : HeapState} {A : Stop → Prop}

theorem initKheap_quiet (m : Memory) :
    Quiet A (initKheap m) (fun h => ∃ bs, Laid h bs ∧ live bs = [] ∧ Coalesced bs) := by
  have hstart : add32 kheapStartAddr (4 * kheapIndexNum) = 0xC0C80000 := by decide
  have hsize : sub32 (sub32 (kheapStartAddr + kheapMinSize) 0xC0C80000) blockMetaSize = 0x27FFEF := by decide
  refine Quiet.check (by decide) (Quiet.check (by decide) ?_)
  simp only [hstart, hsize]
  refine (makeBlock_quiet m (by omega) true).bind ?_
  rintro m' ⟨hstored, -, -⟩
  have hempty : Indexed [] [] := ⟨[], rfl, .nil, .nil⟩
  refine (insertIndex_quiet (b := ⟨0xC0C80000, 0x27FFEF, true⟩) hempty (by simp) hstored rfl).mono ?_
  rintro _ ⟨index, rfl, hindex⟩
  have hbound : kheapStartAddr + kheapMinSize ≤ kheapMaxAddr := by decide
  have htiles : Tiles Block.addr Block.last 0xC0C80000 [⟨0xC0C80000, 0x27FFEF, true⟩] (kheapStartAddr + kheapMinSize) :=
    ⟨rfl, by decide, rfl⟩
  refine ⟨[⟨0xC0C80000, 0x27FFEF, true⟩], ⟨htiles, ?_, hindex, rfl, rfl, hbound, by simp⟩, rfl,
    List.isChain_singleton _⟩
  intro c hc
  rw [List.mem_singleton.mp hc]
  exact hstored

theorem mem_live {p : Nat} (hp : p ∈ live bs) : ∃ b ∈ bs, b.addr + 9 = p ∧ b.hole = false := by
  obtain ⟨b, hb, rfl⟩ := List.mem_map.mp hp
  obtain ⟨hmem, hhole⟩ := List.mem_filter.mp hb
  exact ⟨b, hmem, rfl, by simpa using hhole⟩

theorem Laid.nodup_live (hl : Laid h bs) : (live bs).Nodup := by
  have hnodup : ((bs.filter fun b => !b.hole).map Block.addr).Nodup :=
    hl.tiles.nodup.sublist (List.Sublist.map Block.addr List.filter_sublist)
  have hmap := hnodup.map (f := fun a => a + 9) (fun x y hxy => Nat.add_right_cancel hxy)
  rwa [List.map_map] at hmap

/-- A change that keeps all headers and footers keeps the layout. -/
theorem Laid.withMem (hl : Laid h bs) (hstored : ∀ b ∈ bs, Stored m b) : Laid { h with mem := m } bs :=
  ⟨hl.tiles, hstored, hl.indexed, hl.start, hl.max, hl.bound, hl.nonempty⟩

/-- The payload of a block is not part of a header or footer. -/
theorem Stored.changePayload {lo hi : Nat} (hb : Stored m b) (hc : ChangedIn m m' lo hi) (hlo : b.addr + 9 ≤ lo)
    (hhi : hi ≤ b.addr + 9 + b.size) : Stored m' b := by
  have hread : ∀ a, a + 4 ≤ lo ∨ hi ≤ a → read32 m' a = read32 m a := fun a ha => read32_congr (hc.sameOn ha)
  refine ⟨hb.pos, ?_, ?_, ?_, ?_, ?_⟩
  · exact (hread _ (by omega)).trans hb.magic
  · exact (hc _ (by omega)).trans hb.hole
  · exact (hread _ (by omega)).trans hb.size
  · exact (hread _ (by omega)).trans hb.footMagic
  · exact (hread _ (by omega)).trans hb.footHeader

/-- A change inside of one payload keeps the other blocks. -/
theorem Laid.sameOn_of_ne {lo hi : Nat} (hl : Laid h bs) (hb : b ∈ bs) (hc : ChangedIn h.mem m lo hi)
    (hlo : b.addr + 9 ≤ lo) (hhi : hi ≤ b.addr + 9 + b.size) (hmem : c ∈ bs) (hne : c ≠ b) :
    SameOn h.mem m c.addr c.last := by
  have hapart := hl.tiles.apart_of_ne hb hmem hne
  have hlast : b.last = b.addr + b.size + 17 := rfl
  exact hc.sameOn (by omega)

/-- A change inside of one payload keeps the layout. -/
theorem Laid.changePayload {lo hi : Nat} (hl : Laid h bs) (hb : b ∈ bs) (hc : ChangedIn h.mem m lo hi)
    (hlo : b.addr + 9 ≤ lo) (hhi : hi ≤ b.addr + 9 + b.size) : Laid { h with mem := m } bs := by
  refine hl.withMem fun d hd => ?_
  by_cases heq : d = b
  · rw [heq]
    exact (hl.stored b hb).changePayload hc hlo hhi
  · exact (hl.stored d hd).congr (hl.sameOn_of_ne hb hc hlo hhi hd heq)

theorem changedIn_write8 (m : Memory) (addr : Nat) (byte : UInt8) : ChangedIn m (write8 m addr byte) addr (addr + 1) :=
  fun _ hx => write8_of_ne (by omega)

/-- A store of a holder to its own payload keeps the layout. -/
theorem Laid.store {ptr addr : Nat} {byte : UInt8} (hl : Laid h bs) (hptr : ptr ∈ live bs) (hlo : ptr ≤ addr)
    (hhi : addr < ptr + sizeAt h.mem (ptr - 9)) : Laid { h with mem := write8 h.mem addr byte } bs := by
  obtain ⟨b, hmem, rfl, -⟩ := mem_live hptr
  have hsize : sizeAt h.mem (b.addr + 9 - 9) = b.size := (hl.stored b hmem).size
  exact hl.changePayload hmem (changedIn_write8 h.mem addr byte) hlo (by omega)

/-- What a call of `kmalloc_impl` has done that logged nothing and returned. -/
theorem kmallocImpl_spec {size p : Nat} {align : Bool} (hl : Laid h bs) (hpos : 0 < size)
    (hcall : h.kmallocImpl size align = ⟨[], .ok (p, h')⟩) : ∃ bs', Allocated h bs size align p h' bs' := by
  have hquiet := (kmallocImpl_quiet hl size align).ensures (by rw [hcall])
  rw [hcall] at hquiet
  rcases hquiet with ⟨hzero, -⟩ | ⟨-, -, ha⟩
  · omega
  · exact ha

theorem free_spec {ptr : Nat} (hl : Laid h bs) (hf : Fenced h) (hptr : ptr ∈ live bs)
    (hcall : h.free ptr = ⟨[], .ok h'⟩) : ∃ bs', Freed h bs ptr h' bs' := by
  have hquiet := (free_quiet (A := fun _ => False) hl hf hptr).ensures (by rw [hcall])
  rw [hcall] at hquiet
  exact hquiet

/-- What holds in every state of a run. -/
def HeapState.Sound (s : HeapState) : Prop := ∃ bs, Laid s.heap bs ∧ s.held.Perm (live bs)

/-- The blocks after a step. -/
theorem HeapState.step_blocks {a : HeapAction} (hl : Laid s.heap bs) (hheld : s.held.Perm (live bs)) (hstep : s.Step a t) :
    ∃ bs', Laid t.heap bs' ∧ t.held.Perm (live bs') ∧ (Coalesced bs → Coalesced bs') := by
  cases a with
  | alloc size align =>
    obtain ⟨hpos, ptr, heap, hcall, rfl⟩ := hstep
    obtain ⟨bs', ha⟩ := kmallocImpl_spec hl hpos hcall
    exact ⟨bs', ha.laid, (hheld.cons ptr).trans ha.live.symm, ha.coalesced⟩
  | free ptr =>
    obtain ⟨hptr, hfenced, heap, hcall, rfl⟩ := hstep
    obtain ⟨bs', hf⟩ := free_spec hl hfenced (hheld.mem_iff.mp hptr) hcall
    refine ⟨bs', hf.laid, ?_, hf.coalesced⟩
    have hperm : (ptr :: s.held.erase ptr).Perm (ptr :: live bs') :=
      ((List.perm_cons_erase hptr).symm.trans hheld).trans hf.live.symm
    exact (List.perm_cons ptr).mp hperm
  | store ptr addr byte =>
    obtain ⟨hptr, hlo, hhi, rfl⟩ := hstep
    exact ⟨bs, hl.store (hheld.mem_iff.mp hptr) hlo hhi, hheld, id⟩
  | outside mem =>
    obtain ⟨hsame, rfl⟩ := hstep
    refine ⟨bs, hl.withMem fun b hb => ?_, hheld, id⟩
    have hbounds := hl.tiles.mem hb
    exact (hl.stored b hb).congr (hsame.mono hbounds.1 hbounds.2.2)

/-- In every state of a run the blocks tile the heap, and no hole lies next to a hole. -/
theorem HeapReached.blocks (hs : HeapReached s) :
    ∃ bs, Laid s.heap bs ∧ s.held.Perm (live bs) ∧ Coalesced bs := by
  obtain ⟨mem, heap, actions, hinit, hrun⟩ := hs
  refine @Run.invariant _ _ _ _ _ _ (fun s => ∃ bs, Laid s.heap bs ∧ s.held.Perm (live bs) ∧ Coalesced bs) ?_ hrun ?_
  · rintro s a t ⟨bs, hl, hheld, hco⟩ hstep
    obtain ⟨bs', hl', hheld', hco'⟩ := HeapState.step_blocks hl hheld hstep
    exact ⟨bs', hl', hheld', hco' hco⟩
  · have hquiet := (initKheap_quiet (A := fun _ => False) mem).ensures (by rw [hinit])
    rw [hinit] at hquiet
    obtain ⟨bs, hl, hlive, hco⟩ := hquiet
    exact ⟨bs, hl, by rw [hlive], hco⟩

theorem HeapReached.sound (hs : HeapReached s) : s.Sound := by
  obtain ⟨bs, hl, hheld, -⟩ := hs.blocks
  exact ⟨bs, hl, hheld⟩

/-- The loop of the validation counts the holes and the allocated blocks. -/
theorem validateFrom_eq {rounds start holeNum allocNum : Nat}
    (htiles : Tiles Block.addr Block.last start bs h.endAddress) (hstored : ∀ b ∈ bs, Stored h.mem b)
    (hindex : ∀ b ∈ bs, b.hole = true → b.addr ∈ h.index) (hend : h.endAddress ≤ 0xE0000000)
    (hrounds : bs.length < rounds) :
    h.validateFrom rounds start holeNum allocNum =
      pure (holeNum + (bs.filter Block.hole).length, allocNum + (live bs).length) := by
  induction bs generalizing rounds start holeNum allocNum with
  | nil =>
    obtain rfl : start = h.endAddress := htiles
    obtain ⟨rounds, rfl⟩ := Nat.exists_eq_add_of_lt hrounds
    rw [validateFrom, if_neg (by omega)]
    rfl
  | cons b bs ih =>
    obtain ⟨rfl, hlt, hrest⟩ := htiles
    have hb := hstored b (List.mem_cons_self ..)
    have hle := hrest.le
    have hlast : b.last = b.addr + (b.size + blockMetaSize) := by
      simp only [Block.last, blockMetaSize]
      omega
    cases rounds with
    | zero => omega
    | succ rounds =>
      have hnext : addrAdd b.addr (b.size + blockMetaSize) = pure b.last := by
        rw [hlast] at hlt hle ⊢
        rw [addrAdd, noteIf, if_neg (by omega), add32_of_lt (by omega)]
        rfl
      have htail := fun n k => @ih rounds b.last n k hrest
        (fun c hc => hstored c (List.mem_cons_of_mem b hc)) (fun c hc => hindex c (List.mem_cons_of_mem b hc))
        (Nat.lt_of_succ_lt_succ hrounds)
      have hfind : isHoleAt h.mem b.addr ≠ 0 → OrderedArray.findElement h.index b.addr < h.index.length := by
        intro hhole
        refine OrderedArray.findElement_lt (hindex b (List.mem_cons_self ..) ?_)
        rw [hb.hole] at hhole
        simpa using hhole
      rw [validateFrom, if_pos (by omega), check_eq_pure hb.magic, pure_bind]
      simp only []
      rw [check_eq_pure hfind, pure_bind, hb.size, hnext, pure_bind, check_eq_pure hle, pure_bind, htail, hb.hole]
      cases hhole : b.hole with
      | false =>
        rw [live_cons_allocated bs hhole, List.filter_cons_of_neg (by simp [hhole]), List.length_cons]
        simp only [Bool.false_eq_true, if_false, ne_eq, not_true]
        rw [Nat.add_assoc allocNum, Nat.add_comm 1]
      | true =>
        rw [live_cons_hole bs hhole, List.filter_cons_of_pos hhole, List.length_cons]
        have hone : (1 : UInt8) ≠ 0 := by decide
        rw [if_pos rfl, if_pos hone, if_pos hone, Nat.add_assoc holeNum, Nat.add_comm 1]

theorem Laid.validatePrint_eq (hl : Laid h bs) : h.validatePrint = ⟨[], .ok (live bs).length⟩ := by
  obtain ⟨holes, hindex, hperm, -⟩ := hl.indexed.exists_holes
  have hend : h.endAddress ≤ 0xE0000000 := by
    have hbound := hl.bound
    rwa [hl.max] at hbound
  have hlen := hl.tiles.length_le
  have hmem : ∀ b ∈ bs, b.hole = true → b.addr ∈ h.index := by
    intro b hb hhole
    rw [hindex]
    exact List.mem_map_of_mem (hperm.mem_iff.mpr (List.mem_filter.mpr ⟨hb, hhole⟩))
  have hcount : 0 + (bs.filter Block.hole).length = h.index.length := by
    rw [hindex, List.length_map, hperm.length_eq, Nat.zero_add]
  rw [validatePrint, validateFrom_eq hl.tiles hl.stored hmem hend (by omega), pure_bind]
  simp only [hcount]
  rw [check_eq_pure trivial, pure_bind, Nat.zero_add]
  rfl

/-- In every state of every run the blocks tile the heap and the index lists its holes. The
validation returns the number of the held blocks, and no `ASSERT` of an allocation fails but
that of the expansion, and none of a release. -/
theorem heap_tiled_and_valid (hs : HeapReached s) :
    ∃ bs, Laid s.heap bs ∧ s.held.Perm (live bs) ∧
      s.heap.validatePrint = ⟨[], .ok s.held.length⟩ ∧
      (∀ size align, Quiet (AllocStops size) (s.heap.kmallocImpl size align) fun _ => True) ∧
      (∀ ptr ∈ s.held, Fenced s.heap → Quiet (fun _ => False) (s.heap.free ptr) fun _ => True) := by
  obtain ⟨bs, hl, hheld⟩ := hs.sound
  refine ⟨bs, hl, hheld, ?_, ?_, ?_⟩
  · rw [hl.validatePrint_eq, hheld.length_eq]
  · intro size align
    exact (kmallocImpl_quiet hl size align).mono fun _ _ => trivial
  · intro ptr hptr hfenced
    exact (free_quiet hl hfenced (hheld.mem_iff.mp hptr)).mono fun _ _ => trivial

/-- From a memory of zeros the first aligned block can be allocated. -/
theorem exists_sample_heap : ∃ s, HeapReached s ∧ s.held.length = 1 ∧
    ∃ r, s.heap.kmallocImpl 100 false = ⟨[], .ok r⟩ := by
  have hreturns : (initKheap (fun _ => 0) >>= fun h => h.kmallocImpl 4096 true >>= fun r => r.2.kmallocImpl 100 false).returns
      = true := by decide +kernel
  obtain ⟨r, hr⟩ := exists_of_returns hreturns
  obtain ⟨h, hinit, hr⟩ := bind_eq_ok hr
  obtain ⟨r', hcall, hr⟩ := bind_eq_ok hr
  have hrun : Run HeapState.Step ⟨h, []⟩ [.alloc 4096 true] ⟨r'.2, [r'.1]⟩ :=
    .cons ⟨by omega, r'.1, r'.2, hcall, rfl⟩ (.nil _)
  exact ⟨⟨r'.2, [r'.1]⟩, ⟨_, h, _, hinit, hrun⟩, rfl, r, hr⟩

theorem sample_heap_tiled_and_valid : ∃ s, HeapReached s ∧ s.heap.validatePrint = ⟨[], .ok 1⟩ := by
  obtain ⟨s, hs, hheld, -⟩ := exists_sample_heap
  obtain ⟨-, -, -, hvalid, -⟩ := heap_tiled_and_valid hs
  rw [hheld] at hvalid
  exact ⟨s, hs, hvalid⟩

/-- A coalesced heap without allocated blocks is one hole. -/
theorem Laid.single_hole (hl : Laid h bs) (hco : Coalesced bs) (hlive : live bs = []) :
    bs = [⟨h.startAddress, h.endAddress - h.startAddress - 17, true⟩] ∧ h.index = [h.startAddress] := by
  have hholes : ∀ b ∈ bs, b.hole = true := by
    intro b hb
    by_contra hhole
    have hmem : b.addr + 9 ∈ live bs := List.mem_map.mpr ⟨b, List.mem_filter.mpr ⟨hb, by simpa using hhole⟩, rfl⟩
    simp [hlive] at hmem
  obtain ⟨holes, hindex, hperm, -⟩ := hl.indexed.exists_holes
  rcases bs with - | ⟨b, - | ⟨c, ys⟩⟩
  · exact absurd rfl hl.nonempty
  · obtain ⟨haddr, -, hlast⟩ := hl.tiles
    have hlast : b.last = h.endAddress := hlast
    have hb := hholes b (List.mem_singleton_self b)
    rw [List.filter_cons_of_pos hb, List.filter_nil, List.perm_singleton] at hperm
    refine ⟨?_, ?_⟩
    · obtain ⟨addr, size, hole⟩ := b
      simp only [Block.last] at haddr hlast hb
      obtain rfl : size = h.endAddress - h.startAddress - 17 := by omega
      rw [haddr, hb]
    · rw [hindex, hperm, List.map_singleton, haddr]
  · have hfree := (List.isChain_cons_cons.mp hco).1 (hholes b (by simp))
    rw [hholes c (by simp)] at hfree
    cases hfree

/-- In every state of every run no hole lies next to a hole, and once no block is held the heap
is a single hole and the only entry of the index. -/
theorem free_space_coalesced (hs : HeapReached s) :
    ∃ bs, Laid s.heap bs ∧ s.held.Perm (live bs) ∧ Coalesced bs ∧
      (s.held = [] → bs = [⟨s.heap.startAddress, s.heap.endAddress - s.heap.startAddress - 17, true⟩] ∧
        s.heap.index = [s.heap.startAddress]) := by
  obtain ⟨bs, hl, hheld, hco⟩ := hs.blocks
  refine ⟨bs, hl, hheld, hco, fun hnone => hl.single_hole hco ?_⟩
  rw [hnone] at hheld
  exact hheld.nil_eq.symm

/-- An aligned block is allocated and released. -/
theorem sample_free_space_coalesced : ∃ s, HeapReached s ∧ s.heap.index = [s.heap.startAddress] := by
  have hreturns : (initKheap (fun _ => 0) >>= fun h => h.kmallocImpl 4096 true >>= fun r =>
      check (read32 r.2.mem (r.2.startAddress - 8) ≠ kheapMagic) .validateMagic >>= fun _ =>
      check (read32 r.2.mem r.2.endAddress ≠ kheapMagic) .validateMagic >>= fun _ => r.2.free r.1).returns = true := by
    decide +kernel
  obtain ⟨h', hr⟩ := exists_of_returns hreturns
  obtain ⟨h, hinit, hr⟩ := bind_eq_ok hr
  obtain ⟨r, hcall, hr⟩ := bind_eq_ok hr
  obtain ⟨_, hfront, hr⟩ := bind_eq_ok hr
  obtain ⟨_, hback, hfree⟩ := bind_eq_ok hr
  have hfenced : Fenced r.2 := ⟨of_check_eq_ok hfront, of_check_eq_ok hback⟩
  have halloc : HeapState.Step ⟨h, []⟩ (.alloc 4096 true) ⟨r.2, [r.1]⟩ := ⟨by omega, r.1, r.2, hcall, rfl⟩
  have hrelease : HeapState.Step ⟨r.2, [r.1]⟩ (.free r.1) ⟨h', [r.1].erase r.1⟩ :=
    ⟨List.mem_singleton_self _, hfenced, h', hfree, rfl⟩
  have hs : HeapReached ⟨h', [r.1].erase r.1⟩ := ⟨_, h, _, hinit, .cons halloc (.cons hrelease (.nil _))⟩
  obtain ⟨_, -, -, -, hsingle⟩ := free_space_coalesced hs
  exact ⟨_, hs, (hsingle (by simp)).2⟩

/-- The size that is recorded in the header of a payload address. -/
def recordedSize (m : Memory) (ptr : Nat) : Nat := sizeAt m (ptr - 9)

/-- The payload of a block, and the size in its header, are the same in both memories. -/
def SamePayload (m m' : Memory) (ptr : Nat) : Prop :=
  recordedSize m' ptr = recordedSize m ptr ∧ SameOn m m' ptr (ptr + recordedSize m ptr)

theorem Stored.recordedSize (hb : Stored m b) : recordedSize m (b.addr + 9) = b.size := hb.size

theorem KeepsOthers.samePayload {m m' : Memory} {ptr : Nat} (hk : KeepsOthers m m' bs bs' ptr) (hb : b ∈ bs)
    (hhole : b.hole = false) (hne : b.addr + 9 ≠ ptr) (hstored : Stored m b) : SamePayload m m' (b.addr + 9) := by
  obtain ⟨-, hsame⟩ := hk b hb hhole hne
  have hstored' := hstored.congr hsame
  refine ⟨hstored'.recordedSize.trans hstored.recordedSize.symm, ?_⟩
  rw [hstored.recordedSize]
  exact hsame.mono (by omega) (by simp only [Block.last]; omega)

section Calls

variable {size p q ptr : Nat} {align : Bool}

theorem Allocated.size_le (ha : Allocated h bs size align p h' bs') : size ≤ recordedSize h'.mem p := by
  obtain ⟨b, hb, rfl, -, hsize⟩ := ha.block
  rw [(ha.laid.stored b hb).recordedSize]
  exact hsize

theorem Allocated.samePayload (ha : Allocated h bs size align p h' bs') (hl : Laid h bs) (hq : q ∈ Kheap.live bs) :
    SamePayload h.mem h'.mem q := by
  obtain ⟨c, hc, rfl, hhole⟩ := mem_live hq
  exact (ha.kept 0).samePayload hc hhole (by omega) (hl.stored c hc)

/-- A new block lies apart from the blocks that were allocated before. -/
theorem Allocated.apart (ha : Allocated h bs size align p h' bs') (hq : q ∈ Kheap.live bs) :
    q + recordedSize h'.mem q + 8 ≤ p ∨ p + recordedSize h'.mem p ≤ q - 9 := by
  obtain ⟨b, hb, rfl, -, -⟩ := ha.block
  obtain ⟨c, hc, rfl, hhole⟩ := mem_live hq
  obtain ⟨hc', -⟩ := ha.kept 0 c hc hhole (by omega)
  have hne : c ≠ b := by
    rintro rfl
    have hnodup := ha.live.nodup_iff.mp ha.laid.nodup_live
    exact (List.nodup_cons.mp hnodup).1 hq
  have hapart := ha.laid.tiles.apart_of_ne hb hc' hne
  rw [(ha.laid.stored c hc').recordedSize, (ha.laid.stored b hb).recordedSize]
  simp only [Block.last] at hapart
  omega

theorem Freed.samePayload (hf : Freed h bs ptr h' bs') (hl : Laid h bs) (hq : q ∈ Kheap.live bs) (hne : q ≠ ptr) :
    SamePayload h.mem h'.mem q := by
  obtain ⟨c, hc, rfl, hhole⟩ := mem_live hq
  exact hf.kept.samePayload hc hhole hne (hl.stored c hc)

end Calls

/-- An allocated block lies inside of the heap, is large enough and aligned, and overlaps no
block that is held. Neither an allocation nor a release changes the payload of another block. -/
theorem allocations_apart_and_kept (hs : HeapReached s) :
    (∀ size align p h', 0 < size → s.heap.kmallocImpl size align = ⟨[], .ok (p, h')⟩ →
      h'.startAddress < p ∧ p + recordedSize h'.mem p + 8 ≤ h'.endAddress ∧ size ≤ recordedSize h'.mem p ∧
      (align = true → p % 4096 = 0) ∧
      ∀ q ∈ s.held, (q + recordedSize h'.mem q + 8 ≤ p ∨ p + recordedSize h'.mem p ≤ q - 9) ∧
        SamePayload s.heap.mem h'.mem q) ∧
    ∀ ptr h', ptr ∈ s.held → Fenced s.heap → s.heap.free ptr = ⟨[], .ok h'⟩ →
      ∀ q ∈ s.held, q ≠ ptr → SamePayload s.heap.mem h'.mem q := by
  obtain ⟨bs, hl, hheld⟩ := hs.sound
  refine ⟨?_, ?_⟩
  · intro size align p h' hpos hcall
    obtain ⟨bs', ha⟩ := kmallocImpl_spec hl hpos hcall
    have hbounds : h'.startAddress < p ∧ p + recordedSize h'.mem p + 8 ≤ h'.endAddress := by
      obtain ⟨b, hb, rfl, -, -⟩ := ha.block
      have hmem := ha.laid.tiles.mem hb
      rw [(ha.laid.stored b hb).recordedSize]
      simp only [Block.last] at hmem
      omega
    refine ⟨hbounds.1, hbounds.2, ha.size_le, ha.aligned, ?_⟩
    intro q hq
    have hlive := hheld.mem_iff.mp hq
    exact ⟨ha.apart hlive, ha.samePayload hl hlive⟩
  · intro ptr h' hptr hfenced hcall q hq hne
    obtain ⟨bs', hf⟩ := free_spec hl hfenced (hheld.mem_iff.mp hptr) hcall
    exact hf.samePayload hl (hheld.mem_iff.mp hq) hne

theorem sample_allocation_apart : ∃ s p q h', HeapReached s ∧ q ∈ s.held ∧ s.heap.kmallocImpl 100 false = ⟨[], .ok (p, h')⟩ ∧
    (q + recordedSize h'.mem q + 8 ≤ p ∨ p + recordedSize h'.mem p ≤ q - 9) := by
  obtain ⟨s, hs, hheld, ⟨p, h'⟩, hcall⟩ := exists_sample_heap
  have hone : ∃ q, s.held = [q] := List.length_eq_one_iff.mp hheld
  obtain ⟨q, hq⟩ := hone
  have hmem : q ∈ s.held := by simp [hq]
  obtain ⟨-, -, -, -, hothers⟩ := (allocations_apart_and_kept hs).1 100 false p h' (by omega) hcall
  exact ⟨s, p, q, h', hs, hmem, hcall, (hothers q hmem).1⟩

end LuckOS.Kheap
