import LuckOS.Kheap
import LuckOS.Tiling
import Mathlib.Data.List.Chain
import Mathlib.Data.List.Perm.Subperm

/-!
# Blocks of the kernel heap

A block is stored at an address if the memory holds its header and its footer there. The
blocks of a heap tile it, and the index lists the holes among them by size. Each helper
of `alloc` and `free` replaces some adjacent blocks by others.
-/

namespace LuckOS.Kheap

open ByteMemory Outcome Traced Tiling

structure Block where
  addr : Nat
  size : Nat
  hole : Bool
  deriving DecidableEq

/-- The address behind the footer. -/
def Block.last (b : Block) : Nat := b.addr + b.size + 17

/-- The memory holds the header and the footer of a block. -/
structure Stored (m : Memory) (b : Block) : Prop where
  pos : 0 < b.size
  magic : read32 m b.addr = kheapMagic
  hole : isHoleAt m b.addr = if b.hole then 1 else 0
  size : sizeAt m b.addr = b.size
  footMagic : read32 m (b.addr + 9 + b.size) = kheapMagic
  footHeader : headerAt m (b.addr + 9 + b.size) = b.addr

/-- The memories agree outside of the addresses from `lo` up to `hi`. -/
def ChangedIn (m m' : Memory) (lo hi : Nat) : Prop := ∀ x, x < lo ∨ hi ≤ x → m' x = m x

variable {m m' m'' : Memory} {h : Kheap} {b c : Block} {lo hi : Nat}

theorem ChangedIn.refl (m : Memory) (lo hi : Nat) : ChangedIn m m lo hi := fun _ _ => rfl

theorem ChangedIn.trans (h : ChangedIn m m' lo hi) (h' : ChangedIn m' m'' lo hi) : ChangedIn m m'' lo hi :=
  fun x hx => (h' x hx).trans (h x hx)

theorem ChangedIn.mono {lo' hi' : Nat} (h : ChangedIn m m' lo hi) (hlo : lo' ≤ lo) (hhi : hi ≤ hi') :
    ChangedIn m m' lo' hi' :=
  fun x hx => h x (by omega)

theorem ChangedIn.sameOn {lo' hi' : Nat} (h : ChangedIn m m' lo hi) (hd : hi' ≤ lo ∨ hi ≤ lo') : SameOn m m' lo' hi' :=
  fun x hx hx' => h x (by omega)

theorem Stored.congr (hb : Stored m b) (h : SameOn m m' b.addr b.last) : Stored m' b := by
  have hpos := hb.pos
  refine ⟨hpos, ?_, ?_, ?_, ?_, ?_⟩
  · rw [read32_congr (h.mono (by omega) (by simp only [Block.last]; omega))]
    exact hb.magic
  · rw [isHoleAt, h (b.addr + 4) (by omega) (by simp only [Block.last]; omega)]
    exact hb.hole
  · rw [sizeAt, read32_congr (h.mono (by omega) (by simp only [Block.last]; omega))]
    exact hb.size
  · rw [read32_congr (h.mono (by omega) (by simp only [Block.last]; omega))]
    exact hb.footMagic
  · rw [headerAt, read32_congr (h.mono (by omega) (by simp only [Block.last]; omega))]
    exact hb.footHeader

/-- A change elsewhere keeps a block. -/
theorem Stored.apart (hb : Stored m b) (h : ChangedIn m m' lo hi) (hd : b.last ≤ lo ∨ hi ≤ b.addr) : Stored m' b :=
  hb.congr (h.sameOn hd)

theorem add32_of_lt {x y : Nat} (h : x + y < 2 ^ 32) : add32 x y = x + y := Nat.mod_eq_of_lt h

theorem sub32_of_le {x y : Nat} (hle : y ≤ x) (hlt : x < 2 ^ 32) : sub32 x y = x - y := by
  rw [sub32]
  omega

variable {A : Stop → Prop}

theorem addrAdd_quiet (x y : Nat) : Quiet A (addrAdd x y) (fun r => r = x + y ∧ x + y < 2 ^ 32) := by
  refine Quiet.noteIf fun hno => Quiet.pure ⟨add32_of_lt (by omega), by omega⟩

/-- `make_block` stores a block and changes nothing else. -/
theorem makeBlock_quiet (m : Memory) {start size : Nat} (hpos : 0 < size) (hole : Bool) :
    Quiet A (makeBlock m start size hole)
      (fun m' => Stored m' ⟨start, size, hole⟩ ∧ ChangedIn m m' start (start + size + 17) ∧ start + size + 17 < 2 ^ 32) := by
  refine Quiet.check hpos ((addrAdd_quiet start (size + 17)).bind fun e he => ?_)
  obtain ⟨rfl, hlt⟩ := he
  have hfooter : sub32 (start + (size + 17)) footerSize = start + 9 + size := by
    rw [sub32_of_le (by simp only [footerSize]; omega) hlt]
    simp only [footerSize]
    omega
  refine Quiet.pure ?_
  simp only [hfooter]
  have hmagic : kheapMagic < 2 ^ 32 := by decide
  refine ⟨⟨hpos, ?_, ?_, ?_, ?_, ?_⟩, ?_, by omega⟩
  · change read32 _ start = _
    rw [read32_write32_of_ne (by omega), read32_write32_of_ne (by omega), read32_congr (sameOn_write8 (by omega)),
      read32_write32_of_ne (by omega), read32_write32 hmagic]
  · change write32 _ _ _ (start + 4) = _
    rw [write32_of_ne (by omega), write32_of_ne (by omega)]
    exact if_pos rfl
  · change read32 _ (start + 5) = _
    rw [read32_write32_of_ne (by omega), read32_write32_of_ne (by omega),
      read32_congr (sameOn_write8 (by omega)), read32_write32 (by omega)]
  · change read32 _ (start + 9 + size) = _
    rw [read32_write32_of_ne (by omega), read32_write32 hmagic]
  · exact read32_write32 (by omega)
  · intro x hx
    rw [write32_of_ne (by omega), write32_of_ne (by omega), write8_of_ne (by omega), write32_of_ne (by omega),
      write32_of_ne (by omega)]

/-- The index lists the holes by size. -/
structure Indexed (index : List Nat) (bs : List Block) : Prop where
  exists_holes : ∃ holes : List Block, index = holes.map Block.addr ∧ holes.Perm (bs.filter Block.hole) ∧
    holes.Pairwise (fun b c => b.size ≤ c.size)

theorem Indexed.perm {index : List Nat} {bs cs : List Block} (h : Indexed index bs) (hp : bs.Perm cs) :
    Indexed index cs := by
  obtain ⟨holes, hindex, hperm, hsorted⟩ := h.exists_holes
  exact ⟨holes, hindex, hperm.trans (hp.filter _), hsorted⟩

/-- An allocated block is not in the index. -/
theorem Indexed.cons_allocated {index : List Nat} {bs : List Block} (h : Indexed index bs) (hb : b.hole = false) :
    Indexed index (b :: bs) := by
  obtain ⟨holes, hindex, hperm, hsorted⟩ := h.exists_holes
  exact ⟨holes, hindex, by rwa [List.filter_cons_of_neg (by simp [hb])], hsorted⟩

theorem Indexed.of_cons_allocated {index : List Nat} {bs : List Block} (h : Indexed index (b :: bs))
    (hb : b.hole = false) : Indexed index bs := by
  obtain ⟨holes, hindex, hperm, hsorted⟩ := h.exists_holes
  exact ⟨holes, hindex, by rwa [List.filter_cons_of_neg (by simp [hb])] at hperm, hsorted⟩

theorem blockComparator_le (m : Memory) (x y : Nat) : blockComparator m x y ≤ 0 ↔ sizeAt m x ≤ sizeAt m y := by
  simp only [blockComparator]
  split_ifs <;> omega

/-- A new hole is inserted to the index. -/
theorem insertIndex_quiet {bs : List Block} (hindex : Indexed h.index bs) (hbs : ∀ c ∈ bs, Stored h.mem c)
    (hb : Stored h.mem b) (hhole : b.hole = true) :
    Quiet A (h.insertIndex b.addr)
      (fun h' => ∃ index, h' = { h with index := index } ∧ Indexed index (b :: bs)) := by
  obtain ⟨holes, hmap, hperm, hsorted⟩ := hindex.exists_holes
  refine Quiet.noteIf fun hdone => Quiet.pure ⟨_, rfl, ?_⟩
  have hlen : ¬ kheapIndexNum ≤ h.index.length := by
    intro hfull
    simp [OrderedArray.insert, hfull] at hdone
  have hstored : ∀ c ∈ holes, Stored h.mem c := by
    intro c hc
    exact hbs c (List.mem_filter.mp (hperm.mem_iff.mp hc)).1
  refine ⟨_, ?_, (OrderedArray.insertIdx_perm (fun x y => blockComparator h.mem x.addr y.addr) b holes).trans ?_,
    OrderedArray.insertIdx_sorted (k := Block.size) ?_ hsorted⟩
  · rw [OrderedArray.insert, if_neg hlen]
    simp only [hmap]
    exact OrderedArray.insertIdx_map Block.addr b holes
  · rw [List.filter_cons_of_pos hhole]
    exact hperm.cons b
  · intro c hc
    rw [blockComparator_le, (hstored c hc).size, hb.size]

/-- A hole is removed from the index. -/
theorem removeIndex_quiet {bs : List Block} (hindex : Indexed h.index (b :: bs)) (hhole : b.hole = true)
    (hnodup : ∀ c ∈ bs, c.addr ≠ b.addr) (site : Stop) :
    Quiet A (h.removeIndex b.addr site)
      (fun h' => ∃ index, h' = { h with index := index } ∧ Indexed index bs) := by
  obtain ⟨holes, hmap, hperm, hsorted⟩ := hindex.exists_holes
  rw [List.filter_cons_of_pos hhole] at hperm
  obtain ⟨xs, ys, rfl⟩ := List.append_of_mem (hperm.mem_iff.mpr (List.mem_cons_self ..))
  have hrest : (xs ++ ys).Perm (bs.filter Block.hole) :=
    (List.perm_cons b).mp (List.perm_middle.symm.trans hperm)
  have hmem : b.addr ∈ h.index := by
    simp [hmap]
  have hnot : b.addr ∉ xs.map Block.addr := by
    intro hx
    obtain ⟨c, hc, haddr⟩ := List.mem_map.mp hx
    have hcs := hrest.mem_iff.mp (List.mem_append_left ys hc)
    exact hnodup c (List.mem_filter.mp hcs).1 haddr
  rw [removeIndex, OrderedArray.removeElement_of_mem hmem]
  refine Quiet.check (by simp) (Quiet.pure ⟨_, rfl, xs ++ ys, ?_, hrest, ?_⟩)
  · rw [hmap, List.map_append, List.map_cons, List.erase_append_right _ hnot, List.erase_cons_head, List.map_append]
  · exact hsorted.sublist ((List.Sublist.refl xs).append (List.sublist_cons_self b ys))

/-- The payload addresses of the allocated blocks. -/
def live (bs : List Block) : List Nat := (bs.filter fun b => !b.hole).map (fun b => b.addr + 9)

theorem live_append (bs cs : List Block) : live (bs ++ cs) = live bs ++ live cs := by
  simp [live]

theorem live_perm {bs cs : List Block} (h : bs.Perm cs) : (live bs).Perm (live cs) := (h.filter _).map _

theorem live_cons_hole (bs : List Block) (hb : b.hole = true) : live (b :: bs) = live bs := by
  simp [live, hb]

theorem live_cons_allocated (bs : List Block) (hb : b.hole = false) : live (b :: bs) = (b.addr + 9) :: live bs := by
  simp [live, hb]

/-- No hole lies next to a hole. -/
def Coalesced (bs : List Block) : Prop := bs.IsChain fun b c => b.hole = true → c.hole = false

/-- A hole is replaced by coalesced blocks. -/
theorem Coalesced.replace {xs ys zs : List Block} (h : Coalesced (xs ++ b :: ys)) (hb : b.hole = true)
    (hzs : Coalesced zs) : Coalesced (xs ++ zs ++ ys) := by
  obtain ⟨hxs, hys, hleft⟩ := List.isChain_append.mp h
  obtain ⟨hright, hys⟩ := List.isChain_cons.mp hys
  refine List.isChain_append.mpr ⟨List.isChain_append.mpr ⟨hxs, hzs, ?_⟩, hys, ?_⟩
  · intro x hx z _ hhole
    have hx' := hleft x hx b rfl hhole
    rw [hb] at hx'
    cases hx'
  · intro z _ y hy _
    exact hright y hy hb

/-- A hole at the front of coalesced blocks is replaced by another block. -/
theorem Coalesced.replaceHead {ys : List Block} (h : Coalesced (b :: ys)) (hb : b.hole = true) (c : Block) :
    Coalesced (c :: ys) := by
  obtain ⟨hright, hys⟩ := List.isChain_cons.mp h
  exact List.isChain_cons.mpr ⟨fun y hy _ => hright y hy hb, hys⟩

/-- A block with at most one hole on each side of it. -/
theorem coalesced_around {front tail : List Block} (hfront : front.length ≤ 1) (hb : b.hole = false)
    (htail : tail.length ≤ 1) : Coalesced (front ++ b :: tail) := by
  have hrest : Coalesced (b :: tail) := by
    match tail, htail with
    | [], _ => exact List.isChain_singleton b
    | [c], _ => exact List.isChain_pair.mpr fun hhole => by simp [hb] at hhole
  match front, hfront with
  | [], _ => exact hrest
  | [c], _ => exact List.isChain_cons_cons.mpr ⟨fun _ => hb, hrest⟩

/-- The blocks tile the heap, and the index lists its holes. -/
structure Laid (h : Kheap) (bs : List Block) : Prop where
  tiles : Tiles Block.addr Block.last h.startAddress bs h.endAddress
  stored : ∀ b ∈ bs, Stored h.mem b
  indexed : Indexed h.index bs
  start : h.startAddress = kheapStartAddr + 4 * kheapIndexNum
  max : h.maxAddress = kheapMaxAddr
  bound : h.endAddress ≤ h.maxAddress
  nonempty : bs ≠ []

namespace Laid

variable {bs : List Block}

theorem lower (hl : Laid h bs) (hb : b ∈ bs) : 0xC0C80000 ≤ b.addr := by
  have hmem := (hl.tiles.mem hb).1
  rw [hl.start] at hmem
  exact hmem

theorem upper (hl : Laid h bs) (hb : b ∈ bs) : b.last ≤ 0xE0000000 := by
  have hmem := (hl.tiles.mem hb).2.2
  have hbound := hl.bound
  rw [hl.max] at hbound
  exact Nat.le_trans hmem hbound

end Laid

/-- Allocated blocks other than the one at the payload address `p` stay where they are,
with all their bytes. -/
def KeepsOthers (m m' : Memory) (bs bs' : List Block) (p : Nat) : Prop :=
  ∀ c ∈ bs, c.hole = false → c.addr + 9 ≠ p → c ∈ bs' ∧ SameOn m m' c.addr c.last

theorem KeepsOthers.trans {m m' m'' : Memory} {bs bs' bs'' : List Block} {p : Nat} (h : KeepsOthers m m' bs bs' p)
    (h' : KeepsOthers m' m'' bs' bs'' p) : KeepsOthers m m'' bs bs'' p := by
  intro c hc hhole hne
  obtain ⟨hmem, hsame⟩ := h c hc hhole hne
  obtain ⟨hmem', hsame'⟩ := h' c hmem hhole hne
  exact ⟨hmem', hsame.trans hsame'⟩

end LuckOS.Kheap
