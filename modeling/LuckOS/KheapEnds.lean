import LuckOS.KheapAlloc

/-!
# Allocation whatever is logged

The index may have refused a hole, and a large request may have wrapped a sum. `alloc`
goes on with an index that lists only some of the holes. It still returns a block inside of
the heap, as long as no wrapped sum passes its check.
-/

namespace LuckOS.Kheap

open ByteMemory Outcome Traced Tiling

variable {m m' : Memory} {h h' : Kheap} {b c : Block} {bs xs : List Block} {size pos n : Nat} {align : Bool}
  {A : Stop → Prop}

theorem addrAdd_ends {α : Type} {x y : Nat} {f : Nat → Result α} {post : α → Prop} (hf : Ends A (f (add32 x y)) post) :
    Ends A (addrAdd x y >>= f) post := by
  rw [addrAdd, Traced.bind_assoc]
  exact .noteIf hf

theorem addrAdd_events {x y : Nat} (hlt : x + y < 2 ^ 32) : (addrAdd x y).events = [] := by
  rw [addrAdd, noteIf, if_neg (by omega)]
  rfl

theorem makeBlock_events {start : Nat} {hole : Bool} (hlt : start + size + 17 < 2 ^ 32) :
    (makeBlock m start size hole).events = [] := by
  refine events_check_bind fun _ => ?_
  refine (addrAdd_quiet (A := fun _ => True) start (size + blockMetaSize)).events_bind ?_ fun _ _ => rfl
  exact addrAdd_events (by simp only [blockMetaSize]; omega)

theorem makeBlock_ends {start : Nat} {hole : Bool} (hpos : 0 < size) (hlt : start + size + 17 < 2 ^ 32) :
    Ends A (makeBlock m start size hole)
      (fun m' => Stored m' ⟨start, size, hole⟩ ∧ ChangedIn m m' start (start + size + 17)) :=
  ((makeBlock_quiet m hpos hole).ends (makeBlock_events hlt)).mono fun _ hm => ⟨hm.1, hm.2.1⟩

/-- The entries of the index are holes. -/
def Listed (index : List Nat) (bs : List Block) : Prop := ∀ a ∈ index, ∃ b ∈ bs, b.hole = true ∧ b.addr = a

theorem Listed.exists_holes {index : List Nat} (h : Listed index bs) :
    ∃ holes : List Block, index = holes.map Block.addr ∧ ∀ b ∈ holes, b ∈ bs ∧ b.hole = true := by
  induction index with
  | nil => exact ⟨[], rfl, nofun⟩
  | cons a index ih =>
    obtain ⟨b, hb, hhole, rfl⟩ := h a (List.mem_cons_self ..)
    obtain ⟨holes, rfl, hholes⟩ := ih fun a ha => h a (List.mem_cons_of_mem _ ha)
    exact ⟨b :: holes, rfl, List.forall_mem_cons.mpr ⟨⟨hb, hhole⟩, hholes⟩⟩

/-- The blocks tile the heap, and the index lists some of its holes. -/
structure Tiled (h : Kheap) (bs : List Block) : Prop where
  tiles : Tiles Block.addr Block.last h.startAddress bs h.endAddress
  stored : ∀ b ∈ bs, Stored h.mem b
  listed : Listed h.index bs
  start : h.startAddress = kheapStartAddr + 4 * kheapIndexNum
  max : h.maxAddress = kheapMaxAddr
  bound : h.endAddress ≤ h.maxAddress
  nonempty : bs ≠ []

theorem Laid.mem_index (hl : Laid h bs) (hb : b ∈ bs) (hhole : b.hole = true) : b.addr ∈ h.index := by
  obtain ⟨holes, hindex, hperm, -⟩ := hl.indexed.exists_holes
  rw [hindex]
  exact List.mem_map_of_mem (hperm.mem_iff.mpr (List.mem_filter.mpr ⟨hb, hhole⟩))

theorem Laid.tiled (hl : Laid h bs) : Tiled h bs := by
  refine ⟨hl.tiles, hl.stored, fun a ha => ?_, hl.start, hl.max, hl.bound, hl.nonempty⟩
  obtain ⟨holes, hindex, hperm, -⟩ := hl.indexed.exists_holes
  rw [hindex] at ha
  obtain ⟨b, hb, rfl⟩ := List.mem_map.mp ha
  obtain ⟨hmem, hhole⟩ := List.mem_filter.mp (hperm.mem_iff.mp hb)
  exact ⟨b, hmem, hhole, rfl⟩

theorem Tiled.upper (hl : Tiled h bs) (hb : b ∈ bs) : b.last ≤ 0xE0000000 := by
  have hmem := (hl.tiles.mem hb).2.2
  have hbound := hl.bound
  rw [hl.max] at hbound
  exact Nat.le_trans hmem hbound

/-- An insertion that is refused leaves the index as it is. -/
theorem insertIndex_ends (h : Kheap) (header : Nat) :
    Ends A (h.insertIndex header) (fun h' => ∃ index, h' = { h with index := index } ∧
      (h.index.length < kheapIndexNum → index.Perm (header :: h.index)) ∧
      (kheapIndexNum ≤ h.index.length → index = h.index)) := by
  rw [insertIndex, OrderedArray.insert]
  split_ifs with hfull
  · exact .noteIf (.pure ⟨_, rfl, fun hlt => absurd hlt (by omega), fun _ => rfl⟩)
  · exact .noteIf (.pure ⟨_, rfl, fun _ => OrderedArray.insertIdx_perm .., fun hle => absurd hle hfull⟩)

theorem removeIndex_ends (h : Kheap) {header : Nat} {site : Stop} (hA : header ∉ h.index → A site) :
    Ends A (h.removeIndex header site)
      (fun h' => header ∈ h.index ∧ h' = { h with index := h.index.erase header }) := by
  by_cases hmem : header ∈ h.index
  · rw [removeIndex, OrderedArray.removeElement_of_mem hmem]
    exact .check (by simp) (.pure ⟨hmem, rfl⟩)
  · have hmissing : OrderedArray.removeElement h.index header = (0, h.index) :=
      if_pos (List.idxOf_eq_length hmem)
    rw [removeIndex, hmissing]
    exact .check_allowed (fun _ => hA hmem) fun hne => absurd rfl hne

/-- The wrapped sum of the first page boundary and the request does not pass for a fit. -/
def NoWrappedFit (b : Block) (size : Nat) : Prop :=
  alignToPage (b.addr + 9) + size < 2 ^ 32 ∨ b.addr + 9 + b.size < alignToPage (b.addr + 9) + size - 2 ^ 32

theorem findAligned_ends (rounds : Nat) {start e : Nat} (he : e ≤ 0xE0000000) (hstart : start ≤ e) (hsize : size < 2 ^ 32)
    (hfit : alignToPage start + size < 2 ^ 32 ∨ e < alignToPage start + size - 2 ^ 32) :
    Ends A (findAligned (rounds + 2) start e (alignToPage start) size) (fun r =>
      (∀ pos, r = some pos → pos % 4096 = 0 ∧ start + 17 < pos ∧ pos + size ≤ e ∧ pos ≤ start + 17 + 4096) ∧
      (r = none → ∀ pos, pos % 4096 = 0 → start + 17 < pos → e < pos + size)) := by
  obtain ⟨hmod, hle, hlt⟩ := alignToPage_spec (n := start) (by omega)
  rw [findAligned]
  refine addrAdd_ends ?_
  by_cases hwrap : alignToPage start + size < 2 ^ 32
  · rw [add32_of_lt hwrap]
    split_ifs with hfits hroom
    · refine .pure ⟨?_, by simp⟩
      rintro pos ⟨⟩
      rw [sub32_of_le hle (by omega), blockMetaSize] at hroom
      omega
    · have hnext : add32 (alignToPage start) pageSize = alignToPage start + 4096 := by
        rw [pageSize, add32_of_lt (by omega)]
      rw [sub32_of_le hle (by omega), blockMetaSize] at hroom
      rw [findAligned, hnext]
      refine addrAdd_ends ?_
      rw [add32_of_lt (by omega), sub32_of_le (by omega) (by omega), blockMetaSize]
      split_ifs with hfits' hroom'
      · refine .pure ⟨?_, by simp⟩
        rintro pos ⟨⟩
        omega
      · omega
      · refine .pure ⟨by simp, fun _ pos hpos hgt => ?_⟩
        omega
    · refine .pure ⟨by simp, fun _ pos hpos hgt => ?_⟩
      omega
  · have hsum : add32 (alignToPage start) size = alignToPage start + size - 2 ^ 32 := by
      rw [add32]
      omega
    rw [hsum, if_neg (by omega)]
    refine .pure ⟨by simp, fun _ pos hpos hgt => ?_⟩
    omega

/-- `find_hole` returns a hole in which the request fits, if there is one in the index. -/
theorem findHoleFrom_ends (holes : List Block) (i : Nat) (hholes : ∀ b ∈ holes, Stored m b ∧ b.last ≤ 0xE0000000)
    (hsize : size < 2 ^ 32) (hwrap : align = true → ∀ b ∈ holes, NoWrappedFit b size) :
    Ends A (findHoleFrom m size align i (holes.map Block.addr)) (fun r =>
      (∀ j pos, r = some (j, pos) → ∃ k b, j = i + k ∧ holes[k]? = some b ∧ Fits b size align pos ∧ pos ≤ b.addr + 26 + 4096) ∧
      (r = none → ∀ b ∈ holes, ∀ pos, ¬ Fits b size align pos)) := by
  induction holes generalizing i with
  | nil => exact .pure ⟨by simp, fun _ b hb => absurd hb (by simp)⟩
  | cons b holes ih =>
    obtain ⟨hb, hlast⟩ := hholes b (List.mem_cons_self ..)
    have hrest := ih (i + 1) (fun c hc => hholes c (List.mem_cons_of_mem _ hc))
      fun halign c hc => hwrap halign c (List.mem_cons_of_mem _ hc)
    have hnext : (∀ pos, ¬ Fits b size align pos) → Ends A (findHoleFrom m size align (i + 1) (holes.map Block.addr)) (fun r =>
        (∀ j pos, r = some (j, pos) →
          ∃ k c, j = i + k ∧ (b :: holes)[k]? = some c ∧ Fits c size align pos ∧ pos ≤ c.addr + 26 + 4096) ∧
        (r = none → ∀ c ∈ b :: holes, ∀ pos, ¬ Fits c size align pos)) := by
      intro hno
      refine hrest.mono ?_
      rintro r ⟨hsome, hnone⟩
      refine ⟨fun j pos hpos => ?_, fun hr c hc => ?_⟩
      · obtain ⟨k, c, rfl, hc, hfits⟩ := hsome j pos hpos
        exact ⟨k + 1, c, by omega, hc, hfits⟩
      · rcases List.mem_cons.mp hc with rfl | hc
        · exact hno
        · exact hnone hr c hc
    simp only [Block.last] at hlast
    have hstart : add32 b.addr headerSize = b.addr + 9 := add32_of_lt (by simp only [headerSize]; omega)
    rw [List.map_cons, findHoleFrom]
    refine addrAdd_ends ?_
    rw [hstart, hb.size]
    cases align with
    | true =>
      rw [if_pos rfl]
      refine addrAdd_ends ?_
      rw [add32_of_lt (by omega)]
      refine (findAligned_ends 0xFFFFE (by omega) (by omega) hsize (hwrap rfl b (List.mem_cons_self ..))).bind ?_
      rintro (- | allocPos) ⟨hsome, hnone⟩
      · refine hnext fun pos hfits => ?_
        obtain ⟨hmod, hgap⟩ := hfits.aligned rfl
        have hroom := hfits.room
        have hlt := hnone rfl pos hmod (by omega)
        omega
      · refine .pure ⟨?_, by simp⟩
        rintro j pos ⟨⟩
        obtain ⟨hmod, hgap, hroom, hfirst⟩ := hsome _ rfl
        exact ⟨0, b, rfl, rfl, ⟨by simp, fun _ => ⟨hmod, by omega⟩, hroom⟩, by omega⟩
    | false =>
      rw [if_neg (by simp)]
      split_ifs with hfits
      · refine .pure ⟨?_, by simp⟩
        rintro j pos ⟨⟩
        exact ⟨0, b, rfl, rfl, ⟨fun _ => rfl, by simp, by omega⟩, by omega⟩
      · refine hnext fun pos hfit => ?_
        have hpos := hfit.plain rfl
        have hroom := hfit.room
        omega

theorem findHole_ends (hl : Tiled h bs) (hsize : size < 2 ^ 32)
    (hwrap : align = true → ∀ b ∈ bs, b.hole = true → NoWrappedFit b size) :
    Ends A (h.findHole size align) (fun r =>
      (∀ k pos, r = some (k, pos) → k < h.index.length ∧ ∃ b ∈ bs, OrderedArray.get h.index k = b.addr ∧ b.hole = true ∧
        b.addr ∈ h.index ∧ Fits b size align pos ∧ pos ≤ b.addr + 26 + 4096) ∧
      (r = none → ∀ b ∈ bs, b.addr ∈ h.index → ∀ pos, ¬ Fits b size align pos)) := by
  obtain ⟨holes, hindex, hholes⟩ := hl.listed.exists_holes
  have hstored : ∀ b ∈ holes, Stored h.mem b ∧ b.last ≤ 0xE0000000 := fun b hb =>
    ⟨hl.stored b (hholes b hb).1, hl.upper (hholes b hb).1⟩
  simp only [findHole, hindex]
  refine (findHoleFrom_ends holes 0 hstored hsize fun halign b hb => hwrap halign b (hholes b hb).1 (hholes b hb).2).mono ?_
  rintro r ⟨hsome, hnone⟩
  refine ⟨fun k pos hr => ?_, fun hr b hb hmem => ?_⟩
  · obtain ⟨j, b, rfl, hget, hfits⟩ := hsome k pos hr
    obtain ⟨hb, hhole⟩ := hholes b (List.mem_of_getElem? hget)
    have hlt := (List.getElem?_eq_some_iff.mp hget).1
    refine ⟨by rw [List.length_map]; omega, b, hb, ?_, hhole, List.mem_map_of_mem (List.mem_of_getElem? hget), hfits⟩
    rw [OrderedArray.get, Nat.zero_add, List.getD_eq_getElem?_getD, List.getElem?_map, hget]
    rfl
  · obtain ⟨c, hc, heq⟩ := List.mem_map.mp hmem
    rw [hl.tiles.eq_of_first hb (hholes c hc).1 heq.symm]
    exact hnone hr c hc

/-! ## The block that is taken -/

theorem cutFront_ends (hlast : b.last ≤ 0xE0000000) (hpos : b.addr + 26 < pos) (hroom : pos ≤ b.addr + 9 + b.size) :
    Ends A (h.cutFront b.addr b.size pos) (fun r => r.1 = pos - 9 ∧ r.1 + r.2.1 + 17 = b.last ∧
      ∃ m index, r.2.2 = { h with mem := m, index := index } ∧
        (h.index.length < kheapIndexNum → index.length = h.index.length + 1)) := by
  rw [cutFront_eq hlast hpos hroom]
  simp only [Block.last] at hlast
  refine (makeBlock_ends (by omega) (by omega)).bind fun m _ => ?_
  refine (insertIndex_ends { h with mem := m } b.addr).bind ?_
  rintro _ ⟨index, rfl, hroom, -⟩
  exact .pure ⟨rfl, by simp only [Block.last]; omega, m, index, rfl, fun hlt => (hroom hlt).length_eq⟩

theorem takeBlock_ends {header blockSize : Nat} (hlast : header + blockSize + 17 ≤ 0xE0000000) (hpos : 0 < size)
    (hfit : size ≤ blockSize) :
    Ends A (h.takeBlock header blockSize size) (fun h' => ∃ m index c, h' = { h with mem := m, index := index } ∧
      Stored m c ∧ c.addr = header ∧ c.hole = false ∧ size ≤ c.size ∧ c.size ≤ size + 17 ∧
      c.last ≤ header + blockSize + 17) := by
  have hremain : sub32 blockSize size = blockSize - size := sub32_of_le hfit (by omega)
  refine .check hfit ?_
  simp only [hremain, blockMetaSize]
  by_cases hsmall : blockSize - size ≤ 17
  · simp only [hsmall, if_true]
    refine (makeBlock_ends (by omega) (by omega)).bind fun m hm => ?_
    simp only [Nat.lt_irrefl, if_false]
    exact .pure ⟨m, h.index, _, rfl, hm.1, rfl, rfl, hfit, by simp only; omega, Nat.le_refl _⟩
  · simp only [hsmall, if_false]
    refine (makeBlock_ends hpos (by omega)).bind fun m hm => ?_
    rw [if_pos (by omega)]
    refine .check (by omega) (addrAdd_ends ?_)
    rw [add32_of_lt (by omega), sub32_of_le (by omega) (by omega)]
    refine (makeBlock_ends (by omega) (by omega)).bind ?_
    rintro m' ⟨-, hchanged⟩
    have hmain := hm.1.apart hchanged (by simp only [Block.last]; omega)
    refine (insertIndex_ends { h with mem := m' } _).mono ?_
    rintro _ ⟨index, rfl, -⟩
    exact ⟨m', index, _, rfl, hmain, rfl, rfl, Nat.le_refl _, by simp only; omega, by simp only [Block.last]; omega⟩

/-- An allocated block of at least `size` bytes with the payload at `pos`. -/
structure Returned (h : Kheap) (size : Nat) (r : Nat × Kheap) (pos lo hi : Nat) : Prop where
  payload : r.1 = pos
  heap : ∃ m index, r.2 = { h with mem := m, index := index }
  block : ∃ c, Stored r.2.mem c ∧ c.addr + 9 = pos ∧ c.hole = false ∧ size ≤ c.size ∧ c.size ≤ size + 17 ∧
    lo ≤ c.addr ∧ c.last ≤ hi

theorem useHole_ends {k : Nat} (hl : Tiled h bs) (hsize : 0 < size) (hb : b ∈ bs)
    (hget : OrderedArray.get h.index k = b.addr) (hfits : Fits b size align pos) :
    Ends A (h.useHole size align k pos) (fun r => Returned h size r pos b.addr b.last) := by
  have hstored := hl.stored b hb
  have hlast := hl.upper hb
  have hroom := hfits.room
  have htake : ∀ {h' : Kheap} {header blockSize : Nat}, header + blockSize + 17 = b.last → header + 9 = pos →
      b.addr ≤ header → (∃ m index, h' = { h with mem := m, index := index }) →
      Ends A (h'.takeBlock header blockSize size >>= fun h => pure (pos, h))
        (fun r => Returned h size r pos b.addr b.last) := by
    intro h' header blockSize hend hheader hle hh'
    obtain ⟨m, index, rfl⟩ := hh'
    have hfit : size ≤ blockSize := by
      simp only [Block.last] at hend
      omega
    refine (takeBlock_ends (by omega) hsize hfit).bind ?_
    rintro _ ⟨m', index', c, rfl, hc, haddr, hhole, hsize, htight, hclast⟩
    exact .pure ⟨rfl, ⟨m', index', rfl⟩, c, hc, by omega, hhole, hsize, htight, by omega, by omega⟩
  simp only [useHole, hget, hstored.size]
  refine .check hstored.magic ?_
  cases halign : align with
  | false =>
    have hpos := hfits.plain halign
    simp only [Bool.false_eq_true, if_false, Traced.pure_bind]
    exact htake rfl hpos.symm (Nat.le_refl _) ⟨h.mem, _, rfl⟩
  | true =>
    obtain ⟨-, hgap⟩ := hfits.aligned halign
    simp only [if_true]
    refine (cutFront_ends hlast hgap (by omega)).bind ?_
    rintro ⟨header, blockSize, h'⟩ ⟨hheader, hend, m, index, hh', -⟩
    simp only at hheader hend hh'
    exact htake hend (by omega) (by omega) ⟨m, index, hh'⟩

/-! ## The expansion -/

theorem expand_ends (h : Kheap) {expandSize : Nat} (hn : alignToPage expandSize = n) (hpos : 0 < n)
    (hlt : h.endAddress + n < 2 ^ 32)
    (hA : h.maxAddress < h.endAddress + n → A .expandMax) :
    Ends A (h.expand expandSize) (fun r => ∃ total,
      r = (n, { h with endAddress := h.endAddress + n, size := total }) ∧ h.endAddress + n ≤ h.maxAddress) := by
  rw [expand, hn, if_neg (by omega)]
  refine addrAdd_ends ?_
  rw [add32_of_lt hlt]
  exact .check_allowed (fun hmax => hA (by omega)) fun hmax => .pure ⟨_, rfl, hmax⟩

theorem Tiled.last_block (hl : Tiled h bs) : ∃ xs b, bs = xs ++ [b] ∧ b.last = h.endAddress := by
  rcases List.eq_nil_or_concat bs with rfl | ⟨xs, b, rfl⟩
  · exact absurd rfl hl.nonempty
  · rw [List.concat_eq_append] at hl ⊢
    obtain ⟨mid, -, -, -, hlast⟩ := tiles_append.mp hl.tiles
    exact ⟨xs, b, rfl, hlast⟩

/-- The header that the last footer leads to. -/
theorem Tiled.last_header (hl : Tiled h (xs ++ [b])) : b.last = h.endAddress ∧
    headerAt h.mem (sub32 h.endAddress footerSize) = b.addr ∧ 0xC0C80000 ≤ b.addr ∧ h.endAddress ≤ 0xE0000000 := by
  obtain ⟨mid, -, -, -, hlast⟩ := tiles_append.mp hl.tiles
  have hlast : b.last = h.endAddress := hlast
  have hupper := hl.upper (b := b) (by simp)
  have hlower := (hl.tiles.mem (x := b) (by simp)).1
  rw [hl.start] at hlower
  have hfooter : sub32 h.endAddress footerSize = b.addr + 9 + b.size := by
    rw [← hlast, footerSize, sub32_of_le] <;> simp only [Block.last] at hupper ⊢ <;> omega
  rw [hfooter, ← hlast]
  exact ⟨rfl, (hl.stored b (by simp)).footHeader, hlower, hupper⟩

/-- The last block is a hole: it grows, if it is in the index. -/
theorem extend_hole_ends (hl : Tiled h (xs ++ [b])) (hb : b.hole = true) (hn : alignToPage (add32 size 17) = n) (hpos : 0 < n)
    (hlt : h.endAddress + n < 2 ^ 32) (hmax : h.maxAddress < h.endAddress + n → A .expandMax)
    (hremove : b.addr ∉ h.index → A .allocRemoveLast) :
    Ends A (h.extend size) (fun h' => Tiled h' (xs ++ [⟨b.addr, b.size + n, true⟩]) ∧ h'.endAddress = h.endAddress + n ∧
      b.addr ∈ h.index ∧ (h.index.length ≤ kheapIndexNum → b.addr ∈ h'.index ∧ h'.index.length = h.index.length)) := by
  obtain ⟨hlast, hheader, hlower, hupper⟩ := hl.last_header
  have hstored := hl.stored b (by simp)
  have hbound := hl.bound
  have hmaxAddr := hl.max
  obtain ⟨mid, hxs, rfl, -, -⟩ := tiles_append.mp hl.tiles
  have hblock := hlast
  simp only [Block.last] at hblock
  refine (expand_ends h hn hpos hlt hmax).bind ?_
  rintro _ ⟨total, rfl, hle⟩
  simp only [hheader, hstored.hole, hstored.size, hb]
  rw [if_pos (by simp), add32_of_lt (by omega)]
  refine (makeBlock_ends (by omega) (by omega)).bind ?_
  rintro m ⟨hgrown, hchanged⟩
  refine Ends.bind (removeIndex_ends _ ?_) ?_
  · exact hremove
  rintro _ ⟨hmem, rfl⟩
  refine (insertIndex_ends _ _).mono ?_
  rintro _ ⟨index, rfl, hroom, hfull⟩
  simp only at hmem hroom hfull
  have hlength := List.length_erase_of_mem hmem
  have hlisted : ∀ a ∈ index, a = b.addr ∨ a ∈ h.index := by
    intro a ha
    rcases Nat.lt_or_ge (h.index.erase b.addr).length kheapIndexNum with hlt | hge
    · exact (List.mem_cons.mp ((hroom hlt).mem_iff.mp ha)).imp_right List.mem_of_mem_erase
    · rw [hfull hge] at ha
      exact .inr (List.mem_of_mem_erase ha)
  refine ⟨⟨?_, ?_, ?_, hl.start, hl.max, hle, by simp⟩, rfl, hmem, fun hcap => ?_⟩
  · exact tiles_append.mpr ⟨_, hxs, rfl, by simp only [Block.last]; omega, by simp only [Block.last, Tiles]; omega⟩
  · intro c hc
    rcases List.mem_append.mp hc with hc | hc
    · exact (hl.stored c (List.mem_append_left _ hc)).apart hchanged (.inl (hxs.mem hc).2.2)
    · rw [List.mem_singleton.mp hc]
      exact hgrown
  · intro a ha
    rcases hlisted a ha with rfl | ha
    · exact ⟨_, List.mem_append_right _ (List.mem_singleton_self _), rfl, rfl⟩
    · obtain ⟨c, hc, hhole, rfl⟩ := hl.listed a ha
      rcases List.mem_append.mp hc with hc | hc
      · exact ⟨c, List.mem_append_left _ hc, hhole, rfl⟩
      · rw [List.mem_singleton.mp hc]
        exact ⟨_, List.mem_append_right _ (List.mem_singleton_self _), rfl, rfl⟩
  · have hpositive := List.length_pos_of_mem hmem
    have hperm := hroom (by omega)
    refine ⟨hperm.mem_iff.mpr (List.mem_cons_self ..), ?_⟩
    rw [hperm.length_eq, List.length_cons]
    omega

/-- The last block is allocated: a hole is appended. -/
theorem extend_allocated_ends (hl : Tiled h (xs ++ [b])) (hb : b.hole = false) (hn : alignToPage (add32 size 17) = n)
    (hpos : 17 < n) (hlt : h.endAddress + n < 2 ^ 32) (hmax : h.maxAddress < h.endAddress + n → A .expandMax) :
    Ends A (h.extend size) (fun h' => Tiled h' (xs ++ [b] ++ [⟨h.endAddress, n - 17, true⟩]) ∧
      h'.endAddress = h.endAddress + n ∧
      (h.index.length < kheapIndexNum → h.endAddress ∈ h'.index ∧ h'.index.length = h.index.length + 1) ∧
      (kheapIndexNum ≤ h.index.length → h'.index = h.index)) := by
  obtain ⟨hlast, hheader, hlower, hupper⟩ := hl.last_header
  have hstored := hl.stored b (by simp)
  refine (expand_ends h hn (by omega) hlt hmax).bind ?_
  rintro _ ⟨total, rfl, hle⟩
  simp only [hheader, hstored.hole, hb]
  have hsize : sub32 n blockMetaSize = n - 17 := by
    rw [blockMetaSize, sub32_of_le (by omega) (by omega)]
  rw [if_neg (by simp), hsize]
  refine (makeBlock_ends (by omega) (by omega)).bind ?_
  rintro m ⟨hnew, hchanged⟩
  refine (insertIndex_ends _ _).mono ?_
  rintro _ ⟨index, rfl, hroom, hfull⟩
  simp only at hroom hfull
  refine ⟨⟨?_, ?_, ?_, hl.start, hl.max, hle, by simp⟩, rfl, fun hlt => ?_, hfull⟩
  · exact tiles_append.mpr ⟨_, hl.tiles, rfl, by simp only [Block.last]; omega, by simp only [Block.last, Tiles]; omega⟩
  · intro c hc
    rcases List.mem_append.mp hc with hc | hc
    · exact (hl.stored c hc).apart hchanged (.inl (hl.tiles.mem hc).2.2)
    · rw [List.mem_singleton.mp hc]
      exact hnew
  · intro a ha
    have hcases : a = h.endAddress ∨ a ∈ h.index := by
      rcases Nat.lt_or_ge h.index.length kheapIndexNum with hlt | hge
      · exact List.mem_cons.mp ((hroom hlt).mem_iff.mp ha)
      · rw [hfull hge] at ha
        exact .inr ha
    rcases hcases with rfl | ha
    · exact ⟨_, List.mem_append_right _ (List.mem_singleton_self _), rfl, rfl⟩
    · obtain ⟨c, hc, hhole, rfl⟩ := hl.listed a ha
      exact ⟨c, List.mem_append_left _ hc, hhole, rfl⟩
  · have hperm := hroom hlt
    refine ⟨hperm.mem_iff.mpr (List.mem_cons_self ..), ?_⟩
    rw [hperm.length_eq, List.length_cons]

/-! ## A round of the recursion -/

/-- The sums of a request that is not larger than the heap can become do not wrap. -/
theorem Tiled.noWrappedFit (hl : Tiled h bs) (hsize : size ≤ 0x1F380000) (hb : b ∈ bs) : NoWrappedFit b size := by
  have hlast := hl.upper hb
  simp only [Block.last] at hlast
  have halign := alignToPage_spec (n := b.addr + 9) (by omega)
  exact .inl (by omega)

/-- A round either takes a hole or expands the heap. -/
theorem alloc_round {rounds : Nat} {post : Nat × Kheap → Prop} (hl : Tiled h bs) (hpos : 0 < size) (hsize : size < 2 ^ 32)
    (hwrap : align = true → ∀ b ∈ bs, b.hole = true → NoWrappedFit b size)
    (hfound : ∀ b ∈ bs, b.hole = true → b.addr ∈ h.index → ∀ pos, Fits b size align pos →
      ∀ r, Returned h size r pos b.addr b.last → post r)
    (hnone : (∀ b ∈ bs, b.addr ∈ h.index → ∀ pos, ¬ Fits b size align pos) →
      Ends A (h.extend size >>= fun h => alloc rounds h size align) post) :
    Ends A (alloc (rounds + 1) h size align) post := by
  refine .check hpos ((findHole_ends hl hsize hwrap).bind ?_)
  rintro (- | ⟨k, pos⟩) ⟨hsome, hno⟩
  · exact hnone (hno rfl)
  · obtain ⟨-, b, hb, hget, hhole, hmem, hfits, -⟩ := hsome k pos rfl
    exact (useHole_ends hl hpos hb hget hfits).mono (hfound b hb hhole hmem pos hfits)

end LuckOS.Kheap
