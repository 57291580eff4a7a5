import LuckOS.KheapBlocks

/-!
# Allocation on the kernel heap

`find_hole` returns a hole in which the request fits. `alloc` replaces this hole by the
allocated block with a hole in front of it and one behind it, if there is room, and it
expands the heap when no hole fits.
-/

namespace LuckOS.Kheap

open ByteMemory Outcome Traced Tiling

variable {m m' : Memory} {h : Kheap} {b c : Block} {bs : List Block} {size : Nat} {align : Bool}
  {A : Stop → Prop}

/-- A request fits in a hole at the payload address `pos`. -/
structure Fits (b : Block) (size : Nat) (align : Bool) (pos : Nat) : Prop where
  plain : align = false → pos = b.addr + 9
  aligned : align = true → pos % 4096 = 0 ∧ b.addr + 26 < pos
  room : pos + size ≤ b.addr + 9 + b.size

theorem alignToPage_spec {n : Nat} (hn : n + 4096 < 2 ^ 32) :
    alignToPage n % 4096 = 0 ∧ n ≤ alignToPage n ∧ alignToPage n < n + 4096 := by
  by_cases hmod : n % 4096 = 0
  · have halign : alignToPage n = n := if_neg (by simpa [pageSize] using hmod)
    omega
  · have halign : alignToPage n = n / 4096 * 4096 + 4096 := by
      rw [alignToPage, if_pos (by simpa [pageSize] using hmod), pageSize, add32_of_lt (by omega)]
    omega

/-- The loop over the page boundaries ends in its second round at the latest. -/
theorem findAligned_quiet (rounds : Nat) {start e : Nat} (he : e ≤ 0xE0000000) (hstart : start ≤ e) :
    Quiet A (findAligned (rounds + 2) start e (alignToPage start) size)
      (fun r => ∀ pos, r = some pos → pos % 4096 = 0 ∧ start + 17 < pos ∧ pos + size ≤ e) := by
  obtain ⟨hmod, hle, hlt⟩ := alignToPage_spec (n := start) (by omega)
  rw [findAligned]
  refine (addrAdd_quiet _ _).bind fun last hlast => ?_
  obtain ⟨rfl, -⟩ := hlast
  split_ifs with hfits hroom
  · refine Quiet.pure ?_
    rintro pos ⟨⟩
    rw [sub32_of_le hle (by omega), blockMetaSize] at hroom
    omega
  · have hnext : add32 (alignToPage start) pageSize = alignToPage start + 4096 := by
      rw [pageSize, add32_of_lt (by omega)]
    rw [findAligned, hnext]
    refine (addrAdd_quiet _ _).bind fun last hlast => ?_
    obtain ⟨rfl, -⟩ := hlast
    split_ifs with hfits' hroom'
    · refine Quiet.pure ?_
      rintro pos ⟨⟩
      omega
    · rw [sub32_of_le (by omega) (by omega), blockMetaSize] at hroom'
      omega
    · refine Quiet.pure ?_
      rintro pos ⟨⟩
  · refine Quiet.pure ?_
    rintro pos ⟨⟩

theorem findHoleFrom_quiet (holes : List Block) (i : Nat)
    (hholes : ∀ b ∈ holes, Stored m b ∧ b.last ≤ 0xE0000000) :
    Quiet A (findHoleFrom m size align i (holes.map Block.addr))
      (fun r => ∀ j pos, r = some (j, pos) → ∃ k b, j = i + k ∧ holes[k]? = some b ∧ Fits b size align pos) := by
  induction holes generalizing i with
  | nil =>
    refine Quiet.pure ?_
    rintro j pos ⟨⟩
  | cons b holes ih =>
    obtain ⟨hb, hlast⟩ := hholes b (List.mem_cons_self ..)
    have hrest := ih (i + 1) fun c hc => hholes c (List.mem_cons_of_mem _ hc)
    have hnext : ∀ r : Option (Nat × Nat),
        (∀ j pos, r = some (j, pos) → ∃ k c, j = i + 1 + k ∧ holes[k]? = some c ∧ Fits c size align pos) →
        ∀ j pos, r = some (j, pos) → ∃ k c, j = i + k ∧ (b :: holes)[k]? = some c ∧ Fits c size align pos := by
      intro r hr j pos hpos
      obtain ⟨k, c, rfl, hc, hfits⟩ := hr j pos hpos
      exact ⟨k + 1, c, by omega, hc, hfits⟩
    simp only [Block.last] at hlast
    rw [List.map_cons, findHoleFrom]
    refine (addrAdd_quiet _ _).bind fun start hstart => ?_
    obtain ⟨rfl, -⟩ := hstart
    simp only [headerSize, hb.size]
    cases align with
    | true =>
      simp only [if_true]
      refine (addrAdd_quiet _ _).bind fun e he => ?_
      obtain ⟨rfl, -⟩ := he
      refine (findAligned_quiet 0xFFFFE (by omega) (by omega)).bind fun r hr => ?_
      cases r with
      | none => exact hrest.mono hnext
      | some allocPos =>
        refine Quiet.pure ?_
        rintro j pos ⟨⟩
        have hfits := hr allocPos rfl
        exact ⟨0, b, rfl, rfl, ⟨by simp, fun _ => by omega, by omega⟩⟩
    | false =>
      simp only [Bool.false_eq_true, if_false]
      split_ifs with hfits
      · refine Quiet.pure ?_
        rintro j pos ⟨⟩
        exact ⟨0, b, rfl, rfl, ⟨fun _ => rfl, by simp, by omega⟩⟩
      · exact hrest.mono hnext

/-- The block at a position of the index. -/
theorem Indexed.get {index : List Nat} {holes : List Block} (hindex : index = holes.map Block.addr)
    (hperm : holes.Perm (bs.filter Block.hole)) (hsorted : holes.Pairwise (fun b c => b.size ≤ c.size)) {k : Nat}
    (hk : holes[k]? = some b) : OrderedArray.get index k = b.addr ∧ b ∈ bs ∧ b.hole = true ∧
      ∀ cs, bs.Perm (b :: cs) → Indexed (OrderedArray.remove index k).2 cs := by
  have hlt : k < holes.length := (List.getElem?_eq_some_iff.mp hk).1
  have hmem := List.mem_filter.mp (hperm.mem_iff.mp (List.mem_of_getElem? hk))
  refine ⟨?_, hmem.1, hmem.2, fun cs hcs => ⟨holes.eraseIdx k, ?_, ?_, hsorted.sublist (List.eraseIdx_sublist ..)⟩⟩
  · simp [OrderedArray.get, hindex, List.getD_eq_getElem?_getD, hk]
  · rw [OrderedArray.remove, if_neg (by simp [hindex, hlt]), hindex, List.eraseIdx_map]
  · have hfilter : (bs.filter Block.hole).Perm (b :: cs.filter Block.hole) := by
      rw [← List.filter_cons_of_pos hmem.2]
      exact hcs.filter _
    have hget : holes[k] = b := (List.getElem?_eq_some_iff.mp hk).2
    have herase : (b :: holes.eraseIdx k).Perm holes := by
      rw [← hget]
      exact List.getElem_cons_eraseIdx_perm hlt
    exact (List.perm_cons b).mp (herase.trans (hperm.trans hfilter))

/-- What is left of a hole behind a cut. -/
structure Cut (h : Kheap) (b : Block) (rest : List Block) (pos : Nat) (r : Nat × Nat × Kheap) : Prop where
  header : r.1 = pos - 9
  size : r.1 + r.2.1 + 17 = b.last
  heap : ∃ m index front, r.2.2 = { h with mem := m, index := index } ∧ ChangedIn h.mem m b.addr r.1 ∧
    Tiles Block.addr Block.last b.addr front r.1 ∧ (∀ c ∈ front, Stored m c) ∧ live front = [] ∧ front.length ≤ 1 ∧
    Indexed index (front ++ rest)

/-- No subtraction of the cut wraps, and its check succeeds. -/
theorem cutFront_eq {pos : Nat} (hlast : b.last ≤ 0xE0000000) (hpos : b.addr + 26 < pos)
    (hroom : pos ≤ b.addr + 9 + b.size) :
    h.cutFront b.addr b.size pos = (do
      let m ← makeBlock h.mem b.addr (pos - 9 - b.addr - 17) true
      let h ← ({ h with mem := m } : Kheap).insertIndex b.addr
      pure (pos - 9, b.size - (pos - 9 - b.addr), h)) := by
  simp only [Block.last] at hlast
  have hheader : sub32 pos headerSize = pos - 9 := by
    rw [headerSize, sub32_of_le (by omega) (by omega)]
  have hcut : sub32 (pos - 9) b.addr = pos - 9 - b.addr := sub32_of_le (by omega) (by omega)
  have hsize : sub32 (pos - 9 - b.addr) blockMetaSize = pos - 9 - b.addr - 17 := by
    rw [blockMetaSize, sub32_of_le (by omega) (by omega)]
  have hremain : sub32 b.size (pos - 9 - b.addr) = b.size - (pos - 9 - b.addr) := sub32_of_le (by omega) (by omega)
  simp only [cutFront, hheader, hcut, hsize, hremain]
  rw [if_pos (by omega), Traced.check_eq_pure (by simp only [blockMetaSize]; omega), Traced.pure_bind]

theorem cutFront_quiet {rest : List Block} {pos : Nat} (hlast : b.last ≤ 0xE0000000)
    (hrest : ∀ c ∈ rest, Stored h.mem c ∧ (c.last ≤ b.addr ∨ b.last ≤ c.addr)) (hindex : Indexed h.index rest)
    (hpos : b.addr + 26 < pos) (hroom : pos ≤ b.addr + 9 + b.size) :
    Quiet A (h.cutFront b.addr b.size pos) (Cut h b rest pos) := by
  rw [cutFront_eq hlast hpos hroom]
  simp only [Block.last] at hlast hrest
  refine (makeBlock_quiet h.mem (by omega) true).bind fun m hm => ?_
  obtain ⟨hfront, hchanged, -⟩ := hm
  have hrest' : ∀ c ∈ rest, Stored m c := by
    intro c hc
    obtain ⟨hstored, hapart⟩ := hrest c hc
    exact hstored.apart hchanged (by simp only [Block.last]; omega)
  refine (insertIndex_quiet (h := { h with mem := m }) hindex hrest' hfront rfl).bind fun h' hh' => ?_
  obtain ⟨index, rfl, hindex'⟩ := hh'
  refine Quiet.pure ⟨rfl, by simp only [Block.last]; omega, m, index, [⟨b.addr, pos - 9 - b.addr - 17, true⟩], rfl,
    hchanged.mono (Nat.le_refl _) (by omega), ⟨rfl, by simp only [Block.last]; omega, by simp only [Tiles, Block.last]; omega⟩,
    ?_, rfl, Nat.le_refl _, hindex'⟩
  intro c hc
  rw [List.mem_singleton.mp hc]
  exact hfront

/-- The block from `header` up to `e` is taken for a request. -/
structure Taken (h : Kheap) (header e size : Nat) (rest : List Block) (h' : Kheap) : Prop where
  heap : ∃ m index taken, h' = { h with mem := m, index := index } ∧ ChangedIn h.mem m header e ∧
    Tiles Block.addr Block.last header taken e ∧ (∀ c ∈ taken, Stored m c) ∧ Indexed index (taken ++ rest) ∧
    ∃ b tail, taken = b :: tail ∧ b.addr = header ∧ b.hole = false ∧ size ≤ b.size ∧ live tail = [] ∧ tail.length ≤ 1

theorem takeBlock_quiet {rest : List Block} {header blockSize : Nat} (hlast : header + blockSize + 17 ≤ 0xE0000000)
    (hpos : 0 < size) (hfit : size ≤ blockSize)
    (hrest : ∀ c ∈ rest, Stored h.mem c ∧ (c.last ≤ header ∨ header + blockSize + 17 ≤ c.addr))
    (hindex : Indexed h.index rest) :
    Quiet A (h.takeBlock header blockSize size) (Taken h header (header + blockSize + 17) size rest) := by
  have hremain : sub32 blockSize size = blockSize - size := sub32_of_le hfit (by omega)
  refine Quiet.check hfit ?_
  simp only [hremain, blockMetaSize]
  by_cases hsmall : blockSize - size ≤ 17
  · simp only [hsmall, if_true]
    refine (makeBlock_quiet h.mem (by omega) false).bind fun m hm => ?_
    obtain ⟨hmain, hchanged, -⟩ := hm
    simp only [Nat.lt_irrefl, if_false]
    refine Quiet.pure ⟨m, h.index, [⟨header, blockSize, false⟩], rfl, hchanged, ⟨rfl, ?_, rfl⟩, ?_, hindex.cons_allocated rfl,
      _, [], rfl, rfl, rfl, hfit, rfl, Nat.zero_le _⟩
    · simp only [Block.last]
      omega
    · intro c hc
      rw [List.mem_singleton.mp hc]
      exact hmain
  · simp only [hsmall, if_false]
    refine (makeBlock_quiet h.mem hpos false).bind fun m hm => ?_
    obtain ⟨hmain, hchanged, -⟩ := hm
    rw [if_pos (by omega)]
    refine Quiet.check (by omega) ?_
    have hadd := addrAdd_quiet (A := A) header (17 + size)
    refine hadd.bind ?_
    rintro _ ⟨rfl, -⟩
    have hsize : sub32 (blockSize - size) 17 = blockSize - size - 17 := sub32_of_le (by omega) (by omega)
    rw [hsize]
    refine (makeBlock_quiet m (by omega) true).bind fun m' hm' => ?_
    obtain ⟨htail, hchanged', -⟩ := hm'
    have hwhole : ChangedIn h.mem m' header (header + blockSize + 17) :=
      (hchanged.mono (Nat.le_refl _) (by omega)).trans (hchanged'.mono (by omega) (by omega))
    have hrest' : ∀ c ∈ rest, Stored m' c := by
      intro c hc
      obtain ⟨hstored, hapart⟩ := hrest c hc
      exact hstored.apart hwhole hapart
    have hmain' : Stored m' ⟨header, size, false⟩ := hmain.apart hchanged' (by simp only [Block.last]; omega)
    have hinsert := insertIndex_quiet (A := A) (h := { h with mem := m' })
      (b := ⟨header + (17 + size), blockSize - size - 17, true⟩) hindex hrest' htail rfl
    refine hinsert.mono ?_
    rintro h' ⟨index, rfl, hindex'⟩
    refine ⟨m', index, [⟨header, size, false⟩, ⟨header + (17 + size), blockSize - size - 17, true⟩], rfl, hwhole,
      ⟨rfl, ?_, ?_, ?_, ?_⟩, ?_, hindex'.cons_allocated rfl, _, _, rfl, rfl, rfl, Nat.le_refl _, rfl, Nat.le_refl _⟩
    · simp only [Block.last]
      omega
    · simp only [Block.last]
      omega
    · simp only [Block.last]
      omega
    · simp only [Tiles, Block.last]
      omega
    · intro c hc
      rcases List.mem_pair.mp hc with rfl | rfl
      · exact hmain'
      · exact htail

/-- The effect of a successful allocation of `size` bytes at `p`. -/
structure Allocated (h : Kheap) (bs : List Block) (size : Nat) (align : Bool) (p : Nat) (h' : Kheap)
    (bs' : List Block) : Prop where
  laid : Laid h' bs'
  block : ∃ b ∈ bs', b.addr + 9 = p ∧ b.hole = false ∧ size ≤ b.size
  aligned : align = true → p % 4096 = 0
  live : (live bs').Perm (p :: live bs)
  kept : ∀ q, KeepsOthers h.mem h'.mem bs bs' q
  coalesced : Coalesced bs → Coalesced bs'

/-- A hole is replaced by other blocks on the same addresses. -/
theorem Laid.replaceHole {xs ys : List Block} (zs : List Block) (hl : Laid h (xs ++ b :: ys)) (hb : b.hole = true)
    {index : List Nat} (hchanged : ChangedIn h.mem m b.addr b.last) (htiles : Tiles Block.addr Block.last b.addr zs b.last)
    (hstored : ∀ c ∈ zs, Stored m c) (hindex : Indexed index (zs ++ (xs ++ ys))) :
    Laid { h with mem := m, index := index } (xs ++ zs ++ ys) ∧
      (live (xs ++ zs ++ ys)).Perm (live zs ++ live (xs ++ b :: ys)) ∧
      ∀ q, KeepsOthers h.mem m (xs ++ b :: ys) (xs ++ zs ++ ys) q := by
  have happart : ∀ c ∈ xs ++ ys, c.last ≤ b.addr ∨ b.last ≤ c.addr := fun c hc => hl.tiles.apart hc
  have hperm : (zs ++ (xs ++ ys)).Perm (xs ++ zs ++ ys) := by
    rw [← List.append_assoc]
    exact List.perm_append_comm.append_right ys
  refine ⟨⟨hl.tiles.replace htiles, ?_, hindex.perm hperm, hl.start, hl.max, hl.bound, ?_⟩, ?_, ?_⟩
  · intro c hc
    rcases List.mem_append.mp (hperm.mem_iff.mpr hc) with hz | hrest
    · exact hstored c hz
    · have hmem : c ∈ xs ++ b :: ys := by
        rw [List.mem_append] at hrest ⊢
        exact hrest.imp_right (List.mem_cons_of_mem b)
      exact (hl.stored c hmem).apart hchanged (happart c hrest)
  · have hne : zs ≠ [] := by
      rintro rfl
      have hlt := (hl.tiles.mem (b := _) (x := b) (by simp)).2.1
      rw [Tiles] at htiles
      omega
    simp [hne]
  · refine (live_perm hperm.symm).trans ?_
    rw [live_append, live_append, live_append, live_cons_hole ys hb]
  · intro q c hc hhole _
    have hrest : c ∈ xs ++ ys := by
      rw [List.mem_append, List.mem_cons] at hc
      rcases hc with hx | rfl | hy
      · exact List.mem_append_left _ hx
      · simp [hb] at hhole
      · exact List.mem_append_right _ hy
    exact ⟨hperm.mem_iff.mp (List.mem_append_right zs hrest), hchanged.sameOn (happart c hrest)⟩

/-- The rest of a hole behind the blocks `front` is taken. -/
theorem takeBlock_laid {xs ys : List Block} {index : List Nat} (front : List Block) {header blockSize pos : Nat}
    (hl : Laid h (xs ++ b :: ys)) (hb : b.hole = true) (hpos : 0 < size) (hfit : size ≤ blockSize)
    (hend : header + blockSize + 17 = b.last) (hheader : header + 9 = pos) (haligned : align = true → pos % 4096 = 0)
    (hchanged : ChangedIn h.mem m b.addr header) (htiles : Tiles Block.addr Block.last b.addr front header)
    (hstored : ∀ c ∈ front, Stored m c) (hlive : live front = []) (hlength : front.length ≤ 1)
    (hindex : Indexed index (front ++ (xs ++ ys))) :
    Quiet A (({ h with mem := m, index := index } : Kheap).takeBlock header blockSize size >>= fun h => pure (pos, h))
      (fun r => r.1 = pos ∧ ∃ bs', Allocated h (xs ++ b :: ys) size align pos r.2 bs') := by
  have hle := htiles.le
  have hlast := hl.upper (b := b) (by simp)
  have hrest : ∀ c ∈ front ++ (xs ++ ys), Stored m c ∧ (c.last ≤ header ∨ header + blockSize + 17 ≤ c.addr) := by
    intro c hc
    rcases List.mem_append.mp hc with hfront | hrest
    · exact ⟨hstored c hfront, .inl (htiles.mem hfront).2.2⟩
    · have happart := hl.tiles.apart hrest
      have hmem : c ∈ xs ++ b :: ys := by
        rw [List.mem_append] at hrest ⊢
        exact hrest.imp_right (List.mem_cons_of_mem b)
      have hc := (hl.tiles.mem hmem).2.1
      exact ⟨(hl.stored c hmem).apart hchanged (by omega), by omega⟩
  have htake := takeBlock_quiet (A := A) (h := { h with mem := m, index := index }) (by omega) hpos hfit hrest hindex
  rw [hend] at htake
  refine htake.bind ?_
  rintro _ ⟨m', index', taken, rfl, hchanged', htiles', hstored', hindex', c, tail, rfl, hc, hallocated, hsize, htail, hone⟩
  have hbefore : ∀ d ∈ front, Stored m' d := fun d hd =>
    (hstored d hd).apart hchanged' (.inl (htiles.mem hd).2.2)
  obtain ⟨hlaid, hlive', hkept⟩ := hl.replaceHole (front ++ c :: tail) hb
    ((hchanged.mono (Nat.le_refl _) (by omega)).trans (hchanged'.mono hle (Nat.le_refl _)))
    (tiles_append.mpr ⟨_, htiles, htiles'⟩)
    (fun d hd => (List.mem_append.mp hd).elim (hbefore d) (hstored' d))
    (hindex'.perm (by rw [List.append_assoc front]; exact List.perm_append_comm_assoc _ _ _))
  refine Quiet.pure ⟨rfl, _, hlaid, ⟨c, by simp, by omega, hallocated, hsize⟩, haligned, ?_, hkept,
    fun hco => hco.replace hb (coalesced_around hlength hallocated hone)⟩
  refine hlive'.trans (.of_eq ?_)
  rw [live_append, hlive, live_cons_allocated tail hallocated, htail, hc, hheader]
  rfl

theorem useHole_quiet {holes : List Block} {k pos : Nat} (hl : Laid h bs) (hsize : 0 < size)
    (hindex : h.index = holes.map Block.addr) (hperm : holes.Perm (bs.filter Block.hole))
    (hsorted : holes.Pairwise (fun b c => b.size ≤ c.size)) (hk : holes[k]? = some b) (hfits : Fits b size align pos) :
    Quiet A (h.useHole size align k pos) (fun r => r.1 = pos ∧ ∃ bs', Allocated h bs size align pos r.2 bs') := by
  obtain ⟨hget, hmem, hhole, hremove⟩ := Indexed.get hindex hperm hsorted hk
  obtain ⟨xs, ys, rfl⟩ := List.append_of_mem hmem
  have hb := hl.stored b hmem
  have hlast := hl.upper hmem
  have hrest := hremove (xs ++ ys) List.perm_middle
  have hroom := hfits.room
  simp only [useHole, hget, hb.size]
  refine Quiet.check hb.magic ?_
  cases halign : align with
  | false =>
    have hpos := hfits.plain halign
    simp only [Bool.false_eq_true, if_false, Traced.pure_bind]
    exact takeBlock_laid [] hl hhole hsize (by omega) rfl (by omega) (by simp) (.refl _ _ _) rfl (by simp) rfl (Nat.zero_le _) hrest
  | true =>
    obtain ⟨hmod, hgap⟩ := hfits.aligned halign
    simp only [if_true]
    have hothers : ∀ c ∈ xs ++ ys, Stored h.mem c ∧ (c.last ≤ b.addr ∨ b.last ≤ c.addr) := by
      intro c hc
      have hmem' : c ∈ xs ++ b :: ys := by
        rw [List.mem_append] at hc ⊢
        exact hc.imp_right (List.mem_cons_of_mem b)
      exact ⟨hl.stored c hmem', hl.tiles.apart hc⟩
    have hpos : pos ≤ b.addr + 9 + b.size := by omega
    have hcut := cutFront_quiet (A := A) (h := { h with index := (OrderedArray.remove h.index k).2 }) hlast hothers hrest
      hgap hpos
    refine hcut.bind ?_
    rintro ⟨header, blockSize, h'⟩ ⟨hheader, hend, m, index, front, rfl, hchanged, htiles, hstored, hlive, hlength, hindex'⟩
    simp only at hheader hend hchanged htiles
    have hlen := hend
    simp only [Block.last] at hlen
    have hfit : size ≤ blockSize := by omega
    have hpayload : header + 9 = pos := by omega
    exact takeBlock_laid front hl hhole hsize hfit hend hpayload (fun _ => hmod) hchanged htiles hstored hlive hlength hindex'

/-- The effect of an expansion by `n` bytes. -/
structure Extended (h : Kheap) (bs : List Block) (n : Nat) (h' : Kheap) (bs' : List Block) : Prop where
  laid : Laid h' bs'
  grown : h'.endAddress = h.endAddress + n
  live : live bs' = live bs
  kept : ∀ q, KeepsOthers h.mem h'.mem bs bs' q
  coalesced : Coalesced bs → Coalesced bs'

theorem expand_quiet (hA : A .expandMax) (h : Kheap) (n : Nat) :
    Quiet A (h.expand n) (fun r => r.1 = alignToPage n ∧ r.2.mem = h.mem ∧ r.2.index = h.index ∧
      r.2.startAddress = h.startAddress ∧ r.2.maxAddress = h.maxAddress ∧ r.2.endAddress = h.endAddress + alignToPage n ∧
      (h.endAddress ≤ h.maxAddress → r.2.endAddress ≤ h.maxAddress)) := by
  rw [expand]
  split_ifs with hzero
  · exact Quiet.pure ⟨hzero.symm, rfl, rfl, rfl, rfl, by simp [hzero], fun hle => hle⟩
  · refine (addrAdd_quiet h.endAddress (alignToPage n)).bind ?_
    rintro _ ⟨rfl, -⟩
    refine Quiet.check_allowed hA fun hle => Quiet.pure ⟨rfl, rfl, rfl, rfl, rfl, rfl, fun _ => hle⟩

theorem alignToPage_eq_zero_or {n : Nat} (hn : n < 2 ^ 32) :
    alignToPage n = 0 ∨ 4096 ≤ alignToPage n ∧ alignToPage n < 2 ^ 32 := by
  by_cases hmod : n % 4096 = 0
  · have halign : alignToPage n = n := if_neg (by simpa [pageSize] using hmod)
    omega
  · have halign : alignToPage n = (n / 4096 * 4096 + 4096) % 2 ^ 32 := by
      rw [alignToPage, if_pos (by simpa [pageSize] using hmod), pageSize, add32]
    omega

/-- The last block of a heap ends where the heap ends. -/
theorem Laid.last_block (hl : Laid h bs) : ∃ xs b, bs = xs ++ [b] ∧ b.last = h.endAddress ∧
    Tiles Block.addr Block.last h.startAddress xs b.addr := by
  rcases List.eq_nil_or_concat bs with rfl | ⟨xs, b, rfl⟩
  · exact absurd rfl hl.nonempty
  · rw [List.concat_eq_append] at hl ⊢
    obtain ⟨mid, hxs, hb, -, hlast⟩ := tiles_append.mp hl.tiles
    exact ⟨xs, b, rfl, hlast, by rw [hb]; exact hxs⟩

/-- The last hole grows. -/
theorem Laid.growHole {xs : List Block} {n : Nat} (hl : Laid h (xs ++ [b])) (hb : b.hole = true)
    (hlast : b.last = h.endAddress) (hbound : h.endAddress + n ≤ h.maxAddress) {h' : Kheap} (hmem : h'.mem = h.mem)
    (hindex : h'.index = h.index) (hstart : h'.startAddress = h.startAddress) (hmax : h'.maxAddress = h.maxAddress)
    (hend : h'.endAddress = h.endAddress + n) :
    Quiet A (makeBlock h'.mem b.addr (b.size + n) true >>= fun m => do
        let h ← ({ h' with mem := m } : Kheap).removeIndex b.addr .allocRemoveLast
        h.insertIndex b.addr)
      (fun h'' => ∃ bs', Extended h (xs ++ [b]) n h'' bs') := by
  have hpos := (hl.stored b (by simp)).pos
  have htiles := hl.tiles
  obtain ⟨mid, hxs, rfl, -, -⟩ := tiles_append.mp htiles
  refine (makeBlock_quiet h'.mem (by omega) true).bind ?_
  rintro m ⟨hgrown, hchanged, -⟩
  rw [hmem] at hchanged
  have hkept : ∀ c ∈ xs, Stored m c := fun c hc =>
    (hl.stored c (List.mem_append_left _ hc)).apart hchanged (.inl (hxs.mem hc).2.2)
  have hne : ∀ c ∈ xs, c.addr ≠ b.addr := by
    intro c hc heq
    have hbounds := hxs.mem hc
    omega
  have hindexed : Indexed h'.index (b :: xs) := by
    rw [hindex]
    exact hl.indexed.perm (List.perm_append_singleton b xs)
  refine (removeIndex_quiet (h := { h' with mem := m }) hindexed hb hne _).bind ?_
  rintro _ ⟨index, rfl, hrest⟩
  have hinsert := insertIndex_quiet (A := A) (h := { h' with mem := m, index := index })
    (b := ⟨b.addr, b.size + n, true⟩) hrest hkept hgrown rfl
  refine hinsert.mono ?_
  rintro _ ⟨index', rfl, hindexed'⟩
  simp only [Block.last] at hlast
  refine ⟨xs ++ [⟨b.addr, b.size + n, true⟩], ⟨?_, ?_, ?_, ?_, ?_, ?_, by simp⟩, hend, ?_, ?_, ?_⟩
  · refine tiles_append.mpr ⟨_, by rw [hstart]; exact hxs, rfl, ?_, ?_⟩
    · simp only [Block.last]
      omega
    · simp only [Block.last, Tiles]
      omega
  · intro c hc
    rcases List.mem_append.mp hc with hc | hc
    · exact hkept c hc
    · rw [List.mem_singleton.mp hc]
      exact hgrown
  · exact hindexed'.perm (List.perm_append_singleton _ _).symm
  · exact hstart.trans hl.start
  · exact hmax.trans hl.max
  · simp only
    omega
  · rw [live_append, live_append, live_cons_hole [] hb, live_cons_hole [] rfl]
  · intro q c hc hhole _
    rcases List.mem_append.mp hc with hc | hc
    · exact ⟨List.mem_append_left _ hc, hchanged.sameOn (.inl (hxs.mem hc).2.2)⟩
    · rw [List.mem_singleton.mp hc, hb] at hhole
      simp at hhole
  · intro hco
    simpa using hco.replace hb (List.isChain_singleton ⟨b.addr, b.size + n, true⟩)

/-- A new hole is appended. -/
theorem Laid.appendHole {xs : List Block} {n : Nat} (hl : Laid h (xs ++ [b])) (hb : b.hole = false)
    (hn : n = 0 ∨ 4096 ≤ n) (hbound : h.endAddress + n ≤ h.maxAddress)
    {h' : Kheap} (hmem : h'.mem = h.mem) (hindex : h'.index = h.index) (hstart : h'.startAddress = h.startAddress)
    (hmax : h'.maxAddress = h.maxAddress) (hend : h'.endAddress = h.endAddress + n) :
    Quiet A (makeBlock h'.mem h.endAddress (sub32 n blockMetaSize) true >>= fun m =>
        ({ h' with mem := m } : Kheap).insertIndex h.endAddress)
      (fun h'' => ∃ bs', Extended h (xs ++ [b]) n h'' bs') := by
  have hmaxle := hl.max
  simp only [kheapMaxAddr] at hmaxle
  have hsize : 0 < sub32 n blockMetaSize ∧ (n ≠ 0 → sub32 n blockMetaSize = n - 17) ∧
      (n = 0 → sub32 n blockMetaSize = 2 ^ 32 - 17) := by
    simp only [sub32, blockMetaSize]
    omega
  refine (makeBlock_quiet h'.mem hsize.1 true).bind ?_
  rintro m ⟨hnew, hchanged, hlt⟩
  have hpos : n ≠ 0 := by
    intro hzero
    rw [hsize.2.2 hzero] at hlt
    omega
  rw [hsize.2.1 hpos] at hnew hchanged
  rw [hmem] at hchanged
  have hkept : ∀ c ∈ xs ++ [b], Stored m c := fun c hc =>
    (hl.stored c hc).apart hchanged (.inl (hl.tiles.mem hc).2.2)
  have hinsert := insertIndex_quiet (A := A) (h := { h' with mem := m })
    (b := ⟨h.endAddress, n - 17, true⟩) (by rw [hindex]; exact hl.indexed) hkept hnew rfl
  refine hinsert.mono ?_
  rintro _ ⟨index, rfl, hindexed⟩
  refine ⟨xs ++ [b] ++ [⟨h.endAddress, n - 17, true⟩], ⟨?_, ?_, ?_, ?_, ?_, ?_, by simp⟩, hend, ?_, ?_, ?_⟩
  · refine tiles_append.mpr ⟨_, by rw [hstart]; exact hl.tiles, rfl, ?_, ?_⟩
    · simp only [Block.last]
      omega
    · simp only [Block.last, Tiles]
      omega
  · intro c hc
    rcases List.mem_append.mp hc with hc | hc
    · exact hkept c hc
    · rw [List.mem_singleton.mp hc]
      exact hnew
  · exact hindexed.perm (List.perm_append_singleton _ _).symm
  · exact hstart.trans hl.start
  · exact hmax.trans hl.max
  · simp only
    omega
  · rw [live_append, live_cons_hole [] rfl]
    simp [Kheap.live]
  · intro q c hc _ _
    exact ⟨List.mem_append_left _ hc, hchanged.sameOn (.inl (hl.tiles.mem hc).2.2)⟩
  · intro hco
    refine List.isChain_append.mpr ⟨hco, List.isChain_singleton _, ?_⟩
    intro c hc z _ hhole
    rw [List.getLast?_concat] at hc
    rw [← Option.some.inj hc, hb] at hhole
    cases hhole

theorem extend_quiet (hA : A .expandMax) (hl : Laid h bs) (size : Nat) :
    Quiet A (h.extend size) (fun h' => ∃ bs', Extended h bs (alignToPage (add32 size 17)) h' bs') := by
  have hmaxle := hl.max
  have hbound := hl.bound
  simp only [kheapMaxAddr] at hmaxle
  refine (expand_quiet hA h (add32 size blockMetaSize)).bind ?_
  rintro ⟨n, h'⟩ ⟨rfl, hmem, hindex, hstart, hmax, hend, hle⟩
  simp only [blockMetaSize] at hmem hindex hstart hmax hend hle ⊢
  have hn := alignToPage_eq_zero_or (n := add32 size 17) (Nat.mod_lt _ (by decide))
  have hle := hle hbound
  obtain ⟨xs, b, rfl, hlast, -⟩ := hl.last_block
  have hb := hl.stored b (by simp)
  have hfooter : sub32 h.endAddress footerSize = b.addr + 9 + b.size := by
    rw [footerSize, ← hlast, sub32_of_le] <;> simp only [Block.last] at hlast ⊢ <;> omega
  simp only [hmem, hfooter, hb.footHeader, hb.hole, hb.size]
  cases hhole : b.hole with
  | true =>
    have hsum : add32 b.size (alignToPage (add32 size 17)) = b.size + alignToPage (add32 size 17) := by
      simp only [Block.last] at hlast
      exact add32_of_lt (by omega)
    simp only [hsum]
    rw [if_pos (by simp), ← hmem]
    exact hl.growHole hhole hlast (by omega) hmem hindex hstart hmax hend
  | false =>
    rw [if_neg (by simp), ← hmem]
    exact hl.appendHole hhole (by omega) (by omega) hmem hindex hstart hmax hend

theorem findHole_quiet (hl : Laid h bs) {holes : List Block} (hindex : h.index = holes.map Block.addr)
    (hperm : holes.Perm (bs.filter Block.hole)) :
    Quiet A (h.findHole size align)
      (fun r => ∀ k pos, r = some (k, pos) → ∃ b, holes[k]? = some b ∧ Fits b size align pos) := by
  have hholes : ∀ b ∈ holes, Stored h.mem b ∧ b.last ≤ 0xE0000000 := by
    intro b hb
    have hmem := (List.mem_filter.mp (hperm.mem_iff.mp hb)).1
    exact ⟨hl.stored b hmem, hl.upper hmem⟩
  rw [findHole, hindex]
  refine (findHoleFrom_quiet holes 0 hholes).mono fun r hr k pos hpos => ?_
  obtain ⟨j, b, rfl, hb, hfits⟩ := hr k pos hpos
  exact ⟨b, by rw [Nat.zero_add]; exact hb, hfits⟩

theorem Allocated.of_extended {h' h'' : Kheap} {bs' bs'' : List Block} {n p : Nat} (he : Extended h bs n h' bs')
    (ha : Allocated h' bs' size align p h'' bs'') : Allocated h bs size align p h'' bs'' where
  laid := ha.laid
  block := ha.block
  aligned := ha.aligned
  live := by
    rw [← he.live]
    exact ha.live
  kept q := (he.kept q).trans (ha.kept q)
  coalesced hco := ha.coalesced (he.coalesced hco)

/-- `alloc` returns an allocated block, or the heap cannot be expanded any further. Only a
request whose expansion is rounded to zero goes on forever. -/
theorem alloc_quiet (hA : A .expandMax) (rounds : Nat) (hl : Laid h bs) (hsize : 0 < size)
    (hrounds : alignToPage (add32 size 17) = 0 ∧ A .unfinished ∨
      alignToPage (add32 size 17) ≠ 0 ∧ h.maxAddress < h.endAddress + 4096 * rounds) :
    Quiet A (alloc rounds h size align) (fun r => ∃ bs', Allocated h bs size align r.1 r.2 bs') := by
  induction rounds generalizing h bs with
  | zero =>
    rcases hrounds with ⟨-, hallowed⟩ | ⟨-, hlt⟩
    · exact Quiet.stop hallowed
    · have hbound := hl.bound
      omega
  | succ rounds ih =>
    obtain ⟨holes, hindex, hperm, hsorted⟩ := hl.indexed.exists_holes
    refine Quiet.check hsize ((findHole_quiet hl hindex hperm).bind fun r hr => ?_)
    cases r with
    | none =>
      refine (extend_quiet hA hl size).bind ?_
      rintro h' ⟨bs', he⟩
      have hn := alignToPage_eq_zero_or (n := add32 size 17) (Nat.mod_lt _ (by decide))
      have hgrown := he.grown
      have hmax : h'.maxAddress = h.maxAddress := he.laid.max.trans hl.max.symm
      refine (ih he.laid (hrounds.imp_right fun hlt => ⟨hlt.1, by omega⟩)).mono ?_
      rintro r ⟨bs'', ha⟩
      exact ⟨bs'', .of_extended he ha⟩
    | some found =>
      obtain ⟨b, hb, hfits⟩ := hr found.1 found.2 rfl
      refine (useHole_quiet hl hsize hindex hperm hsorted hb hfits).mono ?_
      rintro r ⟨hpos, bs', ha⟩
      exact ⟨bs', by rw [hpos]; exact ha⟩

/-- The reasons for which `kmalloc_impl` may stop. -/
def AllocStops (size : Nat) (e : Stop) : Prop :=
  e = .expandMax ∨ e = .unfinished ∧ alignToPage (add32 size 17) = 0

theorem kmallocImpl_quiet (hl : Laid h bs) (size : Nat) (align : Bool) :
    Quiet (AllocStops size) (h.kmallocImpl size align)
      (fun r => size = 0 ∧ r = (0, h) ∨ 0 < size ∧ r.1 ≠ 0 ∧ ∃ bs', Allocated h bs size align r.1 r.2 bs') := by
  rw [kmallocImpl]
  split_ifs with hzero
  · exact Quiet.pure (.inl ⟨hzero, rfl⟩)
  · have hmax := hl.max
    simp only [kheapMaxAddr] at hmax
    have hrounds : alignToPage (add32 size 17) = 0 ∧ AllocStops size .unfinished ∨
        alignToPage (add32 size 17) ≠ 0 ∧ h.maxAddress < h.endAddress + 4096 * 0x100000 := by
      by_cases hround : alignToPage (add32 size 17) = 0
      · exact .inl ⟨hround, .inr ⟨rfl, hround⟩⟩
      · exact .inr ⟨hround, by omega⟩
    refine (alloc_quiet (.inl rfl) 0x100000 hl (by omega) hrounds).bind ?_
    rintro ⟨p, h'⟩ ⟨bs', ha⟩
    obtain ⟨b, -, hp, -⟩ := ha.block
    have hne : p ≠ 0 := by
      simp only at hp
      omega
    exact Quiet.check hne (Quiet.pure (.inr ⟨by omega, hne, bs', ha⟩))

end LuckOS.Kheap
