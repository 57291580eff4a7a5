import LuckOS.KheapBlocks

/-!
# Release on the kernel heap

`free` makes a hole of a block and merges it with the hole behind it and the hole in
front of it, if there are any. The word behind the heap and the word in front of it
are read like a header and a footer; they must not hold the magic number.
-/

namespace LuckOS.Kheap

open ByteMemory Outcome Traced Tiling

variable {m m' : Memory} {h h' : Kheap} {b c x y : Block} {bs xs ys : List Block} {ptr : Nat} {A : Stop → Prop}

/-- The words outside of the heap that `free` may read are not the magic number. -/
structure Fenced (h : Kheap) : Prop where
  front : read32 h.mem (h.startAddress - 8) ≠ kheapMagic
  back : read32 h.mem h.endAddress ≠ kheapMagic

instance (h : Kheap) : Decidable (Fenced h) :=
  decidable_of_iff (read32 h.mem (h.startAddress - 8) ≠ kheapMagic ∧ read32 h.mem h.endAddress ≠ kheapMagic)
    ⟨fun ⟨hfront, hback⟩ => ⟨hfront, hback⟩, fun hf => ⟨hf.front, hf.back⟩⟩

/-- The holes and the block at the payload address `p` end up inside of holes. -/
def CoversHoles (bs bs' : List Block) (p : Nat) : Prop :=
  ∀ c ∈ bs, c.hole = true ∨ c.addr + 9 = p → ∃ d ∈ bs', d.hole = true ∧ d.addr ≤ c.addr ∧ c.last ≤ d.last

/-- The heap while the block at `ptr` is being freed: it is a hole `b` already, but not in
the index. -/
structure Freeing (h : Kheap) (bs : List Block) (ptr : Nat) (h' : Kheap) (xs : List Block) (b : Block)
    (ys : List Block) : Prop where
  tiles : Tiles Block.addr Block.last h'.startAddress (xs ++ b :: ys) h'.endAddress
  stored : ∀ c ∈ xs ++ b :: ys, Stored h'.mem c
  hole : b.hole = true
  indexed : Indexed h'.index (xs ++ ys)
  start : h'.startAddress = kheapStartAddr + 4 * kheapIndexNum
  max : h'.maxAddress = kheapMaxAddr
  bound : h'.endAddress ≤ h'.maxAddress
  fenced : Fenced h'
  live : (ptr :: live (xs ++ b :: ys)).Perm (live bs)
  kept : KeepsOthers h.mem h'.mem bs (xs ++ b :: ys) ptr
  covers : CoversHoles bs (xs ++ b :: ys) ptr

theorem mem_middle {c : Block} (hc : c ∈ xs ++ ys) (b : Block) : c ∈ xs ++ b :: ys := by
  rw [List.mem_append] at hc ⊢
  exact hc.imp_right (List.mem_cons_of_mem b)

/-- The word in front of the heap and the word behind it lie outside of a change. -/
theorem Fenced.changedIn {lo hi : Nat} {index : List Nat} (hf : Fenced h) (hc : ChangedIn h.mem m lo hi)
    (hlo : h.startAddress ≤ lo) (hhi : hi ≤ h.endAddress) (hstart : 8 ≤ h.startAddress) :
    Fenced { h with mem := m, index := index } where
  front := by
    rw [read32_congr (hc.sameOn (.inl (by simp only; omega)))]
    exact hf.front
  back := by
    rw [read32_congr (hc.sameOn (.inr hhi))]
    exact hf.back

/-- Two adjacent holes, one of which is in the index, become one that is not. -/
theorem merge_quiet {zs ws : List Block} (site : Stop)
    (htiles : Tiles Block.addr Block.last h.startAddress (zs ++ x :: y :: ws) h.endAddress)
    (hstored : ∀ c ∈ zs ++ x :: y :: ws, Stored h.mem c) (hbound : h.endAddress ≤ 0xE0000000)
    (hc : c = x ∨ c = y) (hhole : c.hole = true) (hindex : Indexed h.index (c :: (zs ++ ws))) :
    Quiet A (makeBlock h.mem x.addr (add32 (add32 x.size y.size) blockMetaSize) true >>= fun m =>
        ({ h with mem := m } : Kheap).removeIndex c.addr site)
      (fun h' => ∃ m index, h' = { h with mem := m, index := index } ∧ ChangedIn h.mem m x.addr y.last ∧
        Tiles Block.addr Block.last h.startAddress (zs ++ ⟨x.addr, x.size + y.size + 17, true⟩ :: ws) h.endAddress ∧
        (∀ d ∈ zs ++ ⟨x.addr, x.size + y.size + 17, true⟩ :: ws, Stored m d) ∧ Indexed index (zs ++ ws)) := by
  obtain ⟨p, hzs, rfl, hx, hy, hylt, hws⟩ := tiles_append.mp htiles
  have hx' : x.last = y.addr := hy.symm
  have hle := hws.le
  simp only [Block.last] at hx hylt hx' hle
  have hsum : add32 (add32 x.size y.size) blockMetaSize = x.size + y.size + 17 := by
    have hsizes : add32 x.size y.size = x.size + y.size := add32_of_lt (by omega)
    rw [hsizes, blockMetaSize, add32_of_lt (by omega)]
  rw [hsum]
  have hpos := (hstored x (by simp)).pos
  refine (makeBlock_quiet h.mem (by omega) true).bind ?_
  rintro m ⟨hnew, hchanged, -⟩
  have hends : x.addr + (x.size + y.size + 17) + 17 = y.last := by
    simp only [Block.last]
    omega
  rw [hends] at hchanged
  have hothers : ∀ d ∈ zs ++ ws, Stored m d ∧ d.addr ≠ c.addr := by
    intro d hd
    have hmem : d ∈ zs ++ x :: y :: ws := mem_middle (mem_middle hd y) x
    have hdlt := (htiles.mem hmem).2.1
    rcases List.mem_append.mp hd with hd | hd
    · have hdz := (hzs.mem hd).2.2
      refine ⟨(hstored d hmem).apart hchanged (.inl hdz), ?_⟩
      rcases hc with rfl | rfl <;> omega
    · have hdw := (hws.mem hd).1
      refine ⟨(hstored d hmem).apart hchanged (.inr hdw), ?_⟩
      simp only [Block.last] at hdw
      rcases hc with rfl | rfl <;> omega
  refine (removeIndex_quiet (h := { h with mem := m }) hindex hhole (fun d hd => (hothers d hd).2) site).mono ?_
  rintro _ ⟨index, rfl, hindex'⟩
  refine ⟨m, index, rfl, hchanged, ?_, ?_, hindex'⟩
  · refine tiles_append.mpr ⟨_, hzs, rfl, ?_, ?_⟩
    · simp only [Block.last]
      omega
    · have hlast : Block.last ⟨x.addr, x.size + y.size + 17, true⟩ = y.last := hends
      rw [hlast]
      exact hws
  · intro d hd
    rcases List.mem_append.mp hd with hd | hd
    · exact (hothers d (List.mem_append_left _ hd)).1
    · rcases List.mem_cons.mp hd with rfl | hd
      · exact hnew
      · exact (hothers d (List.mem_append_right _ hd)).1

theorem Freeing.upper (hf : Freeing h bs ptr h' xs b ys) : h'.endAddress ≤ 0xE0000000 := by
  have hbound := hf.bound
  rw [hf.max] at hbound
  exact hbound

theorem Freeing.eight_le (hf : Freeing h bs ptr h' xs b ys) : 8 ≤ h'.startAddress := by
  rw [hf.start]
  decide

/-- A merge keeps what is known of a heap that is being freed. -/
theorem Freeing.merged {zs ws : List Block} {index : List Nat} (hf : Freeing h bs ptr h' xs b ys)
    (hlist : xs ++ b :: ys = zs ++ x :: y :: ws) (hx : x.hole = true) (hy : y.hole = true)
    (hchanged : ChangedIn h'.mem m x.addr y.last)
    (htiles : Tiles Block.addr Block.last h'.startAddress (zs ++ ⟨x.addr, x.size + y.size + 17, true⟩ :: ws) h'.endAddress)
    (hstored : ∀ d ∈ zs ++ ⟨x.addr, x.size + y.size + 17, true⟩ :: ws, Stored m d) (hindex : Indexed index (zs ++ ws)) :
    Freeing h bs ptr { h' with mem := m, index := index } zs ⟨x.addr, x.size + y.size + 17, true⟩ ws := by
  have hmemx := hf.tiles.mem (b := _) (x := x) (by rw [hlist]; simp)
  have hmemy := hf.tiles.mem (b := _) (x := y) (by rw [hlist]; simp)
  have htiles' := hf.tiles
  rw [hlist] at htiles'
  obtain ⟨p, hzs, hp, -, hyaddr, -, hws⟩ := tiles_append.mp htiles'
  refine ⟨htiles, hstored, rfl, hindex, hf.start, hf.max, hf.bound,
    hf.fenced.changedIn hchanged hmemx.1 hmemy.2.2 hf.eight_le, ?_, ?_, ?_⟩
  · refine .trans (.of_eq ?_) hf.live
    rw [hlist, live_append, live_append, live_cons_hole ws rfl, live_cons_hole (y :: ws) hx, live_cons_hole ws hy]
  · intro d hd hhole hne
    obtain ⟨hmem, hsame⟩ := hf.kept d hd hhole hne
    rw [hlist, List.mem_append, List.mem_cons, List.mem_cons] at hmem
    rcases hmem with hmem | rfl | rfl | hmem
    · have hbefore := (hzs.mem hmem).2.2
      exact ⟨List.mem_append_left _ hmem, hsame.trans (hchanged.sameOn (.inl (by omega)))⟩
    · simp [hx] at hhole
    · simp [hy] at hhole
    · have hbehind := (hws.mem hmem).1
      exact ⟨List.mem_append_right _ (List.mem_cons_of_mem _ hmem), hsame.trans (hchanged.sameOn (.inr hbehind))⟩
  · intro c hc hfree
    obtain ⟨d, hd, hhole, hlo, hhi⟩ := hf.covers c hc hfree
    rw [hlist, List.mem_append, List.mem_cons, List.mem_cons] at hd
    have hnew : (⟨x.addr, x.size + y.size + 17, true⟩ : Block) ∈ zs ++ ⟨x.addr, x.size + y.size + 17, true⟩ :: ws := by simp
    simp only [Block.last] at hhi hyaddr
    rcases hd with hd | rfl | rfl | hd
    · exact ⟨d, List.mem_append_left _ hd, hhole, hlo, hhi⟩
    · exact ⟨_, hnew, rfl, hlo, by simp only [Block.last]; omega⟩
    · exact ⟨_, hnew, rfl, by simp only; omega, by simp only [Block.last]; omega⟩
    · exact ⟨d, List.mem_append_right _ (List.mem_cons_of_mem _ hd), hhole, hlo, hhi⟩

theorem mergeRight_quiet (hf : Freeing h bs ptr h' xs b ys) :
    Quiet A (h'.mergeRight b.addr b.last)
      (fun h'' => ∃ b' ys', b'.addr = b.addr ∧ Freeing h bs ptr h'' xs b' ys' ∧
        (Coalesced ys → Coalesced (b' :: ys'))) := by
  have hb := hf.stored b (by simp)
  obtain ⟨p, hxs, -, -, hys⟩ := tiles_append.mp hf.tiles
  cases ys with
  | nil =>
    have hend : b.last = h'.endAddress := hys
    rw [mergeRight, if_neg (fun hcond => hf.fenced.back (by rw [← hend]; exact hcond.1))]
    exact Quiet.pure ⟨b, [], rfl, hf, fun _ => List.isChain_singleton b⟩
  | cons y ys =>
    have hy := hf.stored y (by simp)
    have haddr : y.addr = b.last := hys.1
    rw [← haddr]
    cases hhole : y.hole with
    | false =>
      rw [mergeRight, if_neg (fun hcond => hcond.2 (by rw [hy.hole, hhole]; rfl))]
      exact Quiet.pure ⟨b, y :: ys, rfl, hf, fun hco => List.isChain_cons_cons.mpr ⟨fun _ => hhole, hco⟩⟩
    | true =>
      rw [mergeRight, if_pos ⟨hy.magic, by rw [hy.hole, hhole]; decide⟩, hb.size, hy.size]
      have hindex : Indexed h'.index (y :: (xs ++ ys)) := hf.indexed.perm List.perm_middle
      refine (merge_quiet .freeRemoveRight hf.tiles hf.stored hf.upper (.inr rfl) hhole hindex).mono ?_
      rintro _ ⟨m, index, rfl, hchanged, htiles, hstored, hindex'⟩
      exact ⟨⟨b.addr, b.size + y.size + 17, true⟩, ys, rfl, hf.merged rfl hf.hole hhole hchanged htiles hstored hindex',
        fun hco => hco.replaceHead hhole _⟩

theorem mergeLeft_quiet (hf : Freeing h bs ptr h' xs b ys) :
    Quiet A (h'.mergeLeft b.addr) (fun r => ∃ xs' b', r.1 = b'.addr ∧ Freeing h bs ptr r.2 xs' b' ys ∧
      (Coalesced xs → Coalesced (b :: ys) → Coalesced (xs' ++ b' :: ys))) := by
  have hb := hf.stored b (by simp)
  have hmem := hf.tiles.mem (b := _) (x := b) (by simp)
  have height := hf.eight_le
  have hupper := hf.upper
  obtain ⟨p, hxs, rfl, -, -⟩ := tiles_append.mp hf.tiles
  have hfooter : sub32 b.addr footerSize = b.addr - 8 := by
    rw [footerSize, sub32_of_le (by omega) (by omega)]
  rcases List.eq_nil_or_concat xs with rfl | ⟨zs, x, rfl⟩
  · have hstart : h'.startAddress = b.addr := hxs
    simp only [mergeLeft, hfooter]
    rw [if_neg (fun hcond => hf.fenced.front (by rw [hstart]; exact hcond.1))]
    exact Quiet.pure ⟨[], b, rfl, hf, fun _ hco => hco⟩
  · rw [List.concat_eq_append] at hxs hf ⊢
    have hx := hf.stored x (by simp)
    obtain ⟨q, hzs, -, -, hlast⟩ := tiles_append.mp hxs
    have hlast : x.last = b.addr := hlast
    have hfoot : b.addr - 8 = x.addr + 9 + x.size := by
      simp only [Block.last] at hlast
      omega
    have hlist : zs ++ [x] ++ b :: ys = zs ++ x :: b :: ys := by simp
    simp only [mergeLeft, hfooter, hfoot, hx.footHeader]
    cases hhole : x.hole with
    | false =>
      rw [if_neg (fun hcond => by rw [hx.hole, hhole] at hcond; exact absurd hcond.2 (by decide))]
      refine Quiet.pure ⟨zs ++ [x], b, rfl, hf, fun hleft hright => List.isChain_append.mpr ⟨hleft, hright, ?_⟩⟩
      intro c hc d _ hcd
      rw [List.getLast?_concat] at hc
      rw [← Option.some.inj hc, hhole] at hcd
      cases hcd
    | true =>
      rw [if_pos ⟨hx.footMagic, by rw [hx.hole, hhole]; rfl⟩, hx.size, hb.size]
      have htiles := hf.tiles
      have hstored := hf.stored
      rw [hlist] at htiles hstored
      have hindex : Indexed h'.index (x :: (zs ++ ys)) := hf.indexed.perm (by
        rw [List.append_assoc]
        exact List.perm_middle)
      rw [← Traced.bind_assoc]
      refine (merge_quiet .freeRemoveLeft htiles hstored hupper (.inl rfl) hhole hindex).bind ?_
      rintro _ ⟨m, index, rfl, hchanged, htiles', hstored', hindex'⟩
      refine Quiet.pure ⟨zs, ⟨x.addr, x.size + b.size + 17, true⟩, rfl,
        hf.merged hlist hhole hf.hole hchanged htiles' hstored' hindex', fun hleft hright => ?_⟩
      have hnew : Coalesced [⟨x.addr, x.size + b.size + 17, true⟩] := List.isChain_singleton _
      have hzs : Coalesced (zs ++ [⟨x.addr, x.size + b.size + 17, true⟩]) := by
        simpa using hleft.replace hhole hnew
      exact List.isChain_split.mpr ⟨hzs, hright.replaceHead hf.hole _⟩

/-- The block is a hole once its flag is set. -/
theorem Laid.freeing (hl : Laid h (xs ++ b :: ys)) (hf : Fenced h) (hb : b.hole = false) :
    Freeing h (xs ++ b :: ys) (b.addr + 9) { h with mem := write8 h.mem (b.addr + 4) 1 } xs { b with hole := true } ys := by
  have hmemb : b ∈ xs ++ b :: ys := by simp
  have hbounds := hl.tiles.mem hmemb
  have hlower := hl.lower hmemb
  have hchanged : ChangedIn h.mem (write8 h.mem (b.addr + 4) 1) (b.addr + 4) (b.addr + 5) :=
    fun x hx => write8_of_ne (by omega)
  have hstored := hl.stored b hmemb
  have hpos := hstored.pos
  have hlast : b.addr + 5 ≤ b.last := by
    simp only [Block.last]
    omega
  have hothers : ∀ c ∈ xs ++ ys, c.last ≤ b.addr + 4 ∨ b.addr + 5 ≤ c.addr := by
    intro c hc
    have hapart := hl.tiles.apart hc
    omega
  refine ⟨?_, ?_, rfl, ?_, hl.start, hl.max, hl.bound, ?_, ?_, ?_, ?_⟩
  · obtain ⟨p, hxs, hp, hlt, hys⟩ := tiles_append.mp hl.tiles
    exact tiles_append.mpr ⟨p, hxs, hp, hlt, hys⟩
  · intro c hc
    rcases List.mem_append.mp hc with hc | hc
    · exact (hl.stored c (List.mem_append_left _ hc)).apart hchanged (hothers c (List.mem_append_left _ hc))
    · rcases List.mem_cons.mp hc with rfl | hc
      · have hread : ∀ a, a + 4 ≤ b.addr + 4 ∨ b.addr + 5 ≤ a → read32 (write8 h.mem (b.addr + 4) 1) a = read32 h.mem a :=
          fun a ha => read32_congr (hchanged.sameOn ha)
        refine ⟨hpos, ?_, if_pos rfl, ?_, ?_, ?_⟩
        · exact (hread _ (by simp only; omega)).trans hstored.magic
        · exact (hread _ (by simp only; omega)).trans hstored.size
        · exact (hread _ (by simp only; omega)).trans hstored.footMagic
        · exact (hread _ (by simp only; omega)).trans hstored.footHeader
      · have hmem : c ∈ xs ++ b :: ys := List.mem_append_right _ (List.mem_cons_of_mem _ hc)
        exact (hl.stored c hmem).apart hchanged (hothers c (List.mem_append_right _ hc))
  · exact (hl.indexed.perm List.perm_middle).of_cons_allocated hb
  · have hstart : 8 ≤ h.startAddress := by
      rw [hl.start]
      decide
    exact hf.changedIn hchanged (by omega) (by omega) hstart
  · rw [live_append, live_append, live_cons_hole ys rfl, live_cons_allocated ys hb]
    exact List.perm_middle.symm
  · intro c hc hhole hne
    rcases List.mem_append.mp hc with hmem | hmem
    · exact ⟨List.mem_append_left _ hmem, hchanged.sameOn (hothers c (List.mem_append_left _ hmem))⟩
    · rcases List.mem_cons.mp hmem with rfl | hmem
      · exact absurd rfl hne
      · exact ⟨List.mem_append_right _ (List.mem_cons_of_mem _ hmem),
          hchanged.sameOn (hothers c (List.mem_append_right _ hmem))⟩
  · intro c hc hfree
    by_cases heq : c = b
    · rw [heq]
      exact ⟨{ b with hole := true }, by simp, rfl, Nat.le_refl _, Nat.le_refl _⟩
    · have hne : c.addr ≠ b.addr := fun haddr => heq (hl.tiles.eq_of_first hc hmemb haddr)
      have hhole := hfree.resolve_right (by omega)
      have hmem : c ∈ xs ++ ys := by
        rw [List.mem_append, List.mem_cons] at hc
        rw [List.mem_append]
        exact hc.imp_right fun hc => hc.resolve_left heq
      exact ⟨c, mem_middle hmem _, hhole, Nat.le_refl _, Nat.le_refl _⟩

/-- The heap after `free`. -/
structure Freed (h : Kheap) (bs : List Block) (ptr : Nat) (h' : Kheap) (bs' : List Block) : Prop where
  laid : Laid h' bs'
  live : (ptr :: live bs').Perm (live bs)
  kept : KeepsOthers h.mem h'.mem bs bs' ptr
  covers : CoversHoles bs bs' ptr
  coalesced : Coalesced bs → Coalesced bs'

theorem Freeing.insertIndex_quiet (hf : Freeing h bs ptr h' xs b ys) (hco : Coalesced bs → Coalesced (xs ++ b :: ys)) :
    Quiet A (h'.insertIndex b.addr) (fun h'' => ∃ bs', Freed h bs ptr h'' bs') := by
  have hstored : ∀ c ∈ xs ++ ys, Stored h'.mem c := fun c hc => hf.stored c (mem_middle hc b)
  refine (Kheap.insertIndex_quiet hf.indexed hstored (hf.stored b (by simp)) hf.hole).mono ?_
  rintro _ ⟨index, rfl, hindex⟩
  exact ⟨xs ++ b :: ys, ⟨hf.tiles, hf.stored, hindex.perm List.perm_middle.symm, hf.start, hf.max, hf.bound, by simp⟩,
    hf.live, hf.kept, hf.covers, hco⟩

/-- `free` of an allocated block never stops. -/
theorem free_quiet (hl : Laid h bs) (hf : Fenced h) (hptr : ptr ∈ live bs) :
    Quiet A (h.free ptr) (fun h' => ∃ bs', Freed h bs ptr h' bs') := by
  obtain ⟨b, hb, rfl⟩ := List.mem_map.mp hptr
  obtain ⟨hmem, hhole⟩ := List.mem_filter.mp hb
  have hhole : b.hole = false := by simpa using hhole
  have hlower := hl.lower hmem
  have hupper := hl.upper hmem
  have hstored := hl.stored b hmem
  simp only [Block.last] at hupper
  have hheader : sub32 (b.addr + 9) headerSize = b.addr := by
    rw [headerSize, sub32_of_le (by omega) (by omega)]
    omega
  rw [free, if_neg (by omega)]
  simp only [hheader, hstored.size]
  refine (addrAdd_quiet (b.addr + 9) b.size).bind ?_
  rintro _ ⟨rfl, -⟩
  refine Quiet.check hstored.magic (Quiet.check hstored.footMagic ?_)
  refine (addrAdd_quiet (b.addr + 9 + b.size) footerSize).bind ?_
  rintro _ ⟨rfl, -⟩
  obtain ⟨xs, ys, rfl⟩ := List.append_of_mem hmem
  have hright : b.addr + 9 + b.size + footerSize = Block.last { b with hole := true } := by
    simp only [Block.last, footerSize]
    omega
  rw [hright]
  refine (mergeRight_quiet (hl.freeing hf hhole)).bind ?_
  rintro h₁ ⟨b₁, ys₁, haddr, hf₁, hco₁⟩
  have haddr : b₁.addr = b.addr := haddr
  have hleft := mergeLeft_quiet (A := A) hf₁
  rw [haddr] at hleft
  refine hleft.bind ?_
  rintro ⟨newHole, h₂⟩ ⟨xs₂, b₂, rfl, hf₂, hco₂⟩
  refine hf₂.insertIndex_quiet fun hco => ?_
  obtain ⟨hxs, hys, -⟩ := List.isChain_append.mp hco
  exact hco₂ hxs (hco₁ hys.tail)

end LuckOS.Kheap
