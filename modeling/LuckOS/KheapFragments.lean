import LuckOS.KheapCapacity

/-!
# More holes than the index can list

Blocks of one byte are allocated, and every other one of them is released. The holes are kept
apart by the blocks that stay, so that there are more of them than the index has entries.
-/

namespace LuckOS.Kheap

open ByteMemory Outcome Traced Tiling Runs

variable {h h' : Kheap} {m m' : Memory} {b c : Block} {bs bs' xs ys : List Block} {s t : CallState} {size ptr : Nat}

/-- The states of the runs from `init_kheap`. -/
def CallReached (s : CallState) : Prop :=
  ∃ mem heap actions, initKheap mem = ⟨[], .ok heap⟩ ∧ Run (Steps CallState.step) ⟨heap, [], [], none⟩ actions s

theorem CallReached.step {a : HeapAction} (hs : CallReached s) (hstep : s.step a = some t) : CallReached t := by
  obtain ⟨mem, heap, actions, hinit, hrun⟩ := hs
  exact ⟨mem, heap, actions ++ [a], hinit, hrun.snoc hstep⟩

theorem CallReached.sound (hall : ∀ s, CallReached s → s.Complete) (hs : CallReached s) : s.Sound := by
  obtain ⟨mem, heap, actions, hinit, hrun⟩ := hs
  have hstart : CallState.Sound ⟨heap, [], [], none⟩ := CallState.sound_of_init hinit
  refine (@Run.invariant _ _ _ _ _ _ (fun s => s.Sound ∧ CallReached s) (fun {s a t} hinv hstep => ?_) hrun
    ⟨hstart, mem, heap, [], hinit, .nil _⟩).1
  have ht := hinv.2.step hstep
  exact ⟨hinv.1.step (hinv.1.room_of_complete hstep (hall t ht)) hstep, ht⟩

/-! ## Blocks of one byte -/

/-- The block for one byte is small, and the heap has only been expanded if it had no holes. -/
def OneByteResult (h : Kheap) (bs : List Block) (r : Nat × Kheap) : Prop :=
  (∃ c, Stored r.2.mem c ∧ c.addr + 9 = r.1 ∧ c.size ≤ 18) ∧
    (r.2.endAddress = h.endAddress ∨ (∀ b ∈ bs, b.hole = false) ∧ r.2.endAddress = h.endAddress + 4096)

/-- A request of one byte takes a hole of any size. -/
theorem alloc_one (hl : Laid h bs) (hroom : h.endAddress + 2 * (1 + 4113) ≤ h.maxAddress)
    (hindex : AllocRoom h 1 false) (rounds : Nat) :
    Ends (fun _ => True) (alloc (rounds + 2) h 1 false) (OneByteResult h bs) := by
  have ht := hl.tiled
  have hmax := hl.max
  rw [kheapMaxAddr] at hmax
  have hn : alignToPage (add32 1 17) = 4096 := by decide
  refine alloc_round ht (by decide) (by decide) (by simp) ?_ fun hno => ?_
  · rintro c - - - pos - ⟨p, h'⟩ ⟨rfl, ⟨m, index, rfl⟩, d, hd, hpos, -, -, htight, -, -⟩
    exact ⟨⟨d, hd, hpos, htight⟩, .inl rfl⟩
  · have hnone : ∀ b ∈ bs, b.hole = false := by
      intro b hb
      by_contra hhole
      have hhole : b.hole = true := by simpa using hhole
      have hpos := (hl.stored b hb).pos
      exact hno b hb (hl.mem_index hb hhole) (b.addr + 9) ⟨fun _ => rfl, by simp, by omega⟩
    have hlt : h.index.length < kheapIndexNum := by
      rcases hindex.exists_hole hl (by decide) with ⟨c, hc, hhole, -⟩ | ⟨c, hc, hhole⟩ | hlt
      · rw [hnone c hc] at hhole
        cases hhole
      · rw [hnone c (List.mem_of_getLast? hc)] at hhole
        cases hhole
      · exact hlt
    obtain ⟨xs, b, rfl, -⟩ := ht.last_block
    refine (extend_allocated_ends ht (hnone b (by simp)) hn (by decide) (by omega) fun _ => trivial).bind ?_
    rintro h' ⟨hl', hend, hentry, -⟩
    refine alloc_round hl' (by decide) (by decide) (by simp) ?_ fun hno' => ?_
    · rintro c - - - pos - ⟨p, h''⟩ ⟨rfl, ⟨m, index, rfl⟩, d, hd, hpos, -, -, htight, -, -⟩
      exact ⟨⟨d, hd, hpos, htight⟩, .inr ⟨hnone, hend⟩⟩
    · exact absurd ⟨fun _ => rfl, by simp, by simp only; omega⟩
        (hno' ⟨h.endAddress, 4096 - 17, true⟩ (by simp) (hentry hlt).1 (h.endAddress + 9))

/-- Blocks of at most 35 bytes, headers and footers included. -/
theorem tiles_le {a e : Nat} (htiles : Tiles Block.addr Block.last a bs e) (hsize : ∀ b ∈ bs, b.size ≤ 18) :
    e ≤ a + 35 * bs.length := by
  induction bs generalizing a with
  | nil => exact Nat.le_of_eq (Eq.symm htiles)
  | cons b bs ih =>
    obtain ⟨rfl, -, hrest⟩ := htiles
    have hle := ih hrest fun c hc => hsize c (List.mem_cons_of_mem _ hc)
    have hb := hsize b (List.mem_cons_self ..)
    simp only [Block.last] at hle
    rw [List.length_cons]
    omega

/-- A run of `k` allocations of one byte. -/
structure OneByteBlocks (s : CallState) (bs : List Block) (k : Nat) : Prop where
  reached : CallReached s
  laid : Laid s.heap bs
  held : s.held.Perm (live bs)
  count : s.held.length = k
  small : ∀ b ∈ bs, b.hole = false → b.size ≤ 18
  bound : s.heap.endAddress ≤ 0xC0F00000 + 35 * k

theorem length_live (bs : List Block) : (live bs).length = (bs.filter fun b => !b.hole).length := List.length_map _

theorem OneByteBlocks.succ (hall : ∀ s, CallReached s → s.Complete) {k : Nat} (h : OneByteBlocks s bs k) (hk : k < 0x50000) :
    ∃ t bs', OneByteBlocks t bs' (k + 1) := by
  have hs := h.reached.sound hall
  have hmax := h.laid.max
  have hbound := h.bound
  rw [kheapMaxAddr] at hmax
  have hroom : s.heap.endAddress + 2 * (1 + 4113) ≤ s.heap.maxAddress := by omega
  have hstep : s.step (.alloc 1 false) = some (s.allocate 1 false) := if_pos ⟨hs.running, by decide, hroom⟩
  have hreached := h.reached.step hstep
  have hindex := hs.room_of_complete hstep (hall _ hreached)
  obtain ⟨p, h', hcall⟩ := kmallocImpl_returns h.laid hs.shaped (by decide) hroom hindex
  obtain ⟨bs', ha⟩ := kmallocImpl_spec h.laid (by decide) hcall
  rw [CallState.allocate_of_returns hcall] at hreached
  have hends : Ends (fun _ => True) (s.heap.kmallocImpl 1 false) (OneByteResult s.heap bs) :=
    (alloc_one h.laid hroom hindex 0xFFFFE).bind fun r hr => .check_allowed (fun _ => trivial) fun _ => .pure hr
  have hone := hends.ensures
  rw [hcall] at hone
  obtain ⟨⟨c, hc, hpayload, htight⟩, hend⟩ := hone
  refine ⟨_, bs', hreached, ha.laid, (h.held.cons p).trans ha.live.symm, by rw [List.length_cons, h.count], ?_, ?_⟩
  · intro d hd hhole
    have hlive : d.addr + 9 ∈ live bs' := List.mem_map.mpr ⟨d, List.mem_filter.mpr ⟨hd, by simp [hhole]⟩, rfl⟩
    rcases List.mem_cons.mp (ha.live.mem_iff.mp hlive) with hp | hold
    · have hsize := (ha.laid.stored d hd).size
      have hsame : d.addr = c.addr := by
        simp only at hpayload
        omega
      rw [hsame, hc.size] at hsize
      omega
    · obtain ⟨d', hd', haddr, hhole'⟩ := mem_live hold
      obtain ⟨hmem, -⟩ := ha.kept 0 d' hd' hhole' (by omega)
      rw [ha.laid.tiles.eq_of_first hd hmem (by omega)]
      exact h.small d' hd' hhole'
  · rcases hend with hsame | ⟨hnone, hgrown⟩
    · simp only at hsame ⊢
      omega
    · have hle := tiles_le h.laid.tiles fun b hb => h.small b hb (hnone b hb)
      have hlength : bs.length = k := by
        rw [← h.count, h.held.length_eq, length_live, List.filter_eq_self.mpr fun b hb => by simp [hnone b hb]]
      rw [h.laid.start, kheapStartAddr, kheapIndexNum, hlength] at hle
      simp only at hgrown ⊢
      omega

theorem exists_oneByteBlocks (hall : ∀ s, CallReached s → s.Complete) {k : Nat} (hk : k ≤ 0x50000) :
    ∃ s bs, OneByteBlocks s bs k := by
  induction k with
  | zero =>
    have hreturns : (initKheap (fun _ => 0) >>= fun h => check (h.endAddress = 0xC0F00000) .validateEnd).returns = true := by
      decide +kernel
    obtain ⟨_, hr⟩ := exists_of_returns hreturns
    obtain ⟨heap, hinit, hcheck⟩ := bind_eq_ok hr
    have hend := of_check_eq_ok hcheck
    have hquiet := (initKheap_quiet (A := fun _ => False) fun _ => 0).ensures (by rw [hinit])
    rw [hinit] at hquiet
    obtain ⟨bs, hl, hlive, -⟩ := hquiet
    refine ⟨⟨heap, [], [], none⟩, bs, ⟨_, heap, [], hinit, .nil _⟩, hl, by rw [hlive], rfl, fun b hb hhole => ?_, ?_⟩
    · have hmem : b.addr + 9 ∈ live bs := List.mem_map.mpr ⟨b, List.mem_filter.mpr ⟨hb, by simp [hhole]⟩, rfl⟩
      simp [hlive] at hmem
    · exact Nat.le_of_eq hend
  | succ k ih =>
    obtain ⟨s, bs, h⟩ := ih (by omega)
    exact h.succ hall (by omega)

/-! ## Every other block is released -/

/-- A block that is released and the block behind it that stays. -/
def pairs : List Block → List (Block × Block)
  | [] => []
  | [_] => []
  | b :: c :: bs => (b, c) :: pairs bs

theorem pairs_length (bs : List Block) : (pairs bs).length = bs.length / 2 := by
  induction bs using pairs.induct with
  | case1 => simp [pairs]
  | case2 => simp [pairs]
  | case3 b c bs ih =>
    rw [pairs, List.length_cons, ih, List.length_cons, List.length_cons]
    omega

theorem mem_of_pairs {p : Block × Block} (hp : p ∈ pairs bs) : p.1 ∈ bs ∧ p.2 ∈ bs := by
  induction bs using pairs.induct with
  | case1 => cases hp
  | case2 => cases hp
  | case3 b c bs ih =>
    rcases List.mem_cons.mp hp with rfl | hp
    · exact ⟨List.mem_cons_self .., List.mem_cons_of_mem _ (List.mem_cons_self ..)⟩
    · obtain ⟨hfirst, hsecond⟩ := ih hp
      exact ⟨List.mem_cons_of_mem _ (List.mem_cons_of_mem _ hfirst), List.mem_cons_of_mem _ (List.mem_cons_of_mem _ hsecond)⟩

/-- The blocks of the pairs lie one behind the other. -/
structure Ordered (ps : List (Block × Block)) : Prop where
  inner : ∀ p ∈ ps, p.1.last ≤ p.2.addr
  outer : ps.Pairwise fun p q => p.2.last ≤ q.1.addr

theorem pairs_ordered (h : bs.Pairwise fun b c => b.last ≤ c.addr) : Ordered (pairs bs) := by
  induction bs using pairs.induct with
  | case1 => exact ⟨nofun, .nil⟩
  | case2 => exact ⟨nofun, .nil⟩
  | case3 b c bs ih =>
    obtain ⟨hb, hrest⟩ := List.pairwise_cons.mp h
    obtain ⟨hc, hrest⟩ := List.pairwise_cons.mp hrest
    obtain ⟨hinner, houter⟩ := ih hrest
    exact ⟨List.forall_mem_cons.mpr ⟨hb c (List.mem_cons_self ..), hinner⟩,
      List.pairwise_cons.mpr ⟨fun q hq => hc _ (mem_of_pairs hq).1, houter⟩⟩

theorem addr_lt_last (b : Block) : b.addr < b.last := by
  simp only [Block.last]
  omega

/-- The first blocks of some pairs have been released, and those of the others are held. -/
structure Releasing (s : CallState) (bs : List Block) (done todo : List (Block × Block)) : Prop where
  reached : CallReached s
  laid : Laid s.heap bs
  held : s.held.Perm (live bs)
  staying : ∀ p ∈ done ++ todo, p.2 ∈ bs ∧ p.2.hole = false
  waiting : ∀ p ∈ todo, p.1 ∈ bs ∧ p.1.hole = false
  released : ∀ p ∈ done, ∃ d ∈ bs, d.hole = true ∧ d.addr ≤ p.1.addr ∧ p.1.last ≤ d.last

/-- The words outside of the heap are cleared. -/
theorem Releasing.fence {done todo : List (Block × Block)} (h : Releasing s bs done todo) :
    ∃ t, Releasing t bs done todo ∧ Fenced t.heap := by
  let mem : Memory := fun a => if s.heap.startAddress ≤ a ∧ a < s.heap.endAddress then s.heap.mem a else 0
  have hstep : s.step (.outside fun _ => 0) = some { s with heap := { s.heap with mem := mem } } := rfl
  have hstart := h.laid.start
  rw [kheapStartAddr, kheapIndexNum] at hstart
  have hzero : ∀ a, (a + 4 ≤ s.heap.startAddress ∨ s.heap.endAddress ≤ a) → read32 mem a ≠ kheapMagic := by
    intro a ha
    have hbyte : ∀ k < 4, mem (a + k) = 0 := fun k hk => if_neg (by omega)
    have h0 := hbyte 0 (by omega)
    rw [Nat.add_zero] at h0
    rw [read32, h0, hbyte 1 (by omega), hbyte 2 (by omega), hbyte 3 (by omega)]
    decide
  refine ⟨_, ⟨h.reached.step hstep, h.laid.withMem fun b hb => ?_, h.held, h.staying, h.waiting, h.released⟩, ?_, ?_⟩
  · have hbounds := h.laid.tiles.mem hb
    exact (h.laid.stored b hb).congr fun a hlo hhi => if_pos ⟨by omega, by omega⟩
  · exact hzero _ (.inl (by simp only; omega))
  · exact hzero _ (.inr (Nat.le_refl _))

theorem Releasing.succ (hall : ∀ s, CallReached s → s.Complete) {done todo : List (Block × Block)} {p : Block × Block}
    (h : Releasing s bs done (p :: todo)) (hordered : Ordered (done ++ p :: todo)) :
    ∃ t bs', Releasing t bs' (done ++ [p]) todo := by
  obtain ⟨t, ht, hfenced⟩ := h.fence
  have hs := ht.reached.sound hall
  obtain ⟨hmem, hhole⟩ := ht.waiting p (List.mem_cons_self ..)
  have hlive : p.1.addr + 9 ∈ live bs := List.mem_map.mpr ⟨p.1, List.mem_filter.mpr ⟨hmem, by simp [hhole]⟩, rfl⟩
  have hstep : t.step (.free (p.1.addr + 9)) = some (t.release (p.1.addr + 9)) :=
    if_pos ⟨hs.running, ht.held.mem_iff.mpr hlive, hfenced⟩
  have hreached := ht.reached.step hstep
  have hindex := hs.room_of_complete hstep (hall _ hreached)
  obtain ⟨h', hcall⟩ := free_returns ht.laid hs.shaped hfenced hlive hindex
  obtain ⟨bs', hf⟩ := free_spec ht.laid hfenced hlive hcall
  rw [CallState.release_of_returns hcall] at hreached
  obtain ⟨-, hlater, hbetween⟩ := List.pairwise_append.mp hordered.outer
  obtain ⟨hbehind, -⟩ := List.pairwise_cons.mp hlater
  have hinner := hordered.inner p (by simp)
  have hp := addr_lt_last p.1
  have hp' := addr_lt_last p.2
  have hother : ∀ q ∈ done ++ p :: todo, q.2.addr ≠ p.1.addr := by
    intro q hq
    have hq' := addr_lt_last q.1
    have hq'' := addr_lt_last q.2
    have hqinner := hordered.inner q hq
    rcases List.mem_append.mp hq with hq | hq
    · have hbefore := hbetween q hq p (List.mem_cons_self ..)
      omega
    · rcases List.mem_cons.mp hq with rfl | hq
      · omega
      · have hafter := hbehind q hq
        omega
  have hlist : done ++ [p] ++ todo = done ++ p :: todo := by simp
  refine ⟨_, bs', hreached, hf.laid, ?_, ?_, ?_, ?_⟩
  · have hperm : ((p.1.addr + 9) :: t.held.erase (p.1.addr + 9)).Perm ((p.1.addr + 9) :: live bs') :=
      ((List.perm_cons_erase (ht.held.mem_iff.mpr hlive)).symm.trans ht.held).trans hf.live.symm
    exact (List.perm_cons _).mp hperm
  · rw [hlist]
    intro q hq
    obtain ⟨hqmem, hqhole⟩ := ht.staying q hq
    have hne := hother q hq
    exact ⟨(hf.kept q.2 hqmem hqhole (by omega)).1, hqhole⟩
  · intro q hq
    obtain ⟨hqmem, hqhole⟩ := ht.waiting q (List.mem_cons_of_mem _ hq)
    have hafter := hbehind q hq
    exact ⟨(hf.kept q.1 hqmem hqhole (by omega)).1, hqhole⟩
  · intro q hq
    rcases List.mem_append.mp hq with hq | hq
    · obtain ⟨d, hd, hdhole, hlo, hhi⟩ := ht.released q hq
      obtain ⟨d', hd', hdhole', hlo', hhi'⟩ := hf.covers d hd (.inl hdhole)
      exact ⟨d', hd', hdhole', by omega, by omega⟩
    · obtain rfl := List.mem_singleton.mp hq
      exact hf.covers q.1 hmem (.inr rfl)

theorem Releasing.all (hall : ∀ s, CallReached s → s.Complete) {todo : List (Block × Block)} :
    ∀ {done : List (Block × Block)} {s bs}, Releasing s bs done todo → Ordered (done ++ todo) →
      ∃ t bs', Releasing t bs' (done ++ todo) [] := by
  induction todo with
  | nil =>
    intro done s bs h _
    rw [List.append_nil]
    exact ⟨s, bs, h⟩
  | cons p todo ih =>
    intro done s bs h hordered
    obtain ⟨t, bs', ht⟩ := h.succ hall hordered
    have hlist : done ++ [p] ++ todo = done ++ p :: todo := by simp
    rw [← hlist] at hordered ⊢
    exact ih ht hordered

/-- The released blocks lie in different holes. -/
theorem exists_holes {a e : Nat} (htiles : Tiles Block.addr Block.last a bs e) {ps : List (Block × Block)} (hordered : Ordered ps)
    (hstaying : ∀ p ∈ ps, p.2 ∈ bs ∧ p.2.hole = false)
    (hreleased : ∀ p ∈ ps, ∃ d ∈ bs, d.hole = true ∧ d.addr ≤ p.1.addr ∧ p.1.last ≤ d.last) :
    ∃ ds : List Block, ds.length = ps.length ∧ ds.Nodup ∧
      ∀ d ∈ ds, (d ∈ bs ∧ d.hole = true) ∧ ∃ p ∈ ps, d.addr ≤ p.1.addr ∧ p.1.last ≤ d.last := by
  induction ps with
  | nil => exact ⟨[], rfl, .nil, nofun⟩
  | cons p ps ih =>
    obtain ⟨hbehind, houter⟩ := List.pairwise_cons.mp hordered.outer
    obtain ⟨ds, hlength, hnodup, hds⟩ := ih ⟨fun q hq => hordered.inner q (List.mem_cons_of_mem _ hq), houter⟩
      (fun q hq => hstaying q (List.mem_cons_of_mem _ hq)) fun q hq => hreleased q (List.mem_cons_of_mem _ hq)
    obtain ⟨d, hd, hhole, hlo, hhi⟩ := hreleased p (List.mem_cons_self ..)
    refine ⟨d :: ds, by rw [List.length_cons, List.length_cons, hlength], List.nodup_cons.mpr ⟨fun hmem => ?_, hnodup⟩,
      List.forall_mem_cons.mpr ⟨⟨⟨hd, hhole⟩, p, List.mem_cons_self .., hlo, hhi⟩, fun c hc => ?_⟩⟩
    · obtain ⟨-, q, hq, -, hqhi⟩ := hds d hmem
      obtain ⟨hstay, hallocated⟩ := hstaying p (List.mem_cons_self ..)
      have hne : p.2 ≠ d := by
        rintro rfl
        rw [hhole] at hallocated
        cases hallocated
      have hapart := htiles.apart_of_ne hd hstay hne
      have hinner := hordered.inner p (List.mem_cons_self ..)
      have hafter := hbehind q hq
      have hp := addr_lt_last p.1
      have hp' := addr_lt_last p.2
      have hq' := addr_lt_last q.1
      omega
    · obtain ⟨hc, q, hq, hcover⟩ := hds c hc
      exact ⟨hc, q, List.mem_cons_of_mem _ hq, hcover⟩

/-- The index cannot list the holes of all runs. -/
theorem index_drops_holes : ¬ ∀ (mem : Memory) (heap : Kheap) (actions : List HeapAction) (s : CallState),
    initKheap mem = ⟨[], .ok heap⟩ → Run (Steps CallState.step) ⟨heap, [], [], none⟩ actions s → s.Complete := by
  intro hclaim
  have hall : ∀ s, CallReached s → s.Complete := fun s ⟨mem, heap, actions, hinit, hrun⟩ => hclaim mem heap actions s hinit hrun
  have hcapacity : kheapIndexNum = 0x20000 := rfl
  obtain ⟨s, bs, h⟩ := exists_oneByteBlocks hall (k := 2 * (kheapIndexNum + 1)) (by omega)
  have hordered := pairs_ordered (h.laid.tiles.pairwise.filter fun b => !b.hole)
  have hheld : ∀ b ∈ bs.filter fun b => !b.hole, b ∈ bs ∧ b.hole = false := fun b hb => by
    obtain ⟨hmem, hhole⟩ := List.mem_filter.mp hb
    exact ⟨hmem, by simpa using hhole⟩
  have hstart : Releasing s bs [] (pairs (bs.filter fun b => !b.hole)) :=
    ⟨h.reached, h.laid, h.held, fun p hp => hheld _ (mem_of_pairs hp).2, fun p hp => hheld _ (mem_of_pairs hp).1, nofun⟩
  obtain ⟨t, bs', ht⟩ := hstart.all hall hordered
  rw [List.nil_append] at ht
  obtain ⟨ds, hlength, hnodup, hds⟩ := exists_holes ht.laid.tiles hordered (fun p hp => ht.staying p (by simpa using hp)) ht.released
  have hsub : ds ⊆ bs'.filter Block.hole := fun d hd => List.mem_filter.mpr (hds d hd).1
  have hle := (hnodup.subperm hsub).length_le
  have hcap := (ht.reached.sound hall).shaped.capacity
  obtain ⟨holes, hindex, hperm, -⟩ := ht.laid.indexed.exists_holes
  rw [hindex, List.length_map, hperm.length_eq] at hcap
  rw [hlength, pairs_length, ← length_live, ← h.held.length_eq, h.count] at hle
  omega

end LuckOS.Kheap
