import LuckOS.KheapExpansions

/-!
# Request sizes that wrap

The sums of `find_hole` and of the expansion are those of `uint32`. A request that is larger
than the heap can become either fails a check of its first round, or a wrapped sum passes
its check there.
-/

namespace LuckOS.Kheap

open ByteMemory Outcome Traced Tiling

variable {m m' : Memory} {h h' h'' : Kheap} {b c : Block} {bs xs : List Block} {size pos n rounds : Nat} {align : Bool}

instance : Decidable (NoWrappedFit b size) :=
  inferInstanceAs (Decidable (alignToPage (b.addr + 9) + size < 2 ^ 32 ∨
    b.addr + 9 + b.size < alignToPage (b.addr + 9) + size - 2 ^ 32))

/-- The page boundaries that the loop of `find_hole` looks at. -/
inductive Looked (start e size : Nat) : Nat → Prop
  | first : Looked start e size (alignToPage start)
  | next {nextPageAlign : Nat} : Looked start e size nextPageAlign → add32 nextPageAlign size ≤ e →
      ¬ blockMetaSize < sub32 nextPageAlign start → Looked start e size (add32 nextPageAlign pageSize)

/-- A sum of a page boundary and the size that passes its check for an entry of the index that
`find_hole` reaches does not wrap, and the expansion that passes its check is the rounded request. -/
structure SumsExact (h : Kheap) (size : Nat) (align : Bool) : Prop where
  hole : align = true → ∀ i a, h.index[i]? = some a →
    (findHoleFrom h.mem size align 0 (h.index.take i)).outcome = .ok none → ∀ nextPageAlign,
    Looked (add32 a headerSize) (add32 (add32 a headerSize) (sizeAt h.mem a)) size nextPageAlign →
    add32 nextPageAlign size ≤ add32 (add32 a headerSize) (sizeAt h.mem a) → nextPageAlign + size < 2 ^ 32
  expansion : (h.findHole size align).outcome = .ok none →
    alignToPage (add32 size blockMetaSize) = 0 ∨
      add32 h.endAddress (alignToPage (add32 size blockMetaSize)) ≤ h.maxAddress →
    size + blockMetaSize ≤ alignToPage (add32 size blockMetaSize) ∧
      h.endAddress + alignToPage (add32 size blockMetaSize) < 2 ^ 32

/-- The heaps that the rounds of `alloc` search. -/
inductive Searched (size : Nat) (align : Bool) (h : Kheap) : Kheap → Prop
  | start : Searched size align h h
  | expanded {h' h'' : Kheap} : Searched size align h h' → (h'.findHole size align).outcome = .ok none →
      (h'.extend size).outcome = .ok h'' → Searched size align h h''

/-- The result of `alloc` is the payload of an allocated block inside of the heap. -/
def Served (size : Nat) (r : Nat × Kheap) : Prop :=
  (∃ c, Stored r.2.mem c ∧ c.addr + 9 = r.1 ∧ c.hole = false ∧ size ≤ c.size ∧ r.2.startAddress ≤ c.addr ∧
    c.last ≤ r.2.endAddress) ∧ r.2.endAddress ≤ r.2.maxAddress

/-- `alloc` stops at a check or returns such a block, and no sum on the way wraps to a value that
passes its check. -/
structure Unbroken (h : Kheap) (size : Nat) (align : Bool) : Prop where
  ends : ∃ rounds, Ends (fun e => e ≠ .unfinished) (alloc rounds h size align) (Served size)
  exact : ∀ h', Searched size align h h' → SumsExact h' size align

theorem alignToPage_add9 (hl : Tiled h bs) (hb : b ∈ bs) : b.addr + 9 ≤ alignToPage (b.addr + 9) ∧
    alignToPage (b.addr + 9) < b.addr + 9 + 4096 ∧ b.addr + 9 + b.size ≤ 0xE0000000 := by
  have hlast := hl.upper hb
  simp only [Block.last] at hlast
  have halign := alignToPage_spec (n := b.addr + 9) (by omega)
  omega

/-- The loop looks at the first boundary, and at the second one only if the request fits behind the first. -/
theorem Looked.cases (hl : Tiled h bs) (hb : b ∈ bs) (hfit : NoWrappedFit b size) (hsize : size < 2 ^ 32)
    (hn : Looked (b.addr + 9) (b.addr + 9 + b.size) size n) :
    n = alignToPage (b.addr + 9) ∨ n = alignToPage (b.addr + 9) + 4096 ∧ alignToPage (b.addr + 9) + size ≤ b.addr + 9 + b.size := by
  obtain ⟨hle, hlt, hupper⟩ := alignToPage_add9 hl hb
  rw [NoWrappedFit] at hfit
  induction hn with
  | first => exact .inl rfl
  | @next n _ hpass hgap ih =>
    rcases ih with rfl | ⟨rfl, -⟩
    · have hsum : alignToPage (b.addr + 9) + size < 2 ^ 32 := by
        by_contra hwrap
        rw [add32] at hpass
        omega
      rw [add32_of_lt hsum] at hpass
      rw [pageSize, add32_of_lt (by omega)]
      exact .inr ⟨rfl, hpass⟩
    · rw [blockMetaSize, sub32_of_le (by omega) (by omega)] at hgap
      omega

theorem Tiled.holeSums (hl : Tiled h bs) (hsize : size < 2 ^ 32)
    (hwrap : align = true → ∀ b ∈ bs, b.hole = true → NoWrappedFit b size) (halign : align = true) {i a : Nat}
    (ha : h.index[i]? = some a)
    (hn : Looked (add32 a headerSize) (add32 (add32 a headerSize) (sizeAt h.mem a)) size n)
    (hpass : add32 n size ≤ add32 (add32 a headerSize) (sizeAt h.mem a)) : n + size < 2 ^ 32 := by
  obtain ⟨b, hb, hhole, rfl⟩ := hl.listed a (List.mem_of_getElem? ha)
  obtain ⟨hle, hlt, hupper⟩ := alignToPage_add9 hl hb
  have hstart : add32 b.addr headerSize = b.addr + 9 := by
    rw [headerSize, add32_of_lt (by omega)]
  have hend : add32 (b.addr + 9) b.size = b.addr + 9 + b.size := add32_of_lt (by omega)
  rw [hstart, (hl.stored b hb).size, hend] at hn hpass
  have hfit := hwrap halign b hb hhole
  rcases hn.cases hl hb hfit hsize with rfl | ⟨rfl, hroom⟩
  · by_contra hover
    rw [NoWrappedFit] at hfit
    rw [add32] at hpass
    omega
  · omega

/-! ## Requests that may fit -/

/-- An expansion for a request that is not larger than the heap can become. -/
theorem extend_small (hl : Tiled h bs) (hsize : size ≤ 0x1F380000) :
    Ends (fun e => e ≠ .unfinished) (h.extend size) (fun h' => ∃ bs', Tiled h' bs' ∧ h.endAddress + 4096 ≤ h'.endAddress) := by
  obtain ⟨hn0, hn, hnlt⟩ := expandSize_spec hsize
  generalize hexpand : alignToPage (add32 size 17) = n at hn0 hn hnlt
  obtain ⟨xs, b, rfl, -⟩ := hl.last_block
  obtain ⟨-, -, hlower, hupper⟩ := hl.last_header
  cases hhole : b.hole with
  | true =>
    refine (extend_hole_ends hl hhole hexpand (by omega) (by omega) (fun _ => nofun) fun _ => nofun).mono ?_
    rintro h' ⟨hl', hend, -⟩
    exact ⟨_, hl', by omega⟩
  | false =>
    refine (extend_allocated_ends hl hhole hexpand (by omega) (by omega) fun _ => nofun).mono ?_
    rintro h' ⟨hl', hend, -⟩
    exact ⟨_, hl', by omega⟩

theorem alloc_small (rounds : Nat) (hl : Tiled h bs) (hsize : size ≤ 0x1F380000)
    (hrounds : h.maxAddress < h.endAddress + 4096 * rounds) :
    Ends (fun e => e ≠ .unfinished) (alloc rounds h size align) (Served size) := by
  induction rounds generalizing h bs with
  | zero =>
    have hbound := hl.bound
    omega
  | succ rounds ih =>
    rcases Nat.eq_zero_or_pos size with rfl | hpos
    · exact .check_allowed (fun _ => nofun) (absurd · (Nat.lt_irrefl 0))
    · refine alloc_round hl hpos (by omega) (fun _ c hc _ => hl.noWrappedFit hsize hc) ?_ fun _ => ?_
      · rintro c hc - - pos - ⟨p, h'⟩ ⟨rfl, ⟨m, index, rfl⟩, d, hd, hpayload, hallocated, hfit, -, hlo, hhi⟩
        have hbounds := hl.tiles.mem hc
        exact ⟨⟨d, hd, hpayload, hallocated, hfit, Nat.le_trans hbounds.1 hlo, Nat.le_trans hhi hbounds.2.2⟩, hl.bound⟩
      · refine (extend_small hl hsize).bind ?_
        rintro h' ⟨bs', hl', hend⟩
        refine ih hl' ?_
        rw [hl'.max, ← hl.max]
        omega

theorem Searched.tiled (hs : Searched size align h h') (hl : Tiled h bs) (hsize : size ≤ 0x1F380000) :
    ∃ bs', Tiled h' bs' := by
  induction hs with
  | start => exact ⟨bs, hl⟩
  | expanded _ _ hextend ih =>
    obtain ⟨bs', hl'⟩ := ih
    have hensures := (extend_small hl' hsize).ensures
    rw [hextend] at hensures
    obtain ⟨bs'', hl'', -⟩ := hensures
    exact ⟨bs'', hl''⟩

theorem unbroken_of_small (hl : Tiled h bs) (hsize : size ≤ 0x1F380000) : Unbroken h size align := by
  have hmax := hl.max
  rw [kheapMaxAddr] at hmax
  refine ⟨⟨0x100000, alloc_small _ hl hsize (by omega)⟩, fun h' hs => ?_⟩
  obtain ⟨bs', hl'⟩ := hs.tiled hl hsize
  obtain ⟨xs, b, rfl, -⟩ := hl'.last_block
  obtain ⟨-, -, -, hupper⟩ := hl'.last_header
  refine ⟨fun halign i a ha _ n hn hpass => ?_, fun _ _ => ?_⟩
  · exact hl'.holeSums (by omega) (fun _ c hc _ => hl'.noWrappedFit hsize hc) halign ha hn hpass
  · obtain ⟨-, hn, hnlt⟩ := expandSize_spec hsize
    rw [blockMetaSize]
    omega

/-! ## Requests that never fit -/

/-- No block is larger than the heap can become. -/
theorem Tiled.not_fits (hl : Tiled h bs) (hsize : 0x1F380000 < size) (hb : b ∈ bs) : ¬ Fits b size align pos := by
  intro hfits
  have hroom := hfits.room
  have hlast := hl.upper hb
  have hlower := (hl.tiles.mem hb).1
  rw [hl.start, kheapStartAddr, kheapIndexNum] at hlower
  simp only [Block.last] at hlast
  cases align with
  | false =>
    have hpos := hfits.plain rfl
    omega
  | true =>
    have hpos := hfits.aligned rfl
    omega

theorem findHole_large (hl : Tiled h bs) (hlarge : 0x1F380000 < size) (hsize : size < 2 ^ 32)
    (hwrap : align = true → ∀ b ∈ bs, b.hole = true → NoWrappedFit b size) : (h.findHole size align).outcome = .ok none := by
  obtain ⟨r, hout, hsome, -⟩ := (findHole_ends (A := fun _ => False) hl hsize hwrap).exists_ok
  cases r with
  | none => exact hout
  | some found =>
    obtain ⟨-, b, hb, -, -, -, hfits, -⟩ := hsome found.1 found.2 rfl
    exact absurd hfits (hl.not_fits hlarge hb)

theorem alignToPage_eq (x : Nat) : alignToPage x = if x % 4096 = 0 then x else (x / 4096 * 4096 + 4096) % 2 ^ 32 := by
  rw [alignToPage]
  exact ite_not ..

/-- The size of an expansion: the rounded request, zero or one page. -/
theorem expandSize_cases (hsize : size < 2 ^ 32) :
    (size + 17 + 4095) / 4096 * 4096 < 2 ^ 32 ∧ alignToPage (add32 size 17) = (size + 17 + 4095) / 4096 * 4096 ∨
    2 ^ 32 ≤ (size + 17 + 4095) / 4096 * 4096 ∧ size < 2 ^ 32 - 16 ∧ alignToPage (add32 size 17) = 0 ∨
    2 ^ 32 - 16 ≤ size ∧ alignToPage (add32 size 17) = 4096 := by
  by_cases hwrap : size + 17 < 2 ^ 32
  · rw [add32_of_lt hwrap, alignToPage_eq]
    split_ifs <;> omega
  · have hsum : add32 size 17 = size + 17 - 2 ^ 32 := by
      rw [add32]
      omega
    rw [hsum, alignToPage_eq]
    split_ifs <;> omega

/-- The expansion for a request that never fits stops. -/
theorem alloc_large (hl : Tiled h bs) (hlarge : 0x1F380000 < size) (hsize : size < 2 ^ 32)
    (hwrap : align = true → ∀ b ∈ bs, b.hole = true → NoWrappedFit b size)
    (hend : h.endAddress + (size + 17 + 4095) / 4096 * 4096 < 2 ^ 32 ∨ 2 ^ 32 - 16 ≤ size ∧ h.maxAddress < h.endAddress + 4096) :
    Unbroken h size align := by
  obtain ⟨xs, b, rfl, -⟩ := hl.last_block
  obtain ⟨hlast, -, hlower, hupper⟩ := hl.last_header
  have hmax := hl.max
  rw [kheapMaxAddr] at hmax
  simp only [Block.last] at hlast
  have hover : 0 < alignToPage (add32 size 17) ∧ h.endAddress + alignToPage (add32 size 17) < 2 ^ 32 ∧
      h.maxAddress < h.endAddress + alignToPage (add32 size 17) := by
    rcases expandSize_cases hsize with ⟨hlt, heq⟩ | ⟨hge, hlt, -⟩ | ⟨hge, heq⟩
    · rw [heq]
      omega
    · omega
    · rw [heq]
      omega
  obtain ⟨hpos, hlt, hbig⟩ := hover
  have hextend : Ends (fun e => e = .expandMax) (h.extend size) fun _ => False := by
    refine (expand_ends (A := fun e => e = .expandMax) h rfl hpos hlt fun _ => rfl).bind ?_
    rintro _ ⟨_, -, hle⟩
    omega
  have hsearched : ∀ h', Searched size align h h' → h' = h := by
    intro h' hs
    induction hs with
    | start => rfl
    | expanded _ _ hout ih =>
      subst ih
      have hensures := hextend.ensures
      rw [hout] at hensures
      exact hensures.elim
  refine ⟨⟨1, ?_⟩, fun h' hs => ?_⟩
  · refine alloc_round hl (by omega) hsize hwrap ?_ fun _ => ?_
    · exact fun c hc _ _ pos hfits => absurd hfits (hl.not_fits hlarge hc)
    · refine Ends.bind (m := fun _ => False) ⟨?_⟩ fun _ hfalse => hfalse.elim
      have hensures := hextend.ensures
      cases hout : (h.extend size).outcome with
      | error e =>
        rw [hout] at hensures
        rw [ensures_error] at hensures ⊢
        rw [hensures]
        simp
      | ok h' =>
        rw [hout] at hensures
        exact hensures.elim
  · rw [hsearched h' hs]
    refine ⟨fun halign i a ha _ n hn hpass => hl.holeSums hsize hwrap halign ha hn hpass, fun _ hpass => ?_⟩
    rw [blockMetaSize] at hpass
    rw [add32_of_lt hlt] at hpass
    omega

/-- A wrapped sum that passes for a fit is reached by the search. -/
theorem noWrappedFit_of_exact (hl : Laid h bs) (hlarge : 0x1F380000 < size) (hsize : size < 2 ^ 32)
    (hexact : SumsExact h size align) (halign : align = true) (hb : b ∈ bs) (hhole : b.hole = true) : NoWrappedFit b size := by
  by_contra hnot
  have ht := hl.tiled
  obtain ⟨holes, hindex, hholes⟩ := ht.listed.exists_holes
  have hmem : b ∈ holes := by
    have haddr := hl.mem_index hb hhole
    rw [hindex] at haddr
    obtain ⟨c, hc, heq⟩ := List.mem_map.mp haddr
    rwa [ht.tiles.eq_of_first hb (hholes c hc).1 heq.symm]
  have hfind : (holes.find? fun c => decide (¬ NoWrappedFit c size)).isSome :=
    List.find?_isSome.mpr ⟨b, hmem, decide_eq_true hnot⟩
  obtain ⟨c, hc⟩ := Option.isSome_iff_exists.mp hfind
  obtain ⟨hwrapped, us, ws, rfl, hbefore⟩ := List.find?_eq_some_iff_append.mp hc
  have hcbs := (hholes c (by simp)).1
  have hus : ∀ d ∈ us, d ∈ bs ∧ NoWrappedFit d size := fun d hd =>
    ⟨(hholes d (List.mem_append_left _ hd)).1, by simpa using hbefore d hd⟩
  have hentry : h.index[us.length]? = some c.addr := by
    rw [hindex]
    simp
  have hinitial : h.index.take us.length = us.map Block.addr := by
    rw [hindex]
    simp
  have hreached : (findHoleFrom h.mem size align 0 (h.index.take us.length)).outcome = .ok none := by
    rw [hinitial]
    obtain ⟨r, hout, hsome, -⟩ := (findHoleFrom_ends (A := fun _ => False) us 0
      (fun d hd => ⟨ht.stored d (hus d hd).1, ht.upper (hus d hd).1⟩) hsize fun _ d hd => (hus d hd).2).exists_ok
    cases r with
    | none => exact hout
    | some found =>
      obtain ⟨k, d, -, hd, hfits, -⟩ := hsome found.1 found.2 rfl
      exact absurd hfits (ht.not_fits hlarge (hus d (List.mem_of_getElem? hd)).1)
  obtain ⟨hle, hlt, hupper⟩ := alignToPage_add9 ht hcbs
  have hstart : add32 c.addr headerSize = c.addr + 9 := by
    rw [headerSize, add32_of_lt (by omega)]
  have hend : add32 (c.addr + 9) c.size = c.addr + 9 + c.size := add32_of_lt (by omega)
  have hsum := hexact.hole halign us.length c.addr hentry hreached (alignToPage (c.addr + 9))
  rw [hstart, (ht.stored c hcbs).size, hend] at hsum
  have hnot : ¬ NoWrappedFit c size := of_decide_eq_true hwrapped
  rw [NoWrappedFit, not_or] at hnot
  refine hnot.1 (hsum .first ?_)
  rw [add32]
  omega

/-- `alloc` is not broken by a size exactly if no wrapped sum passes its check in the first
search and the first expansion. -/
theorem alloc_unbroken_iff (hl : Laid h bs) (hsize : size < 2 ^ 32) : Unbroken h size align ↔
    (align = true → ∀ b ∈ bs, b.hole = true → NoWrappedFit b size) ∧
    (h.endAddress + (size + 17 + 4095) / 4096 * 4096 < 2 ^ 32 ∨ 2 ^ 32 - 16 ≤ size ∧ h.maxAddress < h.endAddress + 4096) := by
  have ht := hl.tiled
  have hmax := hl.max
  rw [kheapMaxAddr] at hmax
  have hbound := hl.bound
  rcases Nat.lt_or_ge 0x1F380000 size with hlarge | hsmall
  · constructor
    · intro hu
      have hexact := hu.exact h .start
      have hwrap : align = true → ∀ b ∈ bs, b.hole = true → NoWrappedFit b size := fun halign b hb hhole =>
        noWrappedFit_of_exact hl hlarge hsize hexact halign hb hhole
      refine ⟨hwrap, ?_⟩
      by_contra hcond
      have hpass : alignToPage (add32 size blockMetaSize) = 0 ∨
          add32 h.endAddress (alignToPage (add32 size blockMetaSize)) ≤ h.maxAddress := by
        rw [blockMetaSize]
        rcases expandSize_cases hsize with ⟨hlt, heq⟩ | ⟨-, -, heq⟩ | ⟨hge, heq⟩
        · rw [heq, add32]
          omega
        · exact .inl heq
        · rw [heq, add32]
          omega
      obtain ⟨hnowrap, hsum⟩ := hexact.expansion (findHole_large ht hlarge hsize hwrap) hpass
      rw [blockMetaSize] at hnowrap hsum
      rcases expandSize_cases hsize with ⟨hlt, heq⟩ | ⟨hge, hlt, heq⟩ | ⟨hge, heq⟩
      all_goals
        rw [heq] at hnowrap hsum
        omega
    · rintro ⟨hwrap, hend⟩
      exact alloc_large ht hlarge hsize hwrap hend
  · refine iff_of_true (unbroken_of_small ht hsmall) ⟨fun _ b hb _ => ht.noWrappedFit hsmall hb, .inl ?_⟩
    omega

theorem sample_alloc_unbroken : ∃ h, Unbroken h 4096 true := by
  obtain ⟨h, hl, hend, -⟩ := exists_page_heap
  refine ⟨h, (alloc_unbroken_iff hl (by decide)).mpr ⟨fun _ b hb hhole => ?_, .inl (by rw [hend]; decide)⟩⟩
  rw [List.mem_singleton.mp hb] at hhole
  cases hhole

/-- The end of the heap is lowered by a request of 1 GB. -/
theorem alloc_broken_by_size : ¬ ∀ (h : Kheap) (bs : List Block) (size : Nat) (align : Bool), Laid h bs → size < 2 ^ 32 →
    Unbroken h size align := by
  intro hall
  obtain ⟨h, hl, hend, hindex⟩ := exists_page_heap
  have hexact := (hall h _ 0x40000000 false hl (by decide)).exact h .start
  have hnone : (h.findHole 0x40000000 false).outcome = .ok none := by
    rw [findHole, hindex]
    rfl
  obtain ⟨-, hsum⟩ := hexact.expansion hnone (.inr (by rw [hend, hl.max]; decide))
  rw [hend] at hsum
  revert hsum
  decide

end LuckOS.Kheap
