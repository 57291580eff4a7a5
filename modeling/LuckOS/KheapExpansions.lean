import LuckOS.KheapEnds

/-!
# The number of expansions of an allocation

Behind an expansion the heap ends in a hole that is large enough for a request, behind two of
them also for an aligned one. The recursion of `alloc` finds it, unless a full index has
refused it.
-/

namespace LuckOS.Kheap

open ByteMemory Outcome Traced Tiling

variable {m m' : Memory} {h h' : Kheap} {b c : Block} {bs xs : List Block} {size pos n : Nat} {align : Bool}

/-- `alloc` returns a pointer and expands the heap at most as often as given. More rounds do not
change its result. -/
def ReturnsWithin (h : Kheap) (size : Nat) (align : Bool) (expansions : Nat) : Prop :=
  ∃ p h', p ≠ 0 ∧ ∀ rounds, expansions < rounds → (alloc rounds h size align).outcome = .ok (p, h')

section Rounds

variable {α β : Type} {x : Result α} {f g : α → Result β}

theorem outcome_bind_of_ok {a : α} (hx : x.outcome = .ok a) : (x >>= f).outcome = (f a).outcome := by
  change (Traced.bind x f).outcome = _
  rw [Traced.bind, hx]

theorem outcome_bind_of_error {e : Stop} (hx : x.outcome = .error e) : (x >>= f).outcome = .error e := by
  change (Traced.bind x f).outcome = _
  rw [Traced.bind, hx]

/-- Only the parts that are reached matter for the outcome. -/
theorem outcome_bind_congr {b : β} (hfg : ∀ a, (f a).outcome = .ok b → (g a).outcome = .ok b)
    (hok : (x >>= f).outcome = .ok b) : (x >>= g).outcome = .ok b := by
  cases hx : x.outcome with
  | error e =>
    rw [outcome_bind_of_error hx] at hok
    cases hok
  | ok a =>
    rw [outcome_bind_of_ok hx] at hok ⊢
    exact hfg a hok

end Rounds

/-- More rounds do not change a result. -/
theorem alloc_mono {rounds : Nat} {r : Nat × Kheap} (hok : (alloc rounds h size align).outcome = .ok r) :
    (alloc (rounds + 1) h size align).outcome = .ok r := by
  induction rounds generalizing h with
  | zero => cases hok
  | succ rounds ih =>
    rw [alloc] at hok ⊢
    refine outcome_bind_congr (fun _ hok => outcome_bind_congr (fun found hok => ?_) hok) hok
    cases found with
    | none => exact outcome_bind_congr (fun _ hok => ih hok) hok
    | some found => exact hok

theorem returnsWithin_of_ends {expansions : Nat}
    (h' : Ends (fun _ => False) (alloc (expansions + 1) h size align) fun r => r.1 ≠ 0) :
    ReturnsWithin h size align expansions := by
  obtain ⟨r, hout, hr⟩ := h'.exists_ok
  refine ⟨r.1, r.2, hr, fun rounds hlt => ?_⟩
  induction rounds, hlt using Nat.le_induction with
  | base => exact hout
  | succ rounds _ ih => exact alloc_mono ih

/-- The last block is a hole in the index that is large enough after the given number of expansions. -/
theorem alloc_last_hole {expansions : Nat} (hl : Tiled h (xs ++ [b])) (hb : b.hole = true) (hmem : b.addr ∈ h.index)
    (hcap : h.index.length ≤ kheapIndexNum) (hpos : 0 < size) (hsize : size ≤ 0x1F380000)
    (hn : alignToPage (add32 size 17) = n) (hn0 : 0 < n) (hroom : h.endAddress + expansions * n ≤ h.maxAddress)
    (hfits : Fits ⟨b.addr, b.size + expansions * n, true⟩ size align pos) :
    Ends (fun _ => False) (alloc (expansions + 1) h size align) fun r => r.1 ≠ 0 := by
  have hfound : ∀ {h : Kheap} {bs : List Block}, ∀ b ∈ bs, b.hole = true → b.addr ∈ h.index → ∀ pos, Fits b size align pos →
      ∀ r, Returned h size r pos b.addr b.last → r.1 ≠ 0 := by
    rintro _ _ c - - - pos - r ⟨rfl, -, d, -, hd, -⟩
    omega
  induction expansions generalizing h b with
  | zero =>
    rw [Nat.zero_mul, Nat.add_zero] at hfits
    refine alloc_round hl hpos (by omega) (fun _ c hc _ => hl.noWrappedFit hsize hc) hfound fun hno => ?_
    refine absurd ?_ (hno b (by simp) hmem pos)
    exact ⟨hfits.plain, hfits.aligned, hfits.room⟩
  | succ expansions ih =>
    refine alloc_round hl hpos (by omega) (fun _ c hc _ => hl.noWrappedFit hsize hc) hfound fun _ => ?_
    have hmax := hl.max
    rw [kheapMaxAddr] at hmax
    rw [Nat.succ_mul] at hroom hfits
    have hextend := extend_hole_ends (A := fun _ => False) hl hb hn hn0 (by omega) (by omega) (absurd hmem)
    refine hextend.bind ?_
    rintro h' ⟨hl', hend, -, hindex⟩
    obtain ⟨hmem', hlength⟩ := hindex hcap
    refine ih hl' rfl hmem' (by omega) ?_ ?_
    · rw [hl'.max, ← hl.max, hend]
      omega
    · rwa [Nat.add_assoc, Nat.add_comm n]

theorem expandSize_spec (hsize : size ≤ 0x1F380000) : 4096 ≤ alignToPage (add32 size 17) ∧
    size + 17 ≤ alignToPage (add32 size 17) ∧ alignToPage (add32 size 17) < size + 17 + 4096 := by
  rw [add32_of_lt (by omega)]
  obtain ⟨hmod, hle, hlt⟩ := alignToPage_spec (n := size + 17) (by omega)
  omega

/-- The number of expansions behind which the last hole is large enough. -/
def expansionsFor (align : Bool) : Nat := if align then 2 else 1

/-- A hole in front of the end of the heap has room for the request behind the expansions. -/
theorem exists_fits (hpage : h.endAddress % 4096 = 0) (hlt : b.addr ≤ h.endAddress) (hn0 : 4096 ≤ n) (hn : size + 17 ≤ n)
    (hsize : h.endAddress + expansionsFor align * n ≤ b.addr + b.size + 17) : ∃ pos, Fits b size align pos := by
  cases align with
  | false =>
    have hexpansions : expansionsFor false = 1 := rfl
    rw [hexpansions, Nat.one_mul] at hsize
    exact ⟨b.addr + 9, fun _ => rfl, nofun, by omega⟩
  | true =>
    have hexpansions : expansionsFor true = 2 := rfl
    rw [hexpansions] at hsize
    exact ⟨(b.addr + 26) / 4096 * 4096 + 4096, nofun, fun _ => by omega, by omega⟩

/-- The request is served, if a hole has room for it or the hole behind the expansion enters the index. -/
theorem alloc_returns (hl : Laid h bs) (hpage : h.endAddress % 4096 = 0) (hcap : h.index.length ≤ kheapIndexNum)
    (hpos : 0 < size) (hroom : h.endAddress + 2 * (size + 4113) ≤ h.maxAddress)
    (hcond : (∃ b ∈ bs, b.hole = true ∧ ∃ pos, Fits b size align pos) ∨
      (∃ b, bs.getLast? = some b ∧ b.hole = true) ∨ h.index.length < kheapIndexNum) :
    Ends (fun _ => False) (alloc (expansionsFor align + 1) h size align) fun r => r.1 ≠ 0 := by
  have hmax := hl.max
  have ht := hl.tiled
  obtain ⟨xs, b, rfl, hlast⟩ := ht.last_block
  obtain ⟨-, -, hlower, hupper⟩ := ht.last_header
  rw [kheapMaxAddr] at hmax
  have hblock := hlast
  simp only [Block.last] at hblock
  have hsize : size ≤ 0x1F380000 := by omega
  obtain ⟨hn0, hn, hnlt⟩ := expandSize_spec hsize
  generalize hexpand : alignToPage (add32 size 17) = n at hn0 hn hnlt
  refine alloc_round ht hpos (by omega) (fun _ c hc _ => ht.noWrappedFit hsize hc) ?_ fun hno => ?_
  · rintro c - - - pos - r ⟨rfl, -, d, -, hd, -⟩
    omega
  · have hsplit : expansionsFor align = (expansionsFor align - 1) + 1 := by cases align <;> rfl
    have hle : expansionsFor align ≤ 2 := by cases align <;> decide
    have hsum : expansionsFor align * n = n + (expansionsFor align - 1) * n := by
      rw [hsplit, Nat.succ_mul, Nat.add_comm]
      rfl
    have htwo : expansionsFor align * n ≤ 2 * n := Nat.mul_le_mul_right _ hle
    cases hhole : b.hole with
    | true =>
      have hmem := hl.mem_index (b := b) (by simp) hhole
      refine (extend_hole_ends ht hhole hexpand (by omega) (by omega) (by omega) (absurd hmem)).bind ?_
      rintro h' ⟨hl', hend, -, hindex⟩
      obtain ⟨hmem', hlength⟩ := hindex hcap
      have hmax' := hl'.max
      rw [kheapMaxAddr] at hmax'
      obtain ⟨pos, hfits⟩ : ∃ pos, Fits ⟨b.addr, b.size + n + (expansionsFor align - 1) * n, true⟩ size align pos :=
        exists_fits hpage (by simp only; omega) hn0 hn (by simp only; omega)
      rw [hsplit]
      exact alloc_last_hole hl' rfl hmem' (by omega) hpos hsize hexpand (by omega) (by omega) hfits
    | false =>
      have hlt : h.index.length < kheapIndexNum := by
        rcases hcond with ⟨c, hc, hchole, pos, hfits⟩ | ⟨c, hc, hchole⟩ | hlt
        · exact absurd hfits (hno c hc (hl.mem_index hc hchole) pos)
        · rw [List.getLast?_concat] at hc
          rw [← Option.some.inj hc, hhole] at hchole
          cases hchole
        · exact hlt
      refine (extend_allocated_ends ht hhole hexpand (by omega) (by omega) (by omega)).bind ?_
      rintro h' ⟨hl', hend, hindex, -⟩
      obtain ⟨hmem', hlength⟩ := hindex hlt
      have hmax' := hl'.max
      rw [kheapMaxAddr] at hmax'
      obtain ⟨pos, hfits⟩ : ∃ pos, Fits ⟨h.endAddress, n - 17 + (expansionsFor align - 1) * n, true⟩ size align pos :=
        exists_fits hpage (by simp only; omega) hn0 hn (by simp only; omega)
      rw [hsplit]
      exact alloc_last_hole hl' rfl hmem' (by omega) hpos hsize hexpand (by omega) (by omega) hfits

/-- A hole that a full index has refused stops the next round. -/
theorem alloc_refused (hl : Laid h (xs ++ [b])) (hb : b.hole = false) (hfull : kheapIndexNum ≤ h.index.length)
    (hpos : 0 < size) (hroom : h.endAddress + 2 * (size + 4113) ≤ h.maxAddress)
    (hno : ∀ c ∈ xs ++ [b], c.hole = true → ∀ pos, ¬ Fits c size align pos) (rounds : Nat) (r : Nat × Kheap) :
    (alloc (rounds + 2) h size align).outcome ≠ .ok r := by
  have hmax := hl.max
  have ht := hl.tiled
  obtain ⟨hlast, -, hlower, hupper⟩ := ht.last_header
  rw [kheapMaxAddr] at hmax
  simp only [Block.last] at hlast
  have hsize : size ≤ 0x1F380000 := by omega
  obtain ⟨hn0, hn, hnlt⟩ := expandSize_spec hsize
  generalize hexpand : alignToPage (add32 size 17) = n at hn0 hn hnlt
  have hnew : h.endAddress ∉ h.index := by
    intro hmem
    obtain ⟨c, hc, -, haddr⟩ := ht.listed _ hmem
    have hbounds := ht.tiles.mem hc
    omega
  have hends : Ends (fun _ => True) (alloc (rounds + 2) h size align) fun _ => False := by
    refine alloc_round ht hpos (by omega) (fun _ c hc _ => ht.noWrappedFit hsize hc)
      (fun c hc hhole _ pos hfits _ _ => hno c hc hhole pos hfits) fun _ => ?_
    refine (extend_allocated_ends ht hb hexpand (by omega) (by omega) fun _ => trivial).bind ?_
    rintro h' ⟨hl', hend, -, hindex⟩
    rw [← hindex hfull] at hnew
    refine alloc_round hl' hpos (by omega) (fun _ c hc _ => hl'.noWrappedFit hsize hc) (fun c hc hhole hmem pos hfits => ?_)
      fun _ => ?_
    · rcases List.mem_append.mp hc with hc | hc
      · exact absurd hfits (hno c hc hhole pos)
      · rw [List.mem_singleton.mp hc] at hmem
        exact absurd hmem hnew
    · refine (extend_hole_ends hl' rfl hexpand (by omega) (by omega) (fun _ => trivial) fun _ => trivial).bind ?_
      rintro _ ⟨-, -, hmem, -⟩
      exact absurd hmem hnew
  intro hok
  have hensures := hends.ensures
  rw [hok] at hensures
  exact hensures

/-- An allocation expands the heap at most once, or twice for an aligned block, exactly if the
hole behind the expansion is not refused by a full index before it is used. -/
theorem alloc_expansions_iff (hl : Laid h bs) (hpage : h.endAddress % 4096 = 0) (hcap : h.index.length ≤ kheapIndexNum)
    (hpos : 0 < size) (hroom : h.endAddress + 2 * (size + 4113) ≤ h.maxAddress) :
    ReturnsWithin h size align (expansionsFor align) ↔
      (∃ b ∈ bs, b.hole = true ∧ ∃ pos, Fits b size align pos) ∨
      (∃ b, bs.getLast? = some b ∧ b.hole = true) ∨ h.index.length < kheapIndexNum := by
  constructor
  · rintro ⟨p, h', -, hrounds⟩
    by_contra hcond
    simp only [not_or, not_lt] at hcond
    obtain ⟨hno, hlast, hfull⟩ := hcond
    obtain ⟨xs, b, rfl, -⟩ := hl.tiled.last_block
    have hb : b.hole = false := by
      by_contra hhole
      exact hlast ⟨b, List.getLast?_concat, by simpa using hhole⟩
    have hok := hrounds 3 (by cases align <;> decide)
    exact alloc_refused hl hb hfull hpos hroom (fun c hc hhole pos hfits => hno ⟨c, hc, hhole, pos, hfits⟩) 1 _ hok
  · exact fun hcond => returnsWithin_of_ends (alloc_returns hl hpage hcap hpos hroom hcond)

/-! ## Heaps with given blocks -/

/-- Every tiling is stored in some memory. -/
theorem exists_stored {a e : Nat} (htiles : Tiles Block.addr Block.last a bs e) (hpos : ∀ b ∈ bs, 0 < b.size)
    (hlt : e < 2 ^ 32) : ∃ m, ∀ b ∈ bs, Stored m b := by
  induction bs generalizing a with
  | nil => exact ⟨fun _ => 0, nofun⟩
  | cons b bs ih =>
    obtain ⟨rfl, -, hrest⟩ := htiles
    obtain ⟨m, hm⟩ := ih hrest fun c hc => hpos c (List.mem_cons_of_mem _ hc)
    have hle : b.addr + b.size + 17 ≤ e := hrest.le
    have hmake : Ends (fun _ => False) (makeBlock m b.addr b.size b.hole) _ :=
      makeBlock_ends (hpos b (List.mem_cons_self ..)) (by omega)
    obtain ⟨m', -, hb, hchanged⟩ := hmake.exists_ok
    refine ⟨m', List.forall_mem_cons.mpr ⟨hb, fun c hc => (hm c hc).apart hchanged (.inr ?_)⟩⟩
    exact (hrest.mem hc).1

theorem exists_laid {e : Nat} (htiles : Tiles Block.addr Block.last (kheapStartAddr + 4 * kheapIndexNum) bs e)
    (hpos : ∀ b ∈ bs, 0 < b.size) (he : e ≤ kheapMaxAddr) (hne : bs ≠ [])
    (hsorted : (bs.filter Block.hole).Pairwise fun b c => b.size ≤ c.size) :
    ∃ h, Laid h bs ∧ h.endAddress = e ∧ h.index = (bs.filter Block.hole).map Block.addr := by
  obtain ⟨m, hm⟩ := exists_stored htiles hpos (Nat.lt_of_le_of_lt he (by decide))
  exact ⟨⟨m, (bs.filter Block.hole).map Block.addr, kheapStartAddr + 4 * kheapIndexNum, e, 0, kheapMaxAddr⟩,
    ⟨htiles, hm, ⟨_, rfl, .refl _, hsorted⟩, rfl, rfl, he, hne⟩, rfl, rfl⟩

/-- Holes and allocated blocks of one byte in turn. -/
def alternating (a : Nat) : Nat → List Block
  | 0 => []
  | n + 1 => alternating a n ++ [⟨a + 36 * n, 1, true⟩] ++ [⟨a + 36 * n + 18, 1, false⟩]

theorem alternating_tiles (a n : Nat) : Tiles Block.addr Block.last a (alternating a n) (a + 36 * n) := by
  induction n with
  | zero => rfl
  | succ n ih =>
    refine tiles_append.mpr ⟨a + 36 * n + 18, tiles_append.mpr ⟨a + 36 * n, ih, rfl, ?_, rfl⟩, rfl, ?_, ?_⟩
    · simp only [Block.last]
      omega
    · simp only [Block.last]
      omega
    · simp only [Block.last, Tiles]
      omega

theorem alternating_size {a n : Nat} (hb : b ∈ alternating a n) : b.size = 1 := by
  induction n with
  | zero => simp [alternating] at hb
  | succ n ih =>
    simp only [alternating, List.mem_append, List.mem_singleton] at hb
    rcases hb with (hb | rfl) | rfl
    · exact ih hb
    · rfl
    · rfl

theorem alternating_holes (a n : Nat) : ((alternating a n).filter Block.hole).length = n := by
  induction n with
  | zero => rfl
  | succ n ih => simp [alternating, ih]

/-- A full index with holes of one byte, and an allocated block at the end of the heap. -/
theorem exists_full_heap : ∃ h bs b, Laid h (bs ++ [b]) ∧ b.hole = false ∧ h.endAddress = 0xC1100000 ∧
    h.index.length = kheapIndexNum ∧ ∀ c ∈ bs ++ [b], c.size = 1 := by
  obtain ⟨n, hn⟩ : ∃ n, kheapIndexNum = n + 1 := ⟨_, rfl⟩
  have htiles := alternating_tiles (kheapStartAddr + 4 * kheapIndexNum) (n + 1)
  have hsize := fun c => alternating_size (b := c) (a := kheapStartAddr + 4 * kheapIndexNum) (n := n + 1)
  have hend : kheapStartAddr + 4 * kheapIndexNum + 36 * (n + 1) = 0xC1100000 := by
    rw [← hn]
    rfl
  rw [hend] at htiles
  have hsorted : ((alternating (kheapStartAddr + 4 * kheapIndexNum) (n + 1)).filter Block.hole).Pairwise
      fun b c => b.size ≤ c.size :=
    List.pairwise_of_forall_mem_list fun b hb c hc => by
      rw [hsize b (List.mem_filter.mp hb).1, hsize c (List.mem_filter.mp hc).1]
  obtain ⟨h, hl, hend, hindex⟩ := exists_laid htiles (fun c hc => by rw [hsize c hc]; decide) (by decide)
    (by simp [alternating]) hsorted
  refine ⟨h, _, _, hl, rfl, hend, ?_, hsize⟩
  rw [hindex, List.length_map, alternating_holes, hn]

/-- A request of two bytes stops. -/
theorem alloc_stops_with_full_index : ¬ ∀ (h : Kheap) (bs : List Block) (size : Nat) (align : Bool), Laid h bs →
    h.endAddress % 4096 = 0 → h.index.length ≤ kheapIndexNum → 0 < size →
    h.endAddress + 2 * (size + 4113) ≤ h.maxAddress → ReturnsWithin h size align (expansionsFor align) := by
  intro hall
  obtain ⟨h, bs, b, hl, hb, hend, hlength, hsize⟩ := exists_full_heap
  have hroom : h.endAddress + 2 * (2 + 4113) ≤ h.maxAddress := by
    rw [hend, hl.max]
    decide
  obtain ⟨p, h', -, hrounds⟩ := hall h _ 2 false hl (by rw [hend]) (Nat.le_of_eq hlength) (by decide) hroom
  refine alloc_refused hl hb (Nat.le_of_eq hlength.symm) (by decide) hroom (fun c hc _ pos hfits => ?_) 0 _
    (hrounds 2 (by decide))
  have hplain := hfits.plain rfl
  have hfit := hfits.room
  rw [hsize c hc] at hfit
  omega

/-- A heap of one allocated page. -/
theorem exists_page_heap : ∃ h, Laid h [⟨0xC0C80000, 0xFEF, false⟩] ∧ h.endAddress = 0xC0C81000 ∧ h.index = [] := by
  have htiles : Tiles Block.addr Block.last (kheapStartAddr + 4 * kheapIndexNum) [⟨0xC0C80000, 0xFEF, false⟩] 0xC0C81000 :=
    ⟨rfl, by decide, rfl⟩
  exact exists_laid htiles (by decide) (by decide) (by decide) (by decide)

theorem sample_alloc_expansions : ∃ h, ReturnsWithin h 4096 true 2 := by
  obtain ⟨h, hl, hend, hindex⟩ := exists_page_heap
  refine ⟨h, (alloc_expansions_iff hl (by rw [hend]) (by rw [hindex]; decide) (by decide) ?_).mpr (.inr (.inr ?_))⟩
  · rw [hend, hl.max]
    decide
  · rw [hindex]
    decide

end LuckOS.Kheap
