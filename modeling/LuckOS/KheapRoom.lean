import LuckOS.KheapExpansions
import LuckOS.KheapFree

/-!
# Room in the index

An allocation enters up to two holes into the index, and a release one. The index has room
for them, or one of them is refused: this is decided by the number of the entries before
the call, by the blocks next to a released one and by the hole that a request is cut from.
-/

namespace LuckOS.Kheap

open ByteMemory Outcome Traced Tiling

variable {m m' : Memory} {h h' : Kheap} {b c : Block} {bs xs ys : List Block} {size pos n rounds : Nat} {align : Bool}
  {A : Stop → Prop}

/-- The payload address for a request in the hole at `header`. -/
def fitPos (align : Bool) (header : Nat) : Nat := if align then (header + 26) / 4096 * 4096 + 4096 else header + 9

/-- The index with so many entries has room for the hole behind an aligned block that ends at
`stop`, or there is no such hole up to `e`. -/
def RestRoom (align : Bool) (entries stop e : Nat) : Prop := align = true → entries < kheapIndexNum ∨ e ≤ stop + 25

/-- The end of the heap once the hole at `header` has room for the request. -/
def endBehind (h : Kheap) (size : Nat) (align : Bool) (header : Nat) : Nat :=
  let expandSize := alignToPage (add32 size blockMetaSize)
  if fitPos align header + size + 8 ≤ h.endAddress + expandSize then h.endAddress + expandSize
  else h.endAddress + expandSize + expandSize

/-- The index has room for the holes that `alloc` enters. -/
def AllocRoom (h : Kheap) (size : Nat) (align : Bool) : Prop :=
  match (h.findHole size align).outcome with
  | .ok (some (iterator, allocPos)) =>
    let header := OrderedArray.get h.index iterator
    RestRoom align h.index.length (allocPos + size) (header + sizeAt h.mem header + 17)
  | _ =>
    let lastHeader := headerAt h.mem (sub32 h.endAddress footerSize)
    if isHoleAt h.mem lastHeader ≠ 0 then
      RestRoom align h.index.length (fitPos align lastHeader + size) (h.endBehind size align lastHeader)
    else
      h.index.length < kheapIndexNum ∧
        RestRoom align (h.index.length + 1) (fitPos align h.endAddress + size) (h.endBehind size align h.endAddress)

theorem allocRoom_of_lt (hlt : h.index.length + 1 < kheapIndexNum) : AllocRoom h size align := by
  rw [AllocRoom]
  split
  · exact fun _ => .inl (by omega)
  · simp only []
    split_ifs
    · exact fun _ => .inl (by omega)
    · exact ⟨by omega, fun _ => .inl hlt⟩

theorem Fits.eq_fitPos (hfits : Fits b size align pos) (hfirst : pos ≤ b.addr + 26 + 4096) : pos = fitPos align b.addr := by
  cases align with
  | false => exact hfits.plain rfl
  | true =>
    have haligned := hfits.aligned rfl
    have hpos : fitPos true b.addr = (b.addr + 26) / 4096 * 4096 + 4096 := rfl
    omega

theorem fits_fitPos (hroom : fitPos align b.addr + size + 8 ≤ b.last) : Fits b size align (fitPos align b.addr) := by
  simp only [Block.last] at hroom
  cases align with
  | false => exact ⟨fun _ => rfl, by simp, by omega⟩
  | true =>
    have haligned : fitPos true b.addr % 4096 = 0 ∧ b.addr + 26 < fitPos true b.addr := by
      have hpos : fitPos true b.addr = (b.addr + 26) / 4096 * 4096 + 4096 := rfl
      omega
    generalize fitPos true b.addr = p at hroom haligned ⊢
    exact ⟨by simp, fun _ => haligned, by omega⟩

/-! ## What is logged -/

theorem addrAdd_eq_pure {x y : Nat} (hlt : x + y < 2 ^ 32) : addrAdd x y = pure (x + y) := by
  rw [addrAdd, noteIf, if_neg (by omega), add32_of_lt hlt]
  rfl

theorem findAligned_events (rounds : Nat) {start e : Nat} (he : e ≤ 0xE0000000) (hstart : start ≤ e) (hsize : size ≤ 0x1F380000) :
    (findAligned (rounds + 2) start e (alignToPage start) size).events = [] := by
  obtain ⟨hmod, hle, hlt⟩ := alignToPage_spec (n := start) (by omega)
  rw [findAligned, addrAdd_eq_pure (by omega), pure_bind]
  split_ifs with hfits hroom
  · rfl
  · have hnext : add32 (alignToPage start) pageSize = alignToPage start + 4096 := by
      rw [pageSize, add32_of_lt (by omega)]
    rw [findAligned, hnext, addrAdd_eq_pure (by omega), pure_bind]
    split_ifs with hfits' hroom'
    · rfl
    · rw [sub32_of_le (by omega) (by omega), blockMetaSize] at hroom'
      omega
    · rfl
  · rfl

theorem findHoleFrom_events (holes : List Block) (i : Nat) (hholes : ∀ b ∈ holes, Stored m b ∧ b.last ≤ 0xE0000000)
    (hsize : size ≤ 0x1F380000) : (findHoleFrom m size align i (holes.map Block.addr)).events = [] := by
  induction holes generalizing i with
  | nil => rfl
  | cons b holes ih =>
    obtain ⟨hb, hlast⟩ := hholes b (List.mem_cons_self ..)
    have hrest := ih (i + 1) fun c hc => hholes c (List.mem_cons_of_mem _ hc)
    simp only [Block.last] at hlast
    have hstart : addrAdd b.addr headerSize = pure (b.addr + 9) := addrAdd_eq_pure (by simp only [headerSize]; omega)
    rw [List.map_cons, findHoleFrom, hstart, pure_bind, hb.size]
    cases align with
    | true =>
      rw [if_pos rfl, addrAdd_eq_pure (by omega), pure_bind]
      have hends : Quiet (fun _ => True) (findAligned (0xFFFFE + 2) (b.addr + 9) (b.addr + 9 + b.size)
          (alignToPage (b.addr + 9)) size) _ := findAligned_quiet 0xFFFFE (by omega) (by omega)
      refine hends.events_bind (findAligned_events 0xFFFFE (by omega) (by omega) hsize) fun r _ => ?_
      cases r with
      | none => exact hrest
      | some allocPos => rfl
    | false =>
      rw [if_neg (by simp)]
      split_ifs
      · rfl
      · exact hrest

theorem Tiled.findHole_events (hl : Tiled h bs) (hsize : size ≤ 0x1F380000) : (h.findHole size align).events = [] := by
  obtain ⟨holes, hindex, hholes⟩ := hl.listed.exists_holes
  rw [findHole, hindex]
  exact findHoleFrom_events holes 0 (fun b hb => ⟨hl.stored b (hholes b hb).1, hl.upper (hholes b hb).1⟩) hsize

theorem insertIndex_logs (h : Kheap) (header : Nat) :
    Logs .refused (h.index.length < kheapIndexNum) (h.insertIndex header) := by
  constructor
  · intro hlt
    rw [insertIndex, OrderedArray.insert, if_neg (by omega)]
    rfl
  · intro hge
    rw [insertIndex, OrderedArray.insert, if_pos (by omega)]
    exact List.mem_singleton_self _

theorem removeIndex_events (h : Kheap) (header : Nat) (site : Stop) : (h.removeIndex header site).events = [] :=
  events_check_bind fun _ => rfl

theorem expand_events (h : Kheap) {expandSize : Nat} (hlt : h.endAddress + alignToPage expandSize < 2 ^ 32) :
    (h.expand expandSize).events = [] := by
  rw [expand]
  split_ifs
  · rfl
  · rw [addrAdd_eq_pure hlt, pure_bind]
    exact events_check_bind fun _ => rfl

theorem cutFront_events (hlast : b.last ≤ 0xE0000000) (hpos : b.addr + 26 < pos) (hroom : pos ≤ b.addr + 9 + b.size)
    (hlt : h.index.length < kheapIndexNum) : (h.cutFront b.addr b.size pos).events = [] := by
  rw [cutFront_eq hlast hpos hroom]
  simp only [Block.last] at hlast
  refine (makeBlock_ends (A := fun _ => True) (by omega) (by omega)).events_bind (makeBlock_events (by omega)) fun m _ => ?_
  exact (insertIndex_ends (A := fun _ => True) _ _).events_bind ((insertIndex_logs _ _).quiet hlt) fun _ _ => rfl

theorem takeBlock_logs {header blockSize : Nat} (hlast : header + blockSize + 17 ≤ 0xE0000000) (hpos : 0 < size)
    (hfit : size ≤ blockSize) :
    Logs .refused (blockSize - size ≤ 17 ∨ h.index.length < kheapIndexNum) (h.takeBlock header blockSize size) := by
  have hremain : sub32 blockSize size = blockSize - size := sub32_of_le hfit (by omega)
  refine .check hfit ?_
  simp only [hremain, blockMetaSize]
  by_cases hsmall : blockSize - size ≤ 17
  · simp only [hsmall, if_true]
    refine Logs.after (makeBlock_ends (by omega) (by omega)) (makeBlock_events (by omega)) fun m _ => ?_
    simp only [Nat.lt_irrefl, if_false]
    exact .of_events rfl (.inl trivial)
  · simp only [hsmall, if_false, false_or]
    refine Logs.after (makeBlock_ends hpos (by omega)) (makeBlock_events (by omega)) fun m _ => ?_
    rw [if_pos (by omega)]
    refine .check (by omega) ?_
    rw [addrAdd_eq_pure (by omega), pure_bind, sub32_of_le (by omega) (by omega)]
    refine Logs.after (makeBlock_ends (by omega) (by omega)) (makeBlock_events (by omega)) fun m' _ => ?_
    exact insertIndex_logs { h with mem := m' } _

/-- A hole of the index is used: its own entry becomes free for the hole in front of the block. -/
theorem useHole_logs {k : Nat} (hl : Tiled h bs) (hsize : 0 < size) (hb : b ∈ bs) (hk : k < h.index.length)
    (hcap : h.index.length ≤ kheapIndexNum) (hget : OrderedArray.get h.index k = b.addr) (hfits : Fits b size align pos) :
    Logs .refused (RestRoom align h.index.length (pos + size) b.last) (h.useHole size align k pos) := by
  have hstored := hl.stored b hb
  have hlast := hl.upper hb
  have hroom := hfits.room
  have hremoved : (OrderedArray.remove h.index k).2.length = h.index.length - 1 := by
    rw [OrderedArray.remove, if_neg (by omega), List.length_eraseIdx_of_lt hk]
  have hblock := hlast
  simp only [Block.last] at hblock
  simp only [useHole, hget, hstored.size]
  refine .check hstored.magic ?_
  cases halign : align with
  | false =>
    have hpos := hfits.plain halign
    simp only [Bool.false_eq_true, if_false, Traced.pure_bind]
    refine Logs.then_silent ((takeBlock_logs hblock hsize (by omega)).congr ?_) fun _ => rfl
    simp only [hremoved]
    exact iff_of_true (.inr (by omega)) (by simp [RestRoom])
  | true =>
    obtain ⟨-, hgap⟩ := hfits.aligned halign
    simp only [if_true]
    refine Logs.after (cutFront_ends hlast hgap (by omega)) (cutFront_events hlast hgap (by omega) ?_) ?_
    · simp only [hremoved]
      omega
    · rintro ⟨header, blockSize, h'⟩ ⟨hheader, hend, m, index, rfl, hlength⟩
      simp only [hremoved] at hheader hend hlength
      dsimp only
      have hlen := hend
      simp only [Block.last] at hlen
      refine Logs.then_silent ((takeBlock_logs (by omega) hsize (by omega)).congr ?_) fun _ => rfl
      have hentries := hlength (by omega)
      simp only [RestRoom, forall_const, hentries, Block.last]
      omega

/-- The last hole leaves the index and enters it again. -/
theorem extend_hole_events (hl : Tiled h (xs ++ [b])) (hb : b.hole = true) (hmem : b.addr ∈ h.index)
    (hcap : h.index.length ≤ kheapIndexNum) (hn : alignToPage (add32 size 17) = n) (hpos : 0 < n)
    (hlt : h.endAddress + n < 2 ^ 32) : (h.extend size).events = [] := by
  obtain ⟨hlast, hheader, hlower, hupper⟩ := hl.last_header
  have hstored := hl.stored b (by simp)
  simp only [Block.last] at hlast
  refine (expand_ends (A := fun _ => True) h hn hpos hlt fun _ => trivial).events_bind ?_ ?_
  · have hsum : h.endAddress + alignToPage (add32 size blockMetaSize) < 2 ^ 32 := by
      rwa [blockMetaSize, hn]
    exact expand_events h hsum
  · rintro _ ⟨total, rfl, -⟩
    simp only [hheader, hstored.hole, hstored.size, hb]
    rw [if_pos (by simp), add32_of_lt (by omega)]
    refine (makeBlock_ends (A := fun _ => True) (by omega) (by omega)).events_bind (makeBlock_events (by omega)) fun m _ => ?_
    refine Ends.events_bind (removeIndex_ends (A := fun _ => True) _ fun _ => trivial) (removeIndex_events ..) ?_
    rintro _ ⟨-, rfl⟩
    refine (insertIndex_logs _ _).quiet ?_
    have hpositive := List.length_pos_of_mem hmem
    simp only [List.length_erase_of_mem hmem]
    omega

/-- The appended hole needs an entry of its own. -/
theorem extend_allocated_logs (hl : Tiled h (xs ++ [b])) (hb : b.hole = false) (hn : alignToPage (add32 size 17) = n)
    (hpos : 17 < n) (hmax : h.endAddress + n ≤ h.maxAddress) :
    Logs .refused (h.index.length < kheapIndexNum) (h.extend size) := by
  obtain ⟨hlast, hheader, hlower, hupper⟩ := hl.last_header
  have hstored := hl.stored b (by simp)
  have hmaxAddr := hl.max
  rw [kheapMaxAddr] at hmaxAddr
  refine Logs.after (expand_ends h hn (by omega) (by omega) (by omega)) ?_ ?_
  · have hsum : h.endAddress + alignToPage (add32 size blockMetaSize) < 2 ^ 32 := by
      rw [blockMetaSize, hn]
      omega
    exact expand_events h hsum
  · rintro _ ⟨total, rfl, -⟩
    simp only [hheader, hstored.hole, hb]
    have hsize : sub32 n blockMetaSize = n - 17 := by
      rw [blockMetaSize, sub32_of_le (by omega) (by omega)]
    rw [if_neg (by simp), hsize]
    refine Logs.after (makeBlock_ends (by omega) (by omega)) (makeBlock_events (by omega)) fun m _ => ?_
    exact insertIndex_logs ⟨m, h.index, h.startAddress, h.endAddress + n, total, h.maxAddress⟩ _

/-- What a round logs. -/
theorem alloc_round_logs {P : Prop} (hl : Tiled h bs) (hpos : 0 < size) (hsize : size ≤ 0x1F380000)
    (hfound : ∀ k, ∀ b ∈ bs, k < h.index.length → OrderedArray.get h.index k = b.addr → b.hole = true →
      Fits b size align (fitPos align b.addr) → (h.findHole size align).outcome = .ok (some (k, fitPos align b.addr)) →
      Logs .refused P (h.useHole size align k (fitPos align b.addr)))
    (hnone : (∀ b ∈ bs, b.addr ∈ h.index → ∀ pos, ¬ Fits b size align pos) → (h.findHole size align).outcome = .ok none →
      Logs .refused P (h.extend size >>= fun h => alloc rounds h size align)) :
    Logs .refused P (alloc (rounds + 1) h size align) := by
  have hends : Ends (fun _ => False) (h.findHole size align) _ :=
    findHole_ends hl (by omega) fun _ b hb _ => hl.noWrappedFit hsize hb
  obtain ⟨r, hout, -⟩ := hends.exists_ok
  have hvalue : Ends (fun _ => False) (h.findHole size align) fun a => a = r := ⟨by rw [hout]; rfl⟩
  refine .check hpos (Logs.after (hends.and hvalue) (hl.findHole_events hsize) ?_)
  rintro found ⟨⟨hsome, hno⟩, rfl⟩
  cases found with
  | none => exact hnone (hno rfl) hout
  | some found =>
    obtain ⟨k, pos⟩ := found
    obtain ⟨hk, b, hb, hget, hhole, -, hfits, hfirst⟩ := hsome k pos rfl
    obtain rfl := hfits.eq_fitPos hfirst
    exact hfound k b hb hk hget hhole hfits hout

/-- The last block is a hole that has room for the request behind `k` expansions, and not before. -/
theorem alloc_last_logs {k : Nat} (rounds : Nat) (hl : Tiled h (xs ++ [b])) (hb : b.hole = true) (hmem : b.addr ∈ h.index)
    (hcap : h.index.length ≤ kheapIndexNum) (hpos : 0 < size) (hsize : size ≤ 0x1F380000)
    (hn : alignToPage (add32 size 17) = n) (hn0 : 0 < n) (hmax : h.endAddress + k * n ≤ h.maxAddress)
    (hothers : ∀ c ∈ xs, c.hole = true → ∀ pos, ¬ Fits c size align pos)
    (hfit : fitPos align b.addr + size + 8 ≤ h.endAddress + k * n)
    (hleast : ∀ j < k, h.endAddress + j * n < fitPos align b.addr + size + 8) :
    Logs .refused (RestRoom align h.index.length (fitPos align b.addr + size) (h.endAddress + k * n))
      (alloc (rounds + k + 1) h size align) := by
  obtain ⟨hlast, -, -, hupper⟩ := hl.last_header
  induction k generalizing h b with
  | zero =>
    rw [Nat.zero_mul, Nat.add_zero] at hfit ⊢
    refine alloc_round_logs hl hpos hsize (fun j c hc hj hget hhole hfits _ => ?_) fun hno _ => ?_
    · rcases List.mem_append.mp hc with hc | hc
      · exact absurd hfits (hothers c hc hhole _)
      · obtain rfl := List.mem_singleton.mp hc
        rw [← hlast]
        exact useHole_logs hl hpos (by simp) hj hcap hget hfits
    · exact absurd (fits_fitPos (by rwa [hlast])) (hno b (by simp) hmem _)
  | succ k ih =>
    refine alloc_round_logs hl hpos hsize (fun j c hc hj hget hhole hfits _ => ?_) fun _ _ => ?_
    · rcases List.mem_append.mp hc with hc | hc
      · exact absurd hfits (hothers c hc hhole _)
      · obtain rfl := List.mem_singleton.mp hc
        have hroom := hfits.room
        have hshort := hleast 0 (Nat.succ_pos k)
        simp only [Block.last] at hlast
        omega
    · have hmaxAddr := hl.max
      rw [kheapMaxAddr] at hmaxAddr
      rw [Nat.succ_mul] at hmax
      have hextend := extend_hole_ends (A := fun _ => False) hl hb hn hn0 (by omega) (by omega) (absurd hmem)
      refine Logs.after hextend (extend_hole_events hl hb hmem hcap hn hn0 (by omega)) ?_
      rintro h' ⟨hl', hend, -, hindex⟩
      obtain ⟨hmem', hlength⟩ := hindex hcap
      have hsum : ∀ j, h'.endAddress + j * n = h.endAddress + (j + 1) * n := by
        intro j
        rw [hend, Nat.succ_mul]
        omega
      have hrest := ih (b := ⟨b.addr, b.size + n, true⟩) hl' rfl hmem' (by omega) (by rw [hsum, hl'.max, ← hl.max]; rwa [Nat.succ_mul])
        (by rw [hsum]; exact hfit) (fun j hj => by rw [hsum]; exact hleast (j + 1) (by omega)) hl'.last_header.1
        hl'.last_header.2.2.2
      rw [hsum, hlength] at hrest
      exact hrest

/-- The rounds behind the first expansion, which was made at the end `e` of the heap. -/
theorem alloc_behind_logs {e : Nat} (rounds : Nat) (hl : Tiled h (xs ++ [b])) (hb : b.hole = true) (hmem : b.addr ∈ h.index)
    (hcap : h.index.length ≤ kheapIndexNum) (hpos : 0 < size) (hsize : size ≤ 0x1F380000)
    (hn : alignToPage (add32 size 17) = n) (hpage : e % 4096 = 0) (hle : b.addr ≤ e) (hend : h.endAddress = e + n)
    (hmax : e + n + n ≤ h.maxAddress) (hothers : ∀ c ∈ xs, c.hole = true → ∀ pos, ¬ Fits c size align pos) :
    Logs .refused (RestRoom align h.index.length (fitPos align b.addr + size)
      (if fitPos align b.addr + size + 8 ≤ e + n then e + n else e + n + n)) (alloc (rounds + 2) h size align) := by
  obtain ⟨hn0, hnsize, -⟩ := expandSize_spec hsize
  rw [hn] at hn0 hnsize
  have hfit : fitPos align b.addr + size + 8 ≤ e + n + n := by
    cases align with
    | false =>
      have hplain : fitPos false b.addr = b.addr + 9 := rfl
      omega
    | true =>
      have haligned : fitPos true b.addr = (b.addr + 26) / 4096 * 4096 + 4096 := rfl
      omega
  split_ifs with hfirst
  · have hlogs := alloc_last_logs (k := 0) (rounds + 1) hl hb hmem hcap hpos hsize hn (by omega)
      (by rw [hend, Nat.zero_mul]; omega) hothers (by rw [hend, Nat.zero_mul]; exact hfirst) nofun
    rwa [hend, Nat.zero_mul] at hlogs
  · have hlogs := alloc_last_logs (k := 1) rounds hl hb hmem hcap hpos hsize hn (by omega)
      (by rw [hend, Nat.one_mul]; exact hmax) hothers (by rw [hend, Nat.one_mul]; exact hfit) (fun j hj => by
        rw [Nat.lt_one_iff.mp hj, Nat.zero_mul]
        omega)
    rwa [hend, Nat.one_mul] at hlogs

/-- An allocation enters all its holes exactly if the index has room for them. -/
theorem alloc_logs (rounds : Nat) (hl : Laid h bs) (hpage : h.endAddress % 4096 = 0) (hcap : h.index.length ≤ kheapIndexNum)
    (hpos : 0 < size) (hroom : h.endAddress + 2 * (size + 4113) ≤ h.maxAddress) :
    Logs .refused (AllocRoom h size align) (alloc (rounds + 3) h size align) := by
  have hmax := hl.max
  have ht := hl.tiled
  obtain ⟨xs, b, rfl, hlast⟩ := ht.last_block
  obtain ⟨-, hheader, hlower, hupper⟩ := ht.last_header
  rw [kheapMaxAddr] at hmax
  have hblock := hlast
  simp only [Block.last] at hblock
  have hsize : size ≤ 0x1F380000 := by omega
  obtain ⟨hn0, hn, hnlt⟩ := expandSize_spec hsize
  generalize hexpand : alignToPage (add32 size 17) = n at hn0 hn hnlt
  have hstored := ht.stored b (by simp)
  refine alloc_round_logs ht hpos hsize (fun k c hc hk hget hhole hfits hout => ?_) fun hno hout => ?_
  · refine (useHole_logs ht hpos hc hk hcap hget hfits).congr ?_
    simp only [AllocRoom, hout, hget, (ht.stored c hc).size, Block.last]
  · have hothers : ∀ c ∈ xs ++ [b], c.hole = true → ∀ pos, ¬ Fits c size align pos :=
      fun c hc hhole => hno c hc (hl.mem_index hc hhole)
    have hblockMeta : blockMetaSize = 17 := rfl
    cases hhole : b.hole with
    | true =>
      have hmem := hl.mem_index (b := b) (by simp) hhole
      refine Logs.after (extend_hole_ends ht hhole hexpand (by omega) (by omega) (by omega) (absurd hmem))
        (extend_hole_events ht hhole hmem hcap hexpand (by omega) (by omega)) ?_
      rintro h' ⟨hl', hend, -, hindex⟩
      obtain ⟨hmem', hlength⟩ := hindex hcap
      have hlogs := alloc_behind_logs (b := ⟨b.addr, b.size + n, true⟩) rounds hl' rfl hmem' (by omega) hpos hsize
        hexpand hpage (by simp only; omega) hend (by rw [hl'.max, kheapMaxAddr]; omega)
        fun c hc => hothers c (List.mem_append_left _ hc)
      refine hlogs.congr (iff_of_eq ?_)
      simp only [AllocRoom, hout, hheader, hstored.hole, hhole, endBehind, hblockMeta, hexpand, hlength]
      exact (if_pos (by simp)).symm
    | false =>
      have hextend := extend_allocated_ends (A := fun _ => False) ht hhole hexpand (by omega) (by omega) (by omega)
      suffices hrest : _ → ∀ h', _ → Logs .refused
          (RestRoom align (h.index.length + 1) (fitPos align h.endAddress + size) (h.endBehind size align h.endAddress))
          (alloc (rounds + 2) h' size align) by
        refine ((extend_allocated_logs ht hhole hexpand (by omega) (by omega)).bind hextend hrest).congr (iff_of_eq ?_)
        simp only [AllocRoom, hout, hheader, hstored.hole, hhole]
        exact (if_neg (by simp)).symm
      · rintro hlt h' ⟨hl', hend, hindex, -⟩
        obtain ⟨hmem', hlength⟩ := hindex hlt
        have hbehind := alloc_behind_logs rounds hl' rfl hmem' (by omega) hpos hsize hexpand hpage (Nat.le_refl _) hend
          (by rw [hl'.max, kheapMaxAddr]; omega) hothers
        rw [hlength] at hbehind
        simp only [endBehind, hblockMeta, hexpand]
        exact hbehind

/-! ## Releases -/

/-- The block in front of the header is a hole, as far as `free` sees it. -/
def LeftHole (h : Kheap) (header : Nat) : Prop :=
  read32 h.mem (sub32 header footerSize) = kheapMagic ∧ isHoleAt h.mem (headerAt h.mem (sub32 header footerSize)) = 1

/-- The block at the address behind a footer is a hole, as far as `free` sees it. -/
def RightHole (h : Kheap) (rightHeader : Nat) : Prop :=
  read32 h.mem rightHeader = kheapMagic ∧ isHoleAt h.mem rightHeader ≠ 0

/-- The index has room for the hole that `free` enters. -/
def FreeRoom (h : Kheap) (ptr : Nat) : Prop :=
  h.index.length < kheapIndexNum ∨ RightHole h (ptr + sizeAt h.mem (ptr - 9) + 8) ∨ LeftHole h (ptr - 9)

section Neighbours

variable (htiles : Tiles Block.addr Block.last h.startAddress (xs ++ b :: ys) h.endAddress)
  (hstored : ∀ c ∈ xs ++ b :: ys, Stored h.mem c) (hfenced : Fenced h)

include htiles hstored hfenced

theorem rightHole_iff : RightHole h b.last ↔ ∃ y, ys.head? = some y ∧ y.hole = true := by
  obtain ⟨p, -, -, -, hys⟩ := tiles_append.mp htiles
  cases ys with
  | nil =>
    have hend : b.last = h.endAddress := hys
    exact iff_of_false (fun hright => hfenced.back (hend ▸ hright.1)) (by simp)
  | cons y ys =>
    have hy := hstored y (by simp)
    have haddr : y.addr = b.last := hys.1
    rw [RightHole, ← haddr, and_iff_right hy.magic, hy.hole]
    simp

theorem leftHole_iff (hstart : 8 ≤ h.startAddress) (hupper : h.endAddress ≤ 0xE0000000) :
    LeftHole h b.addr ↔ ∃ x, xs.getLast? = some x ∧ x.hole = true := by
  have hmem := htiles.mem (x := b) (by simp)
  obtain ⟨p, hxs, rfl, -, -⟩ := tiles_append.mp htiles
  have hfooter : sub32 b.addr footerSize = b.addr - 8 := by
    rw [footerSize, sub32_of_le (by omega) (by omega)]
  rcases List.eq_nil_or_concat xs with rfl | ⟨zs, x, rfl⟩
  · have hfirst : h.startAddress = b.addr := hxs
    refine iff_of_false (fun hleft => hfenced.front ?_) (by simp)
    rw [hfirst, ← hfooter]
    exact hleft.1
  · rw [List.concat_eq_append] at hxs hstored ⊢
    have hx := hstored x (by simp)
    obtain ⟨q, -, -, -, hlast⟩ := tiles_append.mp hxs
    have hlast : x.last = b.addr := hlast
    have hfoot : b.addr - 8 = x.addr + 9 + x.size := by
      simp only [Block.last] at hlast
      omega
    rw [LeftHole, hfooter, hfoot, hx.footHeader, and_iff_right hx.footMagic, hx.hole, List.getLast?_concat]
    simp

end Neighbours

variable {ptr : Nat}

/-- The first merge logs nothing and takes the hole behind the block off the index. -/
theorem mergeRight_ends (hf : Freeing h bs ptr h' xs b ys) : (h'.mergeRight b.addr b.last).events = [] ∧
    Ends (fun _ => False) (h'.mergeRight b.addr b.last) (fun h'' =>
      (∃ b' ys', b'.addr = b.addr ∧ Freeing h bs ptr h'' xs b' ys') ∧
      (RightHole h' b.last → h''.index.length + 1 = h'.index.length) ∧
      (¬ RightHole h' b.last → h''.index.length = h'.index.length)) := by
  have hevents : (h'.mergeRight b.addr b.last).events = [] := by
    rw [mergeRight]
    split_ifs with hright
    · obtain ⟨y, hy, -⟩ := (rightHole_iff hf.tiles hf.stored hf.fenced).mp hright
      obtain ⟨ys, rfl⟩ := List.head?_eq_some_iff.mp hy
      have hupper := hf.upper
      obtain ⟨p, -, -, -, haddr, -, hys⟩ := tiles_append.mp hf.tiles
      have hle := hys.le
      simp only [Block.last] at haddr hle
      have hb := hf.stored b (by simp)
      have hsum : add32 (add32 b.size y.size) blockMetaSize = b.size + y.size + 17 := by
        have hsizes : add32 b.size y.size = b.size + y.size := add32_of_lt (by omega)
        rw [hsizes, blockMetaSize, add32_of_lt (by omega)]
      have hsize := (hf.stored y (by simp)).size
      rw [haddr] at hsize
      rw [hb.size, Block.last, hsize, hsum]
      refine (makeBlock_ends (A := fun _ => True) (by omega) (by omega)).events_bind (makeBlock_events (by omega)) fun m _ => ?_
      exact removeIndex_events ..
    · rfl
  refine ⟨hevents, ?_⟩
  have hquiet : Ends (fun _ => False) (h'.mergeRight b.addr b.last) fun h'' =>
      ∃ b' ys', b'.addr = b.addr ∧ Freeing h bs ptr h'' xs b' ys' := by
    refine ((mergeRight_quiet hf).ends hevents).mono ?_
    rintro h'' ⟨b', ys', haddr, hf', -⟩
    exact ⟨b', ys', haddr, hf'⟩
  refine hquiet.and_returned ?_
  rw [mergeRight]
  split_ifs with hright
  · refine (ends_any _).bind fun m _ => ?_
    refine (removeIndex_ends _ fun _ => trivial).mono ?_
    rintro _ ⟨hmem, rfl⟩
    refine ⟨fun _ => ?_, absurd hright⟩
    have hpositive := List.length_pos_of_mem hmem
    simp only [List.length_erase_of_mem hmem] at hpositive ⊢
    omega
  · exact .pure ⟨fun h => absurd h hright, fun _ => rfl⟩

/-- The second merge logs nothing and takes the hole in front of the block off the index. -/
theorem mergeLeft_ends (hf : Freeing h bs ptr h' xs b ys) : (h'.mergeLeft b.addr).events = [] ∧
    Ends (fun _ => False) (h'.mergeLeft b.addr) (fun r =>
      (LeftHole h' b.addr → r.2.index.length + 1 = h'.index.length) ∧
      (¬ LeftHole h' b.addr → r.2.index.length = h'.index.length)) := by
  have hevents : (h'.mergeLeft b.addr).events = [] := by
    simp only [mergeLeft]
    split_ifs with hleft
    · obtain ⟨x, hx, -⟩ := (leftHole_iff hf.tiles hf.stored hf.fenced hf.eight_le hf.upper).mp hleft
      obtain ⟨zs, rfl⟩ := List.getLast?_eq_some_iff.mp hx
      have hupper := hf.upper
      obtain ⟨p, hzs, rfl, -, hys⟩ := tiles_append.mp hf.tiles
      obtain ⟨q, -, -, -, hlast⟩ := tiles_append.mp hzs
      have hlast : x.last = b.addr := hlast
      have hle := hys.le
      simp only [Block.last] at hlast hle
      have hb := hf.stored b (by simp)
      have hx := hf.stored x (by simp)
      have hfooter : sub32 b.addr footerSize = x.addr + 9 + x.size := by
        rw [footerSize, sub32_of_le (by omega) (by omega)]
        omega
      have hsum : add32 (add32 x.size b.size) blockMetaSize = x.size + b.size + 17 := by
        have hsizes : add32 x.size b.size = x.size + b.size := add32_of_lt (by omega)
        rw [hsizes, blockMetaSize, add32_of_lt (by omega)]
      rw [hfooter, hx.footHeader, hx.size, hb.size, hsum]
      refine (makeBlock_ends (A := fun _ => True) (by omega) (by omega)).events_bind (makeBlock_events (by omega)) fun m _ => ?_
      exact (ends_any _).events_bind (removeIndex_events ..) fun _ _ => rfl
    · rfl
  refine ⟨hevents, ?_⟩
  have hquiet : Ends (fun _ => False) (h'.mergeLeft b.addr) fun _ => True :=
    ((mergeLeft_quiet hf).ends hevents).mono fun _ _ => trivial
  suffices hreturned : Ends (fun _ => True) (h'.mergeLeft b.addr) fun r =>
      (LeftHole h' b.addr → r.2.index.length + 1 = h'.index.length) ∧
      (¬ LeftHole h' b.addr → r.2.index.length = h'.index.length) from
    (hquiet.and_returned hreturned).mono fun _ h => h.2
  simp only [mergeLeft]
  split_ifs with hleft
  · refine (ends_any _).bind fun m _ => ?_
    refine (removeIndex_ends _ fun _ => trivial).bind ?_
    rintro _ ⟨hmem, rfl⟩
    refine .pure ⟨fun _ => ?_, absurd hleft⟩
    have hpositive := List.length_pos_of_mem hmem
    simp only [List.length_erase_of_mem hmem] at hpositive ⊢
    omega
  · exact .pure ⟨fun h => absurd h hleft, fun _ => rfl⟩

/-- A release enters its hole exactly if the index has room for it. -/
theorem free_logs (hl : Laid h bs) (hfenced : Fenced h) (hptr : ptr ∈ live bs) (hcap : h.index.length ≤ kheapIndexNum) :
    Logs .refused (FreeRoom h ptr) (h.free ptr) := by
  obtain ⟨b, hb, rfl⟩ := List.mem_map.mp hptr
  obtain ⟨hmem, hhole⟩ := List.mem_filter.mp hb
  have hhole : b.hole = false := by simpa using hhole
  have hlower := hl.lower hmem
  have hupper := hl.upper hmem
  have hstored := hl.stored b hmem
  simp only [Block.last] at hupper
  have hheader : sub32 (b.addr + 9) headerSize = b.addr := by
    rw [headerSize, sub32_of_le (by omega) (by omega)]
    omega
  obtain ⟨xs, ys, rfl⟩ := List.append_of_mem hmem
  have hfreeing := hl.freeing hfenced hhole
  have hright : b.addr + 9 + b.size + footerSize = Block.last { b with hole := true } := by
    simp only [Block.last, footerSize]
    omega
  have hlast : b.addr + 9 + b.size + 8 = b.last := by
    simp only [Block.last]
    omega
  have hrightHole := rightHole_iff hl.tiles hl.stored hfenced
  have hrightHole' := rightHole_iff hfreeing.tiles hfreeing.stored hfreeing.fenced
  have hstart : 8 ≤ h.startAddress := hfreeing.eight_le
  have hleftHole := leftHole_iff hl.tiles hl.stored hfenced hstart hfreeing.upper
  rw [free, if_neg (by omega)]
  simp only [hheader, hstored.size]
  rw [addrAdd_eq_pure (by omega), pure_bind]
  refine .check hstored.magic (.check hstored.footMagic ?_)
  rw [addrAdd_eq_pure (by simp only [footerSize]; omega), pure_bind, hright]
  obtain ⟨hevents, hends⟩ := mergeRight_ends hfreeing
  refine Logs.after hends hevents ?_
  rintro h₁ ⟨⟨b₁, ys₁, haddr, hf₁⟩, hmerged, hunmerged⟩
  have haddr : b₁.addr = b.addr := haddr
  obtain ⟨hevents₁, hends₁⟩ := mergeLeft_ends hf₁
  have hleftHole₁ := leftHole_iff hf₁.tiles hf₁.stored hf₁.fenced hf₁.eight_le hf₁.upper
  rw [haddr] at hevents₁ hends₁ hleftHole₁
  refine Logs.after hends₁ hevents₁ ?_
  rintro ⟨newHole, h₂⟩ ⟨hmerged₁, hunmerged₁⟩
  refine (insertIndex_logs h₂ newHole).congr ?_
  have hroom : FreeRoom h (b.addr + 9) ↔ h.index.length < kheapIndexNum ∨ RightHole h b.last ∨ LeftHole h b.addr := by
    rw [FreeRoom, Nat.add_sub_cancel, hstored.size, hlast]
  rw [hroom, hrightHole, ← hrightHole', hleftHole, ← hleftHole₁]
  simp only at hmerged hunmerged hmerged₁ hunmerged₁ ⊢
  by_cases hr : RightHole { h with mem := write8 h.mem (b.addr + 4) 1 } (Block.last { b with hole := true })
  · have hlength := hmerged hr
    by_cases hl : LeftHole h₁ b.addr
    · have hlength₁ := hmerged₁ hl
      exact iff_of_true (by omega) (.inr (.inl hr))
    · have hlength₁ := hunmerged₁ hl
      exact iff_of_true (by omega) (.inr (.inl hr))
  · have hlength := hunmerged hr
    by_cases hl : LeftHole h₁ b.addr
    · have hlength₁ := hmerged₁ hl
      exact iff_of_true (by omega) (.inr (.inr hl))
    · have hlength₁ := hunmerged₁ hl
      rw [hlength₁, hlength, or_iff_left (not_or.mpr ⟨hr, hl⟩)]

end LuckOS.Kheap
