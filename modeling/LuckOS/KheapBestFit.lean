import LuckOS.KheapExpansions
import LuckOS.KheapRoom

/-!
# Best fit

The index is sorted by size, so that the first hole with room for a request is the smallest one. In a hole
an aligned request is placed at the first page boundary that leaves room for a hole in front of it. This
holds of a search in which no sum wraps.
-/

namespace LuckOS.Kheap

open ByteMemory Outcome Traced Tiling

variable {m : Memory} {h : Kheap} {b c : Block} {bs : List Block} {size pos : Nat} {align : Bool}

/-- The request fits in the hole at `pos` and at no address before it. -/
def FitsFirst (b : Block) (size : Nat) (align : Bool) (pos : Nat) : Prop :=
  Fits b size align pos ∧ ∀ a, Fits b size align a → pos ≤ a

/-- There is room for the request in the hole. -/
def HasRoom (b : Block) (size : Nat) (align : Bool) : Prop := ∃ a, Fits b size align a

/-- The loop over the page boundaries returns the first one that fits. -/
theorem findAligned_first (rounds : Nat) (hlast : b.last ≤ 0xE0000000) :
    Quiet (fun _ => False)
      (findAligned (rounds + 2) (b.addr + 9) (b.addr + 9 + b.size) (alignToPage (b.addr + 9)) size)
      (fun r => (∀ a, r = some a → FitsFirst b size true a) ∧ (r = none → ¬ HasRoom b size true)) := by
  simp only [Block.last] at hlast
  obtain ⟨hmod, hle, hlt⟩ := alignToPage_spec (n := b.addr + 9) (by omega)
  have hfirst : ∀ a, Fits b size true a → alignToPage (b.addr + 9) ≤ a := by
    intro a ha
    obtain ⟨haligned, hgap⟩ := ha.aligned rfl
    omega
  rw [findAligned]
  refine (addrAdd_quiet _ _).bind fun last hlast' => ?_
  obtain ⟨rfl, -⟩ := hlast'
  split_ifs with hfits hroom
  · rw [sub32_of_le hle (by omega), blockMetaSize] at hroom
    apply Quiet.pure
    refine ⟨?_, by simp⟩
    rintro a ⟨⟩
    exact ⟨⟨by simp, fun _ => ⟨hmod, by omega⟩, hfits⟩, hfirst⟩
  · have hnext : add32 (alignToPage (b.addr + 9)) pageSize = alignToPage (b.addr + 9) + 4096 := by
      rw [pageSize, add32_of_lt (by omega)]
    rw [sub32_of_le hle (by omega), blockMetaSize] at hroom
    have hsecond : ∀ a, Fits b size true a → alignToPage (b.addr + 9) + 4096 ≤ a := by
      intro a ha
      obtain ⟨haligned, hgap⟩ := ha.aligned rfl
      have hle' := hfirst a ha
      omega
    rw [findAligned, hnext]
    refine (addrAdd_quiet _ _).bind fun last hlast' => ?_
    obtain ⟨rfl, -⟩ := hlast'
    rw [sub32_of_le (by omega) (by omega), blockMetaSize]
    split_ifs with hfits' hroom'
    · apply Quiet.pure
      refine ⟨?_, by simp⟩
      rintro a ⟨⟩
      exact ⟨⟨by simp, fun _ => ⟨by omega, by omega⟩, hfits'⟩, hsecond⟩
    · omega
    · apply Quiet.pure
      refine ⟨by simp, ?_⟩
      rintro - ⟨a, ha⟩
      have hle' := hsecond a ha
      have hroom' := ha.room
      omega
  · apply Quiet.pure
    refine ⟨by simp, ?_⟩
    rintro - ⟨a, ha⟩
    have hle' := hfirst a ha
    have hroom' := ha.room
    omega

/-- A search returns the smallest hole with room. -/
structure BestFit (holes : List Block) (size : Nat) (align : Bool) (b : Block) (pos : Nat) : Prop where
  first : FitsFirst b size align pos
  smallest : ∀ c ∈ holes, HasRoom c size align → b.size ≤ c.size

/-- A hole without room is passed. -/
theorem BestFit.cons {holes : List Block} (hbest : BestFit holes size align b pos)
    (hno : ¬ HasRoom c size align) :
    BestFit (c :: holes) size align b pos := by
  refine ⟨hbest.first, fun d hd hroom => ?_⟩
  rcases List.mem_cons.mp hd with rfl | hd
  · exact absurd hroom hno
  · exact hbest.smallest d hd hroom

/-- The first hole of a sorted index is the best fit if it has room. -/
theorem BestFit.head {holes : List Block} (hsorted : (b :: holes).Pairwise fun b c => b.size ≤ c.size)
    (hfirst : FitsFirst b size align pos) : BestFit (b :: holes) size align b pos := by
  refine ⟨hfirst, fun d hd _ => ?_⟩
  rcases List.mem_cons.mp hd with rfl | hd
  · exact Nat.le_refl _
  · exact (List.pairwise_cons.mp hsorted).1 d hd

/-- What the search of a sorted index returns. -/
structure FoundBest (holes : List Block) (size : Nat) (align : Bool) (i : Nat)
    (r : Option (Nat × Nat)) : Prop where
  found : ∀ j pos, r = some (j, pos) → ∃ k b, j = i + k ∧ holes[k]? = some b ∧
    BestFit holes size align b pos
  missing : r = none → ∀ b ∈ holes, ¬ HasRoom b size align

theorem findHoleFrom_best (holes : List Block) (i : Nat)
    (hholes : ∀ b ∈ holes, Stored m b ∧ b.last ≤ 0xE0000000)
    (hsorted : holes.Pairwise fun b c => b.size ≤ c.size) :
    Quiet (fun _ => False) (findHoleFrom m size align i (holes.map Block.addr))
      (FoundBest holes size align i) := by
  induction holes generalizing i with
  | nil => exact .pure ⟨by simp, fun _ b hb => absurd hb (by simp)⟩
  | cons b holes ih =>
    obtain ⟨hb, hlast⟩ := hholes b (List.mem_cons_self ..)
    have hrest := ih (i + 1) (fun c hc =>
      hholes c (List.mem_cons_of_mem _ hc)) (List.pairwise_cons.mp hsorted).2
    have hpass : ¬ HasRoom b size align → Quiet (fun _ => False)
        (findHoleFrom m size align (i + 1) (holes.map Block.addr))
          (FoundBest (b :: holes) size align i) := by
      intro hno
      refine hrest.mono fun r hr => ⟨?_, ?_⟩
      · rintro j pos rfl
        obtain ⟨k, c, rfl, hc, hbest⟩ := hr.found j pos rfl
        exact ⟨k + 1, c, by omega, hc, hbest.cons hno⟩
      · rintro rfl
        exact List.forall_mem_cons.mpr ⟨hno, hr.missing rfl⟩
    have htake : ∀ {a}, FitsFirst b size align a →
      FoundBest (b :: holes) size align i (some (i, a)) := by
      intro a hfirst
      refine ⟨?_, by simp⟩
      rintro j pos ⟨⟩
      exact ⟨0, b, rfl, rfl, .head hsorted hfirst⟩
    rw [List.map_cons, findHoleFrom]
    refine (addrAdd_quiet _ _).bind fun start hstart => ?_
    obtain ⟨rfl, -⟩ := hstart
    simp only [headerSize, hb.size]
    cases align with
    | true =>
      rw [if_pos rfl]
      refine (addrAdd_quiet _ _).bind fun e he => ?_
      obtain ⟨rfl, -⟩ := he
      refine (findAligned_first 0xFFFFE hlast).bind fun r hr => ?_
      cases r with
      | none => exact hpass (hr.2 rfl)
      | some a => exact .pure (htake (hr.1 a rfl))
    | false =>
      rw [if_neg (by decide)]
      split_ifs with hfits
      · exact .pure (htake ⟨⟨fun _ => rfl, by simp, by omega⟩, fun a ha => (ha.plain rfl).ge⟩)
      · apply hpass
        rintro ⟨a, ha⟩
        have hplain := ha.plain rfl
        have hroom := ha.room
        omega

/-- `find_hole` is best fit and misses no hole. -/
theorem findHole_best_fit (hl : Laid h bs) (_ : 1 ≤ size)
    (hwrap : (h.findHole size align).events = []) :
    ∃ r, (h.findHole size align).outcome = .ok r ∧
      (∀ k pos, r = some (k, pos) → k < h.index.length ∧ ∃ b ∈ bs,
        OrderedArray.get h.index k = b.addr ∧ b.hole = true ∧
        Fits b size align pos ∧ (∀ a, Fits b size align a → pos ≤ a) ∧
        ∀ c ∈ bs, c.hole = true → (∃ a, Fits c size align a) → b.size ≤ c.size) ∧
      (r = none → ∀ b ∈ bs, b.hole = true → ∀ a, ¬ Fits b size align a) := by
  obtain ⟨holes, hindex, hperm, hsorted⟩ := hl.indexed.exists_holes
  have hholes : ∀ b, b ∈ holes ↔ b ∈ bs ∧ b.hole = true := fun b => hperm.mem_iff.trans List.mem_filter
  have hstored : ∀ b ∈ holes, Stored h.mem b ∧ b.last ≤ 0xE0000000 := fun b hb =>
    ⟨hl.stored b ((hholes b).mp hb).1, hl.upper ((hholes b).mp hb).1⟩
  have hquiet : Quiet (fun _ => False) (findHoleFrom h.mem size align 0 (holes.map Block.addr))
    (FoundBest holes size align 0) :=
    findHoleFrom_best holes 0 hstored hsorted
  rw [← hindex] at hquiet
  obtain ⟨r, hout, hsearched⟩ := (hquiet.ends hwrap).exists_ok
  refine ⟨r, hout, fun k pos hr => ?_, fun hr b hb hhole a ha => ?_⟩
  · obtain ⟨j, b, rfl, hget, hbest⟩ := hsearched.found k pos hr
    obtain ⟨hb, hhole⟩ := (hholes b).mp (List.mem_of_getElem? hget)
    have hlt := (List.getElem?_eq_some_iff.mp hget).1
    refine ⟨by rw [hindex, List.length_map]; omega, b, hb, ?_, hhole, hbest.first.1, hbest.first.2, ?_⟩
    · rw [OrderedArray.get, Nat.zero_add, List.getD_eq_getElem?_getD, hindex, List.getElem?_map, hget]
      rfl
    · intro c hc hhole'
      exact hbest.smallest c ((hholes c).mpr ⟨hc, hhole'⟩)
  · exact hsearched.missing hr b ((hholes b).mpr ⟨hb, hhole⟩) ⟨a, ha⟩

/-- A hole of 300 bytes and one of 20 bytes behind it. -/
def twoHoles : List Block := [⟨0xC0C80000, 300, true⟩, ⟨0xC0C8013D, 1, false⟩, ⟨0xC0C8014F, 20, true⟩]

theorem exists_two_holes : ∃ h : Kheap, Laid h twoHoles := by
  have htiles : Tiles Block.addr Block.last (kheapStartAddr + 4 * kheapIndexNum) twoHoles 0xC0C80174 :=
    ⟨rfl, by decide, rfl, by decide, rfl, by decide, rfl⟩
  have hend : 0xC0C80174 ≤ kheapMaxAddr := by decide
  obtain ⟨m, hm⟩ := exists_stored htiles (by decide) (by decide)
  exact ⟨⟨m, [0xC0C8014F, 0xC0C80000], kheapStartAddr + 4 * kheapIndexNum, 0xC0C80174, 0,
    kheapMaxAddr⟩, htiles, hm,
    ⟨[⟨0xC0C8014F, 20, true⟩, ⟨0xC0C80000, 300, true⟩], rfl, .swap .., by decide⟩, rfl, rfl,
    hend, nofun⟩

/-- The smaller hole is taken, although the larger one lies in front of it. -/
theorem findHole_smaller : ∃ (h : Kheap) (k : Nat),
    (h.findHole 10 false).outcome = .ok (some (k, 0xC0C80158)) := by
  obtain ⟨h, hl⟩ := exists_two_holes
  have hquiet : (h.findHole 10 false).events = [] := hl.tiled.findHole_events (by decide)
  obtain ⟨r, hout, hsome, hnone⟩ := findHole_best_fit hl (by decide) hquiet
  have hroom : Fits ⟨0xC0C8014F, 20, true⟩ 10 false 0xC0C80158 := ⟨fun _ => rfl, nofun, by decide⟩
  have hmem : ⟨0xC0C8014F, 20, true⟩ ∈ twoHoles := by decide
  cases r with
  | none => exact absurd hroom (hnone rfl _ hmem rfl _)
  | some found =>
    obtain ⟨k, pos⟩ := found
    obtain ⟨-, b, hb, -, hhole, hfits, -, hsmallest⟩ := hsome k pos rfl
    have hle := hsmallest _ hmem rfl ⟨_, hroom⟩
    have hcases : b = ⟨0xC0C80000, 300, true⟩ ∨ b = ⟨0xC0C8013D, 1, false⟩ ∨
      b = ⟨0xC0C8014F, 20, true⟩ := by
      simpa [twoHoles] using hb
    rcases hcases with rfl | rfl | rfl
    · exact absurd hle (by decide)
    · cases hhole
    · refine ⟨h, k, ?_⟩
      rw [hout, hfits.plain rfl]

end LuckOS.Kheap
