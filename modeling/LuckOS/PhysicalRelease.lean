import LuckOS.PhysicalPaging
import LuckOS.ReleasePages

/-!
# `release_pages` over physical memory

A directory that names itself in entry 769 shows its entries and those of its tables in the window.
If no entry of the range names the directory, then the nested loops of `release_pages` are one loop over
the pages of the range that have a table. Two entries of the directory may name the same table, as entries 0 and 768
do, and a page that is released takes the page with the same entry along.
-/

namespace LuckOS.PhysicalPaging

open ByteMemory PageWalk BootLoader
open Paging (Pte tablePages)

variable {s t u : PhysicalPaging} {a i j p q v w x lo hi n : Nat} {m : Memory}

/-- The directory shows itself and its tables through its entry 769. -/
structure ShowsTables (m : Memory) (cr3 : Nat) : Prop where
  present : read32 m (cr3 + 4 * 769) % 2 = 1
  self : read32 m (cr3 + 4 * 769) / 4096 * 4096 = cr3

/-- Where the entry of a page is, if its table is present. -/
def entryAt (s : PhysicalPaging) (p : Nat) : Option Nat := pteAddr s.memory s.cr3 (p * 4096)

/-- The table of a page is present. -/
def hasTable (s : PhysicalPaging) (p : Nat) : Bool := (s.entryAt p).isSome

/-- The entry of a page, zero when its table is not present. -/
def entry (s : PhysicalPaging) (p : Nat) : Pte := pageEntry s.memory s.cr3 p

/-! ## Accesses to the tables -/

theorem entryAt_eq (s : PhysicalPaging) (p : Nat) : s.entryAt p =
    if read32 s.memory (s.cr3 + 4 * (p / 1024)) % 2 = 1 then
      some (read32 s.memory (s.cr3 + 4 * (p / 1024)) / 4096 * 4096 + 4 * (p % 1024)) else none := by
  have hindex : p * 4096 / 2 ^ 22 = p / 1024 := by omega
  have hpage : p * 4096 / 4096 = p := by omega
  rw [entryAt, pteAddr, pdeOf, hindex, hpage]

theorem translate_pteAt (hs : ShowsTables s.memory s.cr3) (hp : p < 2 ^ 20) (ha : s.entryAt p = some a) :
    s.translate (pteAt p) = .ok a := by
  have hwalk := walk_own (v := pteAt p) hs.present hs.self hp rfl
  rw [translate, hwalk]
  rw [entryAt] at ha
  rw [ha]

theorem translate_pteAt_none (hs : ShowsTables s.memory s.cr3) (hp : p < 2 ^ 20) (ha : s.entryAt p = none) :
    s.translate (pteAt p) = .error (.pageFault (pteAt p)) := by
  have hwalk := walk_own (v := pteAt p) hs.present hs.self hp rfl
  rw [translate, hwalk]
  rw [entryAt] at ha
  rw [ha]

theorem translate_pdeAt (hs : ShowsTables s.memory s.cr3) (hi : i < 1024) :
    s.translate (pdeAt i) = .ok (s.cr3 + 4 * i) := by
  have haddr : pdeAt i = pteAt (769 * 1024 + i) := by
    simp only [pdeAt, pteAt, pageDirVirtual, pageTablesVirtual]
    omega
  have hindex : (769 * 1024 + i) / 1024 = 769 := by omega
  have hoffset : (769 * 1024 + i) % 1024 = i := by omega
  rw [haddr, translate_pteAt hs (by omega)]
  rw [entryAt_eq, hindex, hoffset, if_pos hs.present, hs.self]

theorem loadEntry_pdeAt (hs : ShowsTables s.memory s.cr3) (hi : i < 1024) :
    s.loadEntry (pdeAt i) = .ok (entryOf (read32 s.memory (s.cr3 + 4 * i))) := by
  rw [loadEntry, load, translate_pdeAt hs hi]
  rfl

theorem present_iff_hasTable (s : PhysicalPaging) (i : Nat) (hp : p / 1024 = i) :
    (entryOf (read32 s.memory (s.cr3 + 4 * i))).present = s.hasTable p := by
  rw [hasTable, entryAt_eq, hp, entryOf]
  split_ifs with h
  · rw [decide_eq_true h]
    rfl
  · rw [decide_eq_false h]
    rfl

theorem entryAt_aligned (h : s.entryAt p = some a) : a % 4 = 0 := by
  rw [entryAt_eq] at h
  split_ifs at h
  have := Option.some.inj h
  omega

/-- A page below 4 GB whose table is not the directory. -/
def Outside (s : PhysicalPaging) (p : Nat) : Prop :=
  p < 2 ^ 20 ∧ ∀ a, s.entryAt p = some a → a + 4 ≤ s.cr3 ∨ s.cr3 + 4096 ≤ a

theorem outside_of_ne (hs : ShowsTables s.memory s.cr3) (hp : p < 2 ^ 20)
    (hapart : read32 s.memory (s.cr3 + 4 * (p / 1024)) % 2 = 1 →
      read32 s.memory (s.cr3 + 4 * (p / 1024)) / 4096 * 4096 ≠ s.cr3) : s.Outside p := by
  refine ⟨hp, fun a ha => ?_⟩
  rw [entryAt_eq] at ha
  split_ifs at ha with hpresent
  have hself := hs.self
  have hne := hapart hpresent
  have heq := Option.some.inj ha
  omega

/-! ## One page -/

/-- Nothing but the entries at `slots` has changed, and these are not present any more. -/
structure Unmapped (s : PhysicalPaging) (slots : Nat → Prop) (t : PhysicalPaging) : Prop where
  cr3 : t.cr3 = s.cr3
  memory : ∀ x, (∀ a, slots a → ¬(a ≤ x ∧ x < a + 4)) → t.memory x = s.memory x
  absent : ∀ a, slots a → read32 t.memory a % 2 = 0

theorem cr3_changeCowFrameRefcount (s : PhysicalPaging) (frame : Nat) (delta : Int) :
    (s.changeCowFrameRefcount frame delta).2.cr3 = s.cr3 ∧
    (s.changeCowFrameRefcount frame delta).2.memory = s.memory := by
  rw [changeCowFrameRefcount]
  split_ifs <;> exact ⟨rfl, rfl⟩

theorem unmapped_zeroEntry (hs : ShowsTables t.memory t.cr3) (hp : p < 2 ^ 20) (ha : t.entryAt p = some a) :
    ∃ u, t.zeroEntry (pteAt p) = .ok u ∧ Unmapped t (· = a) u := by
  refine ⟨{ t with memory := write32 t.memory a 0 }, ?_, rfl, fun x hx => ?_, ?_⟩
  · rw [zeroEntry, store, translate_pteAt hs hp ha]
    rfl
  · have hout := hx a rfl
    exact write32_of_ne (by omega)
  · rintro b rfl
    exact congrArg (· % 2) (read32_write32 (by decide))

/-- `release_page` on a page that has a table. -/
theorem releasePage_unmapped (hs : ShowsTables s.memory s.cr3) (hp : p < 2 ^ 20) (ha : s.entryAt p = some a)
    (freeFrame : Bool) : ∃ t, s.releasePage (p * pageSize) freeFrame = .ok t ∧ Unmapped s (· = a) t := by
  have hdiv : p * pageSize / 2 ^ 12 = p := Nat.mul_div_cancel p (by decide)
  have hload : s.loadEntry (pteAt p) = .ok (entryOf (read32 s.memory a)) := by
    rw [loadEntry, load, translate_pteAt hs hp ha]
    rfl
  simp only [releasePage, hdiv, hload, bind, Except.bind]
  cases hpresent : (entryOf (read32 s.memory a)).present with
  | false =>
    refine ⟨s, rfl, rfl, fun _ _ => rfl, ?_⟩
    rintro b rfl
    rw [entryOf, decide_eq_false_iff_not] at hpresent
    omega
  | true =>
    rw [if_neg (by decide)]
    have hzero : ∀ t : PhysicalPaging, t.cr3 = s.cr3 → t.memory = s.memory →
        ∃ u, t.zeroEntry (pteAt p) = .ok u ∧ Unmapped s (· = a) u := by
      intro t hcr3 hmem
      obtain ⟨u, hu, hcr3', hmem', habsent⟩ := unmapped_zeroEntry (t := t) (by rw [hcr3, hmem]; exact hs) hp
        (by rw [entryAt, hcr3, hmem]; exact ha)
      exact ⟨u, hu, hcr3'.trans hcr3, fun x hx => (hmem' x hx).trans (congrFun hmem x), habsent⟩
    cases freeFrame with
    | false => exact hzero s rfl rfl
    | true =>
      obtain ⟨hcr3, hmem⟩ := cr3_changeCowFrameRefcount s (entryOf (read32 s.memory a)).frame (-1)
      refine hzero _ ?_ ?_
      · split_ifs
        · exact hcr3
        · exact hcr3
      · split_ifs
        · exact hmem
        · exact hmem

/-! ## Several pages -/

namespace Unmapped

variable {slots slots' : Nat → Prop}

theorem refl (s : PhysicalPaging) : Unmapped s (fun _ => False) s := ⟨rfl, fun _ _ => rfl, fun _ h => h.elim⟩

/-- The directory is the same. -/
theorem directory (h : Unmapped s slots t) (hslots : ∀ a, slots a → a + 4 ≤ s.cr3 ∨ s.cr3 + 4096 ≤ a) (hi : i < 1024) :
    read32 t.memory (t.cr3 + 4 * i) = read32 s.memory (s.cr3 + 4 * i) := by
  rw [h.cr3]
  refine read32_congr fun x hx hx' => h.memory x fun a ha => ?_
  have hapart := hslots a ha
  omega

theorem showsTables (h : Unmapped s slots t) (hs : ShowsTables s.memory s.cr3)
    (hslots : ∀ a, slots a → a + 4 ≤ s.cr3 ∨ s.cr3 + 4096 ≤ a) : ShowsTables t.memory t.cr3 where
  present := by
    rw [h.directory hslots (by decide)]
    exact hs.present
  self := by
    rw [h.directory hslots (by decide), h.cr3]
    exact hs.self

theorem entryAt (h : Unmapped s slots t) (hslots : ∀ a, slots a → a + 4 ≤ s.cr3 ∨ s.cr3 + 4096 ≤ a) (hp : p < 2 ^ 20) :
    t.entryAt p = s.entryAt p := by
  rw [entryAt_eq, entryAt_eq, h.directory hslots (by omega)]

theorem outside (h : Unmapped s slots t) (hslots : ∀ a, slots a → a + 4 ≤ s.cr3 ∨ s.cr3 + 4096 ≤ a)
    (hp : s.Outside p) : t.Outside p := by
  rw [Outside, h.entryAt hslots hp.1, h.cr3]
  exact hp

/-- The words are aligned, so that a word is one of those that have changed or apart from them. -/
theorem word (h : Unmapped s slots t) (haligned : ∀ a, slots a → a % 4 = 0) (ha : a % 4 = 0) (hnot : ¬ slots a) :
    read32 t.memory a = read32 s.memory a := by
  refine read32_congr fun x hx hx' => h.memory x fun b hb => ?_
  have hb' := haligned b hb
  have hne : b ≠ a := by
    rintro rfl
    exact hnot hb
  omega

theorem trans (h : Unmapped s slots t) (h' : Unmapped t slots' u) (hslots : ∀ a, slots a → a % 4 = 0)
    (hslots' : ∀ a, slots' a → a % 4 = 0) : Unmapped s (fun a => slots a ∨ slots' a) u where
  cr3 := h'.cr3.trans h.cr3
  memory x hx := (h'.memory x fun a ha => hx a (.inr ha)).trans (h.memory x fun a ha => hx a (.inl ha))
  absent a ha := by
    by_cases ha' : slots' a
    · exact h'.absent a ha'
    · have hold := ha.resolve_right ha'
      rw [h'.word hslots' (hslots a hold) ha']
      exact h.absent a hold

theorem congr (h : Unmapped s slots t) (heq : ∀ a, slots a ↔ slots' a) : Unmapped s slots' t where
  cr3 := h.cr3
  memory x hx := h.memory x fun a ha => hx a ((heq a).mp ha)
  absent a ha := h.absent a ((heq a).mpr ha)

end Unmapped

/-- `release_page` is called on the pages one after the other. -/
def releaseEach (s : PhysicalPaging) (ps : List Nat) (freeFrame : Bool) : Except Stop PhysicalPaging :=
  ps.foldlM (fun s p => s.releasePage (p * pageSize) freeFrame) s

/-- The entries of some pages. -/
def slotsOf (s : PhysicalPaging) (ps : List Nat) (a : Nat) : Prop := ∃ p ∈ ps, s.entryAt p = some a

theorem slotsOf_apart {ps : List Nat} (hps : ∀ p ∈ ps, s.Outside p) (ha : s.slotsOf ps a) :
    a + 4 ≤ s.cr3 ∨ s.cr3 + 4096 ≤ a := by
  obtain ⟨p, hp, hslot⟩ := ha
  exact (hps p hp).2 a hslot

theorem slotsOf_aligned {ps : List Nat} (ha : s.slotsOf ps a) : a % 4 = 0 := by
  obtain ⟨p, -, hslot⟩ := ha
  exact entryAt_aligned hslot

theorem releaseEach_unmapped (hs : ShowsTables s.memory s.cr3) {ps : List Nat} (hps : ∀ p ∈ ps, s.Outside p)
    (htable : ∀ p ∈ ps, s.hasTable p) (freeFrame : Bool) :
    ∃ t, s.releaseEach ps freeFrame = .ok t ∧ Unmapped s (s.slotsOf ps) t := by
  induction ps generalizing s with
  | nil => exact ⟨s, rfl, (Unmapped.refl s).congr fun a => by simp [slotsOf]⟩
  | cons p ps ih =>
    obtain ⟨a, ha⟩ := Option.isSome_iff_exists.mp (htable p List.mem_cons_self)
    have hout := hps p List.mem_cons_self
    obtain ⟨t, ht, hfirst⟩ := releasePage_unmapped hs hout.1 ha freeFrame
    have hapart : ∀ b, b = a → b + 4 ≤ s.cr3 ∨ s.cr3 + 4096 ≤ b := by
      rintro b rfl
      exact hout.2 b ha
    have hsame : ∀ q ∈ ps, t.entryAt q = s.entryAt q :=
      fun q hq => hfirst.entryAt hapart (hps q (List.mem_cons_of_mem p hq)).1
    obtain ⟨u, hu, hrest⟩ := ih (hfirst.showsTables hs hapart)
      (fun q hq => hfirst.outside hapart (hps q (List.mem_cons_of_mem p hq))) fun q hq => by
        rw [hasTable, hsame q hq]
        exact htable q (List.mem_cons_of_mem p hq)
    refine ⟨u, ?_, ?_⟩
    · rw [releaseEach, List.foldlM_cons, ht]
      exact hu
    · refine (hfirst.trans hrest (fun b hb => hb ▸ entryAt_aligned ha) fun b hb => slotsOf_aligned hb).congr fun b => ?_
      constructor
      · rintro (rfl | ⟨q, hq, hslot⟩)
        · exact ⟨p, List.mem_cons_self, ha⟩
        · exact ⟨q, List.mem_cons_of_mem p hq, (hsame q hq).symm.trans hslot⟩
      · rintro ⟨q, hq, hslot⟩
        rcases List.mem_cons.mp hq with rfl | hq
        · exact .inl (Option.some.inj (hslot.symm.trans ha))
        · exact .inr ⟨q, hq, (hsame q hq).trans hslot⟩

theorem releaseEach_append (ps qs : List Nat) (freeFrame : Bool) : s.releaseEach (ps ++ qs) freeFrame =
    s.releaseEach ps freeFrame >>= fun s => s.releaseEach qs freeFrame := by
  rw [releaseEach, List.foldlM_append]
  rfl

/-! ## The loops -/

/-- The pages of the table that is present, or none. -/
def presentPages (s : PhysicalPaging) (lo hi i : Nat) : List Nat :=
  (tablePages lo hi i).filter s.hasTable

theorem presentPages_of_present (h : (entryOf (read32 s.memory (s.cr3 + 4 * i))).present = true) :
    s.presentPages lo hi i = tablePages lo hi i := by
  rw [presentPages, List.filter_eq_self]
  intro p hp
  rw [← present_iff_hasTable s i (Paging.div_of_mem_tablePages hp), h]

theorem presentPages_of_absent (h : (entryOf (read32 s.memory (s.cr3 + 4 * i))).present = false) :
    s.presentPages lo hi i = [] := by
  rw [presentPages, List.filter_eq_nil_iff]
  intro p hp
  rw [← present_iff_hasTable s i (Paging.div_of_mem_tablePages hp), h]
  exact Bool.false_ne_true

/-- The outer loop releases the pages of the tables that are present. -/
theorem foldlM_tables (hs : ShowsTables s.memory s.cr3) {is : List Nat} (his : ∀ i ∈ is, i < 1024)
    (hout : ∀ i ∈ is, ∀ p ∈ tablePages lo hi i, s.Outside p) (freeFrame : Bool) :
    (is.foldlM (fun (s : PhysicalPaging) i => do
      let pde ← s.loadEntry (pdeAt i)
      if !pde.present then Except.ok s
      else s.releaseEach (tablePages lo hi i) freeFrame) s) = s.releaseEach (is.flatMap (s.presentPages lo hi)) freeFrame := by
  induction is generalizing s with
  | nil => rfl
  | cons i is ih =>
    have hrest : ∀ j ∈ is, ∀ p ∈ tablePages lo hi j, s.Outside p := fun j hj => hout j (List.mem_cons_of_mem i hj)
    have hlt : ∀ j ∈ is, j < 1024 := fun j hj => his j (List.mem_cons_of_mem i hj)
    rw [List.foldlM_cons, loadEntry_pdeAt hs (his i List.mem_cons_self), List.flatMap_cons, releaseEach_append]
    simp only [bind, Except.bind]
    cases hpresent : (entryOf (read32 s.memory (s.cr3 + 4 * i))).present with
    | false =>
      rw [presentPages_of_absent hpresent, if_pos (by decide)]
      exact ih hs hlt hrest
    | true =>
      have hpages := hout i List.mem_cons_self
      have htables : ∀ p ∈ tablePages lo hi i, s.hasTable p = true := by
        intro p hp
        rw [← present_iff_hasTable s i (Paging.div_of_mem_tablePages hp), hpresent]
      obtain ⟨t, ht, hunmapped⟩ := releaseEach_unmapped hs hpages htables freeFrame
      have hapart : ∀ a, s.slotsOf (tablePages lo hi i) a → a + 4 ≤ s.cr3 ∨ s.cr3 + 4096 ≤ a :=
        fun a ha => slotsOf_apart hpages ha
      have hsame : is.flatMap (t.presentPages lo hi) = is.flatMap (s.presentPages lo hi) := by
        refine List.flatMap_congr fun j hj => List.filter_congr fun p hp => ?_
        rw [hasTable, hasTable, hunmapped.entryAt hapart (hrest j hj p hp).1]
      rw [presentPages_of_present hpresent, if_neg (by decide), ht]
      dsimp only
      rw [← hsame]
      exact ih (hunmapped.showsTables hs hapart) hlt fun j hj p hp => hunmapped.outside hapart (hrest j hj p hp)

/-- The pages of a range that have a table. -/
def rangePages (s : PhysicalPaging) (lo n : Nat) : List Nat := (List.range' lo n).filter s.hasTable

/-- The range does not meet the window of the page tables. -/
def ApartFromWindow (virtualAddr pages : Nat) : Prop :=
  ∀ p, virtualAddr / pageSize ≤ p → p < virtualAddr / pageSize + pages → p < 0xC0400 ∨ 0xC0800 ≤ p

/-- No present entry of the directory for the range names the directory, the own entry 769 apart. -/
def TablesApart (s : PhysicalPaging) (virtualAddr pages : Nat) : Prop :=
  ∀ p, virtualAddr / pageSize ≤ p → p < virtualAddr / pageSize + pages → p / 1024 ≠ 769 →
    read32 s.memory (s.cr3 + 4 * (p / 1024)) % 2 = 1 → read32 s.memory (s.cr3 + 4 * (p / 1024)) / 4096 * 4096 ≠ s.cr3

theorem outside_of_range {virtualAddr pages : Nat} (hs : ShowsTables s.memory s.cr3)
    (hend : virtualAddr / pageSize + pages ≤ 2 ^ 20) (hwindow : ApartFromWindow virtualAddr pages)
    (htables : s.TablesApart virtualAddr pages) (hlo : virtualAddr / pageSize ≤ p)
    (hhi : p < virtualAddr / pageSize + pages) : s.Outside p := by
  have hrange := hwindow p hlo hhi
  exact outside_of_ne hs (by omega) (htables p hlo hhi (by omega))

/-- `release_pages` without the clamps of its loops. -/
theorem releasePages_eq (hs : ShowsTables s.memory s.cr3) {virtualAddr pages : Nat} (hpages : 1 ≤ pages)
    (hend : virtualAddr / pageSize + pages ≤ 2 ^ 20)
    (hout : ∀ p, virtualAddr / pageSize ≤ p → p < virtualAddr / pageSize + pages → s.Outside p) (freeFrame : Bool) :
    s.releasePages virtualAddr pages freeFrame =
      s.releaseEach (s.rangePages (virtualAddr / pageSize) pages) freeFrame := by
  rw [PhysicalPaging.releasePages]
  generalize virtualAddr / pageSize = start at hend hout
  have hpteEnd : Paging.u32 (start + pages) = start + pages := Nat.mod_eq_of_lt (by omega)
  have hlast : Paging.u32 (start + pages + (2 ^ 32 - 1)) = start + pages - 1 := by
    have hsum : start + pages + (2 ^ 32 - 1) = (start + pages - 1) + 2 ^ 32 := by omega
    rw [Paging.u32, hsum, Nat.add_mod_right, Nat.mod_eq_of_lt (by omega)]
  have htables : (start + pages - 1) / 1024 + 1 - start / 1024 = ((start + pages - 1) / 1024 - start / 1024) + 1 := by
    omega
  have hcover : (List.range' (start / 1024) ((start + pages - 1) / 1024 - start / 1024 + 1)).flatMap
      (tablePages start (start + pages)) = List.range' start (start + pages - start) := by
    apply Paging.flatMap_tablePages <;> omega
  rw [Nat.add_sub_cancel_left] at hcover
  have hpresent : (List.range' (start / 1024) ((start + pages - 1) / 1024 - start / 1024 + 1)).flatMap
      (s.presentPages start (start + pages)) = s.rangePages start pages := by
    rw [rangePages, ← hcover, List.filter_flatMap]
    rfl
  rw [hpteEnd, hlast, forRange, htables, ← hpresent]
  refine foldlM_tables hs (fun i hi => ?_) (fun i hi p hp => ?_) freeFrame
  · have := List.mem_range'_1.mp hi
    omega
  · have hmem := List.mem_range'_1.mp hp
    exact hout p (by omega) (by omega)

/-- `release_pages` is one call of `release_page` for each page of the range that has a table, in order. Only the
entries of these pages change, so that another page keeps its entry unless it shares the entry of one of them, and
no page of the range is mapped afterwards. -/
theorem release_pages_page_by_page (hs : ShowsTables s.memory s.cr3) {virtualAddr pages : Nat} (hpages : 1 ≤ pages)
    (hend : virtualAddr / pageSize + pages ≤ 2 ^ 20) (hwindow : ApartFromWindow virtualAddr pages)
    (htables : s.TablesApart virtualAddr pages) (freeFrame : Bool) :
    s.releasePages virtualAddr pages freeFrame =
      ((List.range' (virtualAddr / pageSize) pages).filter s.hasTable).foldlM
        (fun s p => s.releasePage (p * pageSize) freeFrame) s ∧
    ∃ t, s.releasePages virtualAddr pages freeFrame = .ok t ∧ t.cr3 = s.cr3 ∧
      (∀ x, t.memory x ≠ s.memory x → ∃ p, virtualAddr / pageSize ≤ p ∧ p < virtualAddr / pageSize + pages ∧
        ∃ a, s.entryAt p = some a ∧ a ≤ x ∧ x < a + 4) ∧
      (∀ q < 2 ^ 20, (∀ p, virtualAddr / pageSize ≤ p → p < virtualAddr / pageSize + pages →
        s.hasTable p → s.entryAt p ≠ s.entryAt q) → t.entry q = s.entry q) ∧
      ∀ p, virtualAddr / pageSize ≤ p → p < virtualAddr / pageSize + pages → (t.entry p).present = false := by
  have hrange : ∀ p, virtualAddr / pageSize ≤ p → p < virtualAddr / pageSize + pages → s.Outside p :=
    fun p hlo hhi => outside_of_range hs hend hwindow htables hlo hhi
  have hout : ∀ p ∈ s.rangePages (virtualAddr / pageSize) pages, s.Outside p := by
    intro p hp
    have hmem := List.mem_range'_1.mp (List.mem_of_mem_filter hp)
    exact hrange p hmem.1 hmem.2
  have htable : ∀ p ∈ s.rangePages (virtualAddr / pageSize) pages, s.hasTable p :=
    fun p hp => (List.mem_filter.mp hp).2
  obtain ⟨t, ht, hunmapped⟩ := releaseEach_unmapped hs hout htable freeFrame
  have hapart : ∀ a, s.slotsOf (s.rangePages (virtualAddr / pageSize) pages) a → a + 4 ≤ s.cr3 ∨ s.cr3 + 4096 ≤ a :=
    fun a ha => slotsOf_apart hout ha
  have hentry : ∀ q < 2 ^ 20, t.entry q = (s.entryAt q).elim .zero fun a => entryOf (read32 t.memory a) := by
    intro q hq
    rw [← hunmapped.entryAt hapart hq]
    rfl
  rw [releasePages_eq hs hpages hend hrange]
  refine ⟨rfl, t, ht, hunmapped.cr3, fun x hx => ?_, fun q hq hdistinct => ?_, fun p hlo hhi => ?_⟩
  · by_contra hnone
    refine hx (hunmapped.memory x fun a ⟨p, hp, hslot⟩ hin => hnone ?_)
    have hmem := List.mem_range'_1.mp (List.mem_of_mem_filter hp)
    exact ⟨p, hmem.1, hmem.2, a, hslot, hin.1, hin.2⟩
  · rw [hentry q hq]
    change _ = (s.entryAt q).elim Pte.zero fun a => entryOf (read32 s.memory a)
    cases hslot : s.entryAt q with
    | none => rfl
    | some a =>
      rw [Option.elim_some, Option.elim_some, hunmapped.word (fun b hb => slotsOf_aligned hb) (entryAt_aligned hslot)]
      rintro ⟨p, hp, hsame⟩
      have hmem := List.mem_range'_1.mp (List.mem_of_mem_filter hp)
      exact hdistinct p hmem.1 hmem.2 (htable p hp) (hsame.trans hslot.symm)
  · rw [hentry p (by omega)]
    cases hslot : s.entryAt p with
    | none => rfl
    | some a =>
      have hmem : p ∈ s.rangePages (virtualAddr / pageSize) pages := by
        refine List.mem_filter.mpr ⟨List.mem_range'_1.mpr ⟨hlo, hhi⟩, ?_⟩
        rw [hasTable, hslot]
        rfl
      have hzero := hunmapped.absent a ⟨p, hmem, hslot⟩
      rw [Option.elim_some, entryOf, decide_eq_false_iff_not]
      omega

/-! ## The tables of the boot loader -/

theorem showsTables_loaded (h : HasDir m) : ShowsTables (loaded m).memory (loaded m).cr3 where
  present := by
    change read32 m (0x101000 + 4 * 769) % 2 = 1
    rw [h 769 (by decide)]
    rfl
  self := by
    change read32 m (0x101000 + 4 * 769) / 4096 * 4096 = 0x101000
    rw [h 769 (by decide)]
    rfl

theorem tablesApart_loaded (h : HasDir m) {virtualAddr pages : Nat} (hend : virtualAddr / pageSize + pages ≤ 2 ^ 20) :
    (loaded m).TablesApart virtualAddr pages := by
  intro p _ hhi hne _
  have hlt : p / 1024 < 1024 := by omega
  change read32 m (0x101000 + 4 * (p / 1024)) / 4096 * 4096 ≠ 0x101000
  rw [h (p / 1024) hlt, pdeWord]
  split_ifs
  · decide
  · omega
  · decide

/-- The first page of the kernel has the entry of page 0. -/
theorem entryAt_loaded (h : HasDir m) : (loaded m).entryAt 0 = some 0x100000 ∧
    (loaded m).entryAt 0xC0000 = some 0x100000 := by
  have hlow : ∀ p < 2 ^ 20, p = 0 ∨ p = 0xC0000 → (loaded m).entryAt p = some 0x100000 := by
    intro p hp hlow
    change pteAddr m 0x101000 (p * 4096) = _
    rw [h.pteAddr hp, entryAddr, if_pos (by omega)]
    exact congrArg some (by omega)
  exact ⟨hlow 0 (by decide) (.inl rfl), hlow 0xC0000 (by decide) (.inr rfl)⟩

/-- The boot loader has set up its tables in a memory that was zero. -/
def bootTables : PhysicalPaging := loaded (kernelTables (setupPage fun _ => 0))

theorem mapped_bootTables : Mapped bootTables.memory := mapped_kernelTables fun _ _ => rfl

theorem outside_bootTables {virtualAddr pages : Nat} (hend : virtualAddr / pageSize + pages ≤ 2 ^ 20)
    (hwindow : ApartFromWindow virtualAddr pages) (hlo : virtualAddr / pageSize ≤ p)
    (hhi : p < virtualAddr / pageSize + pages) : bootTables.Outside p :=
  outside_of_range (showsTables_loaded mapped_bootTables.directory) hend hwindow
    (tablesApart_loaded mapped_bootTables.directory hend) hlo hhi

/-- `init_paging` unmaps the last page of the address space with the kernel binary. -/
theorem release_pages_page_by_page_binary : ∃ t, bootTables.releasePages 0xFFF00000 256 true = .ok t ∧
    (t.entry 0xFFFFF).present = false := by
  have hend : 0xFFF00000 / pageSize + 256 ≤ 2 ^ 20 := by decide
  have hwindow : ApartFromWindow 0xFFF00000 256 := fun p hp _ => .inr (Nat.le_trans (by decide) hp)
  obtain ⟨-, t, ht, -, -, -, habsent⟩ := release_pages_page_by_page (s := bootTables)
    (showsTables_loaded mapped_bootTables.directory) (by decide) hend hwindow
    (tablesApart_loaded mapped_bootTables.directory hend) true
  exact ⟨t, ht, habsent _ (by decide) (by decide)⟩

/-- Entries 0 and 768 of the directory name one table. The release of page 0 alone unmaps the page at 3 GB. -/
theorem release_pages_clears_other_entry : (bootTables.entry 0xC0000).present = true ∧
    ∃ t, bootTables.releasePages 0 1 false = .ok t ∧ (t.entry 0xC0000).present = false := by
  have hshows : ShowsTables bootTables.memory bootTables.cr3 := showsTables_loaded mapped_bootTables.directory
  have hentries : bootTables.entryAt 0 = some 0x100000 ∧ bootTables.entryAt 0xC0000 = some 0x100000 :=
    entryAt_loaded mapped_bootTables.directory
  obtain ⟨hzero, hkernel⟩ := hentries
  have hout : ∀ p, 0 / pageSize ≤ p → p < 0 / pageSize + 1 → bootTables.Outside p := by
    have hstart : 0 / pageSize = 0 := rfl
    exact fun p hlo hhi => outside_bootTables (by decide) (fun q _ _ => by omega) hlo hhi
  have hpage : ∀ p ∈ [0], bootTables.Outside p ∧ bootTables.hasTable p = true := by
    intro p hp
    obtain rfl := List.mem_singleton.mp hp
    refine ⟨hout 0 (Nat.le_refl _) Nat.zero_lt_one, ?_⟩
    rw [hasTable, hzero]
    rfl
  have hpages : bootTables.rangePages (0 / pageSize) 1 = [0] :=
    List.filter_eq_self.mpr fun p hp => (hpage p hp).2
  obtain ⟨t, ht, hunmapped⟩ := releaseEach_unmapped hshows (fun p hp => (hpage p hp).1) (fun p hp => (hpage p hp).2) false
  have hafter : t.entryAt 0xC0000 = some 0x100000 := by
    rw [hunmapped.entryAt (fun a ha => slotsOf_apart (fun p hp => (hpage p hp).1) ha) (by decide), hkernel]
  have hentry : t.entry 0xC0000 = entryOf (read32 t.memory 0x100000) := by
    change (t.entryAt 0xC0000).elim Pte.zero _ = _
    rw [hafter]
    rfl
  refine ⟨?_, t, (releasePages_eq hshows (by decide) (by decide) hout false).trans (by rw [hpages]; exact ht), ?_⟩
  · have hbefore : bootTables.entry 0xC0000 = Paging.loaderPte 0xC0000 :=
      mapped_bootTables.pages 0xC0000 (by decide) (by decide)
    rw [hbefore]
    rfl
  · have habsent := hunmapped.absent 0x100000 ⟨0, List.mem_singleton_self 0, hzero⟩
    rw [hentry, entryOf, habsent]
    rfl

end LuckOS.PhysicalPaging
