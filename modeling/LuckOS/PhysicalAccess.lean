import LuckOS.PhysicalTables

/-!
# Accesses of the paging code to physical memory

While the tables in memory are those of a state of `Paging`, the code reads the entries of this state
in the window, finds the pages where this state maps them, and clears and copies pages that hold no
table.
-/

namespace LuckOS.PhysicalPaging

open ByteMemory PageWalk BootLoader FrameContents Outcome
open Paging (Pte PageDir isUserPage isUserTable)

variable {M : PhysicalPaging} {m m' : Memory} {s t : Paging} {made : Option PageDir} {known : Nat → Prop} {e : Pte}
  {a f g i j n o p v w : Nat}

/-! ## Loops over a page -/

theorem ok_bind {ε α β : Type} (a : α) (f : α → Except ε β) : (Except.ok a >>= f) = f a := rfl

theorem store_eq (h : walk M.memory M.cr3 v = some a) : M.store v w = .ok { M with memory := write32 M.memory a w } := by
  rw [store, translate, h]
  rfl

theorem load_eq (h : walk M.memory M.cr3 v = some a) : M.load v = .ok (read32 M.memory a) := by
  rw [load, translate, h]
  rfl

theorem loadEntry_eq (h : walk M.memory M.cr3 v = some a) : M.loadEntry v = .ok (entryOf (read32 M.memory a)) := by
  rw [loadEntry, load_eq h]
  rfl

theorem storeEntry_eq (h : walk M.memory M.cr3 v = some a) :
    M.storeEntry v e = .ok { M with memory := write32 M.memory a (assignFields (read32 M.memory a) e) } := by
  rw [storeEntry, load_eq h]
  exact store_eq h

/-- The page at an address stays in a frame while this frame is written. -/
def StaysIn (M : PhysicalPaging) (page f g : Nat) : Prop :=
  ∀ m', SameBut f M.memory m' → ∀ o < 4096, walk m' M.cr3 (page + o) = some (g * 4096 + o)

/-- `clear_page` fills the frame of the page with zeros. -/
theorem clearPage_returns (h : M.StaysIn (v / pageSize * pageSize) f f) :
    ∃ m', M.clearPage v = .ok { M with memory := m' } ∧ SameBut f M.memory m' ∧ BytesIn m' f fun _ => 0 := by
  have hrange : List.range' 0 (pageSize / 4 - 0) = List.range 1024 := List.range_eq_range'.symm
  have hloop : Returns (M.clearPage v) fun N => N = { M with memory := N.memory } ∧
      SameBut f M.memory N.memory ∧ ∀ o < 4 * (List.range 1024).length, N.memory (f * 4096 + o) = 0 := by
    rw [clearPage, forRange, hrange]
    refine returns_foldlM (I := fun done (N : PhysicalPaging) => N = { M with memory := N.memory } ∧ SameBut f M.memory N.memory ∧
      ∀ o < 4 * done.length, N.memory (f * 4096 + o) = 0)
      ⟨rfl, .refl _ _, fun _ ho => (Nat.not_lt_zero _ ho).elim⟩ ?_
    rintro done i rest N hsplit ⟨hN, hsame, hzero⟩
    obtain ⟨hi, hlt⟩ := eq_length_of_range_eq hsplit
    have hcr3 : N.cr3 = M.cr3 := by rw [hN]; rfl
    have hwalk := h N.memory hsame (4 * i) (by omega)
    rw [← hcr3] at hwalk
    refine ⟨_, store_eq hwalk, by rw [hN], hsame.trans (sameBut_write32 hlt), fun o ho => ?_⟩
    rw [List.length_append, List.length_singleton] at ho
    by_cases hold : o < 4 * i
    · change write32 _ _ _ _ = _
      rw [write32_of_ne (by omega)]
      exact hzero o (by omega)
    · have hbyte : o = 4 * i ∨ o = 4 * i + 1 ∨ o = 4 * i + 2 ∨ o = 4 * i + 3 := by omega
      rcases hbyte with rfl | rfl | rfl | rfl <;> simp [write32, Nat.add_assoc]
  obtain ⟨N, hN, heq, hsame, hzero⟩ := hloop
  refine ⟨N.memory, hN.trans (congrArg _ heq), hsame, fun o ho => hzero o ?_⟩
  rw [List.length_range]
  omega

/-- `memcpy` copies a frame to another one. -/
theorem memcpy_returns (hdst : M.StaysIn v f f) (hsrc : M.StaysIn w f g) (hne : g ≠ f) :
    ∃ m', M.memcpy v w pageSize = .ok { M with memory := m' } ∧ SameBut f M.memory m' ∧
    BytesIn m' f fun o => M.memory (g * 4096 + o) := by
  have hrange : List.range' 0 (pageSize - 0) = List.range 4096 := List.range_eq_range'.symm
  have hloop : Returns (M.memcpy v w pageSize) fun N => N = { M with memory := N.memory } ∧
      SameBut f M.memory N.memory ∧
      ∀ o < (List.range 4096).length, N.memory (f * 4096 + o) = M.memory (g * 4096 + o) := by
    rw [memcpy, forRange, hrange]
    refine returns_foldlM (I := fun done (N : PhysicalPaging) => N = { M with memory := N.memory } ∧ SameBut f M.memory N.memory ∧
      ∀ o < done.length, N.memory (f * 4096 + o) = M.memory (g * 4096 + o))
      ⟨rfl, .refl _ _, fun _ ho => (Nat.not_lt_zero _ ho).elim⟩ ?_
    rintro done i rest N hsplit ⟨hN, hsame, hcopied⟩
    obtain ⟨hi, hlt⟩ := eq_length_of_range_eq hsplit
    have hcr3 : N.cr3 = M.cr3 := by rw [hN]; rfl
    have hload : N.loadByte (w + i) = .ok (M.memory (g * 4096 + i)) := by
      rw [loadByte, translate, hcr3, hsrc N.memory hsame i hlt]
      change Except.ok (N.memory (g * 4096 + i)) = _
      rw [hsame _ (by omega)]
    have hstore : N.storeByte (v + i) (M.memory (g * 4096 + i)) =
        .ok { N with memory := write8 N.memory (f * 4096 + i) (M.memory (g * 4096 + i)) } := by
      rw [storeByte, translate, hcr3, hdst N.memory hsame i hlt]
      rfl
    rw [hload]
    refine ⟨_, hstore, by rw [hN], hsame.trans (sameBut_write8 hlt), fun o ho => ?_⟩
    rw [List.length_append, List.length_singleton] at ho
    by_cases hold : o = i
    · rw [hold]
      exact if_pos rfl
    · change write8 _ _ _ _ = _
      rw [write8_of_ne (by omega)]
      exact hcopied o (by omega)
  obtain ⟨N, hN, heq, hsame, hcopied⟩ := hloop
  refine ⟨N.memory, hN.trans (congrArg _ heq), hsame, fun o ho => hcopied o ?_⟩
  rw [List.length_range]
  exact ho

/-! ## Walks -/

/-- A byte of a table in the window. -/
theorem walk_window {cr3 : Nat} (hs : ShowsTables m cr3) (hi : i < 1024) (hpresent : read32 m (cr3 + 4 * i) % 2 = 1)
    (ho : o < 4096) : walk m cr3 (pageTablesVirtual + i * pageSize + o) = some (read32 m (cr3 + 4 * i) / 4096 * 4096 + o) := by
  have hv : pageTablesVirtual + i * pageSize + o = 769 * 2 ^ 22 + i * 4096 + o := rfl
  have hindex : (769 * 2 ^ 22 + i * 4096 + o) / 2 ^ 22 = 769 := by omega
  have htable : (769 * 2 ^ 22 + i * 4096 + o) / 4096 % 1024 = i := by omega
  have hoffset : (769 * 2 ^ 22 + i * 4096 + o) % 4096 = o := by omega
  have hown : pdeOf m cr3 (769 * 2 ^ 22 + i * 4096 + o) = read32 m (cr3 + 4 * 769) := by rw [pdeOf, hindex]
  rw [hv, walk, pteAddr_eq hown hs.present, hs.self, htable, Option.bind_some, if_pos hpresent, hoffset]

namespace Describes

variable (h : Describes m s made known)

include h

theorem pde_word (hi : i < 1024) : entryOf (read32 m (s.crtDir.frame * 4096 + 4 * i)) = s.getPde i :=
  h.tables _ _ (.directory s.crt s.crtDir h.crtDir_dirAt) i hi

theorem pde_frame (hi : i < 1024) : read32 m (s.crtDir.frame * 4096 + 4 * i) / 4096 = (s.getPde i).frame :=
  congrArg Pte.frame (h.pde_word hi)

theorem pde_present (hi : i < 1024) :
    read32 m (s.crtDir.frame * 4096 + 4 * i) % 2 = 1 ↔ (s.getPde i).present = true := by
  rw [← h.pde_word hi, entryOf, decide_eq_true_eq]

theorem showsTables : ShowsTables m (s.crtDir.frame * 4096) := by
  have hown : entryOf (read32 m (s.crtDir.frame * 4096 + 4 * 769)) = .mapTo s.crtDir.frame :=
    (h.pde_word (by decide)).trans (h.own _ _ h.crtDir_dirAt)
  obtain ⟨hpresent, hframe⟩ := entryOf_mapTo_iff hown
  exact ⟨hpresent, by rw [hframe]⟩

theorem pteAddr_some (hp : p < 2 ^ 20) (hpresent : (s.getPde (p / 1024)).present) :
    pteAddr m (s.crtDir.frame * 4096) (p * 4096) = some ((s.getPde (p / 1024)).frame * 4096 + 4 * (p % 1024)) := by
  have hindex : p * 4096 / 2 ^ 22 = p / 1024 := by omega
  have hpage : p * 4096 / 4096 = p := by omega
  rw [pteAddr, pdeOf, hindex, hpage, if_pos ((h.pde_present (by omega)).mpr hpresent), h.pde_frame (by omega)]

theorem pteAddr_none (hp : p < 2 ^ 20) (hpresent : (s.getPde (p / 1024)).present = false) :
    pteAddr m (s.crtDir.frame * 4096) (p * 4096) = none := by
  have hindex : p * 4096 / 2 ^ 22 = p / 1024 := by omega
  rw [pteAddr, pdeOf, hindex, if_neg]
  rw [h.pde_present (by omega), hpresent]
  exact Bool.false_ne_true

/-- The entry of a page in its table. -/
theorem pte_word (hp : p < 2 ^ 20) (hne : p / 1024 ≠ 769) (hpresent : (s.getPde (p / 1024)).present) :
    entryOf (read32 m ((s.getPde (p / 1024)).frame * 4096 + 4 * (p % 1024))) = s.getPte p := by
  have hsplit : p / 1024 * 1024 + p % 1024 = p := Nat.div_add_mod' p 1024
  rw [h.entriesIn_table (by omega) hne hpresent _ (Nat.mod_lt _ (by decide))]
  exact congrArg s.getPte hsplit

/-- Where a page is mapped. -/
theorem walk_page (hp : p < 2 ^ 20) (hne : p / 1024 ≠ 769) (hpresent : (s.getPde (p / 1024)).present) (ho : o < 4096) :
    walk m (s.crtDir.frame * 4096) (p * 4096 + o) =
      if (s.getPte p).present then some ((s.getPte p).frame * 4096 + o) else none := by
  have hpage : (p * 4096 + o) / 4096 = p := by omega
  have hoffset : (p * 4096 + o) % 4096 = o := by omega
  have hword := h.pte_word hp hne hpresent
  rw [walk, ← pteAddr_page, hpage, h.pteAddr_some hp hpresent, Option.bind_some, hoffset, ← hword]
  simp only [entryOf, decide_eq_true_eq]

theorem walk_absent (hp : p < 2 ^ 20) (hpresent : (s.getPde (p / 1024)).present = false) :
    walk m (s.crtDir.frame * 4096) (p * 4096) = none := by
  rw [walk, h.pteAddr_none hp hpresent]
  rfl

end Describes

/-! ## States and their memory -/

/-- The physical state has the tables, the bytes of the frames `known` and all other data of the state. -/
structure Simulates (M : PhysicalPaging) (s : Paging) (made : Option PageDir) (known : Nat → Prop) : Prop where
  describes : Describes M.memory s made known
  phyFramesMap : M.phyFramesMap = s.phyFramesMap
  size : s.phyFramesMap.sizes = (256, 256)
  ready : M.copyOnWriteReady = s.copyOnWriteReady
  counts : M.frameCowRefCounts = s.frameCowRefCounts
  dirsNum : M.dirsNum = s.dirsNum
  crt : M.crt = s.crt
  dirs : ∀ d < s.dirsNum, M.pageDirEntriesPhy d = (s.dirs d).frame * 4096
  released : M.released = s.released

/-- A page whose entry the code may change: it is neither in the window nor in the table for the low memory. -/
structure Changeable (p : Nat) : Prop where
  lt : p < 2 ^ 20
  window : p / 1024 ≠ 769
  low : p / 1024 ≠ 0 ∧ p / 1024 ≠ 768

theorem assignFields_lt (w : Nat) (e : Pte) : assignFields w e < 2 ^ 32 := by
  rw [assignFields]
  have huser : (if e.user = true then 4 else 0) ≤ 4 := by split_ifs <;> omega
  have hrw : (if e.rw = true then 2 else 0) ≤ 2 := by split_ifs <;> omega
  have hpresent : (if e.present = true then 1 else 0) ≤ 1 := by split_ifs <;> omega
  omega

/-- The fields that were assigned are read back. -/
theorem entryOf_assignFields (w : Nat) (he : e.frame < 2 ^ 20) : entryOf (assignFields w e) = e := by
  obtain ⟨present, rw', user, frame⟩ := e
  rw [entryOf, assignFields]
  rw [Nat.mod_eq_of_lt he]
  cases present <;> cases rw' <;> cases user <;>
    simp only [if_true, if_false, Bool.false_eq_true, Pte.mk.injEq, decide_eq_true_eq, decide_eq_false_iff_not] <;> omega

namespace Simulates

variable (h : Simulates M s made known)

include h

theorem cr3 : M.cr3 = s.crtDir.frame * 4096 := by
  rw [PhysicalPaging.cr3, h.crt]
  exact h.dirs _ h.describes.crt_lt

theorem showsTables : ShowsTables M.memory M.cr3 := h.cr3 ▸ h.describes.showsTables

theorem loadEntry_pde (hi : i < 1024) : M.loadEntry (pdeAt i) = .ok (s.getPde i) := by
  rw [loadEntry_pdeAt h.showsTables hi, h.cr3, h.describes.pde_word hi]

theorem entryAt_some (hp : p < 2 ^ 20) (hpresent : (s.getPde (p / 1024)).present) :
    M.entryAt p = some ((s.getPde (p / 1024)).frame * 4096 + 4 * (p % 1024)) := by
  rw [entryAt, h.cr3, h.describes.pteAddr_some hp hpresent]

theorem walk_pteAt (hp : p < 2 ^ 20) (hpresent : (s.getPde (p / 1024)).present) :
    walk M.memory M.cr3 (pteAt p) = some ((s.getPde (p / 1024)).frame * 4096 + 4 * (p % 1024)) := by
  have hwalk := walk_own (v := pteAt p) h.showsTables.present h.showsTables.self hp rfl
  exact hwalk.trans (h.entryAt_some hp hpresent)

theorem loadEntry_pte (hp : p < 2 ^ 20) (hne : p / 1024 ≠ 769) (hpresent : (s.getPde (p / 1024)).present) :
    M.loadEntry (pteAt p) = .ok (s.getPte p) := by
  rw [loadEntry_eq (h.walk_pteAt hp hpresent), h.describes.pte_word hp hne hpresent]

/-- Other data of the state is changed on both sides. -/
theorem withMemory (hd : Describes m s made known) : Simulates { M with memory := m } s made known :=
  ⟨hd, h.phyFramesMap, h.size, h.ready, h.counts, h.dirsNum, h.crt, h.dirs, h.released⟩

theorem setPte (hp : Changeable p) (hpresent : (s.getPde (p / 1024)).present) (hw : w < 2 ^ 32) :
    Simulates { M with memory := write32 M.memory ((s.getPde (p / 1024)).frame * 4096 + 4 * (p % 1024)) w }
      (s.setPte p (entryOf w)) made known := by
  have hd := h.describes.setPte hp.lt hp.window hp.low hpresent hw
  have hsame : (s.setPte p (entryOf w)).phyFramesMap = s.phyFramesMap ∧
      (s.setPte p (entryOf w)).copyOnWriteReady = s.copyOnWriteReady ∧
      (s.setPte p (entryOf w)).frameCowRefCounts = s.frameCowRefCounts ∧
      (s.setPte p (entryOf w)).dirsNum = s.dirsNum ∧ (s.setPte p (entryOf w)).crt = s.crt ∧
      (s.setPte p (entryOf w)).released = s.released := by
    rw [Paging.setPte]
    split_ifs <;> exact ⟨rfl, rfl, rfl, rfl, rfl, rfl⟩
  obtain ⟨hmap, hready, hcounts, hnum, hcrt, hreleased⟩ := hsame
  refine ⟨hd, ?_, ?_, ?_, ?_, ?_, ?_, fun d hd => ?_, ?_⟩
  · rw [hmap]
    exact h.phyFramesMap
  · rw [hmap]
    exact h.size
  · rw [hready]
    exact h.ready
  · rw [hcounts]
    exact h.counts
  · rw [hnum]
    exact h.dirsNum
  · rw [hcrt]
    exact h.crt
  · rw [hnum] at hd
    have hframe : ((s.setPte p (entryOf w)).dirs d).frame = (s.dirs d).frame := by
      rw [Paging.setPte]
      split_ifs
      · rw [Paging.setCrtDir_dirs]
        split_ifs with heq
        · rw [heq]
          rfl
        · rfl
      · rfl
    rw [hframe]
    exact h.dirs d hd
  · rw [hreleased]
    exact h.released

/-- The fields of the entry of a page are assigned. -/
theorem storeEntry_pte (hp : Changeable p) (hpresent : (s.getPde (p / 1024)).present) (he : e.frame < 2 ^ 20) :
    ∃ m', M.storeEntry (pteAt p) e = .ok { M with memory := m' } ∧ SameBut (s.getPde (p / 1024)).frame M.memory m' ∧
    Simulates { M with memory := m' } (s.setPte p e) made known := by
  refine ⟨_, storeEntry_eq (h.walk_pteAt hp.lt hpresent), sameBut_write32 (Nat.mod_lt _ (by decide)), ?_⟩
  have hset := h.setPte hp hpresent (assignFields_lt
    (read32 M.memory ((s.getPde (p / 1024)).frame * 4096 + 4 * (p % 1024))) e)
  rwa [entryOf_assignFields _ he] at hset

/-- The entry of a page is cleared. -/
theorem zeroEntry_pte (hp : Changeable p) (hpresent : (s.getPde (p / 1024)).present) :
    ∃ m', M.zeroEntry (pteAt p) = .ok { M with memory := m' } ∧ SameBut (s.getPde (p / 1024)).frame M.memory m' ∧
    Simulates { M with memory := m' } (s.setPte p .zero) made known :=
  ⟨_, store_eq (h.walk_pteAt hp.lt hpresent), sameBut_write32 (Nat.mod_lt _ (by decide)),
    h.setPte (w := 0) hp hpresent (by decide)⟩

/-! ## Pages -/

/-- A mapped page stays in its frame while a frame is written that holds no table and no page that is known. -/
theorem staysIn_page (hp : p < 2 ^ 20) (hne : p / 1024 ≠ 769) (hpresent : (s.getPde (p / 1024)).present)
    (hpte : (s.getPte p).present) (htable : ¬ IsTable s made f) (hknown : ¬ known f) :
    M.StaysIn (p * pageSize) f (s.getPte p).frame := by
  intro m' hsame o ho
  have hd := h.describes.overwrite hsame htable hknown
  rw [h.cr3]
  exact (hd.walk_page hp hne hpresent ho).trans (if_pos hpte)

/-- A table stays in its frame in the window. -/
theorem staysIn_table (hi : i < 1024) (hpresent : (s.getPde i).present) (htable : ¬ IsTable s made f) (hknown : ¬ known f) :
    M.StaysIn (pageTablesVirtual + i * pageSize) f (s.getPde i).frame := by
  intro m' hsame o ho
  have hd := h.describes.overwrite hsame htable hknown
  rw [h.cr3, walk_window hd.showsTables hi ((hd.pde_present hi).mpr hpresent) ho, hd.pde_frame hi]

/-- A frame that holds no table gets the bytes of the state. -/
theorem learn {N : Nat → Nat → Byte} (hsame : SameBut f M.memory m') (hused : s.phyFramesMap.testBit f = true)
    (hlt : f < 0x100) (htable : ¬ IsTable s made f) (hknown : ¬ known f) (hbytes : BytesIn m' f (N f))
    (hN : ∀ g, g ≠ f → N g = s.bytes g) :
    Simulates { M with memory := m' } { s with bytes := N } made fun g => g = f ∨ known g := by
  have hd := h.describes.overwrite hsame htable hknown
  have hcongr : Describes m' { s with bytes := N } made known :=
    hd.congr rfl rfl rfl rfl (fun _ _ hused => hused) fun g hg =>
      ⟨hg, (hd.pages g hg).1, hN g fun heq => hknown (heq ▸ hg)⟩
  exact ⟨hcongr.learn hused hlt htable hbytes, h.phyFramesMap, h.size, h.ready, h.counts, h.dirsNum, h.crt, h.dirs,
    h.released⟩

/-- `clear_page` on a page whose frame holds no table. -/
theorem clearPage (hp : v / pageSize < 2 ^ 20) (hne : v / pageSize / 1024 ≠ 769)
    (hpresent : (s.getPde (v / pageSize / 1024)).present) (hpte : s.getPte (v / pageSize) = .mapTo f)
    (hused : s.phyFramesMap.testBit f = true) (hlt : f < 0x100) (htable : ¬ IsTable s made f) (hknown : ¬ known f) :
    ∃ m', M.clearPage v = .ok { M with memory := m' } ∧ SameBut f M.memory m' ∧
    Simulates { M with memory := m' } (s.clearPage v) made fun g => g = f ∨ known g := by
  have hstays := h.staysIn_page hp hne hpresent (by rw [hpte]; rfl) htable hknown
  rw [hpte] at hstays
  obtain ⟨m', hrun, hsame, hzero⟩ := clearPage_returns hstays
  have hframe : (s.getPte (v / Paging.pageSize)).frame = f := congrArg Pte.frame hpte
  refine ⟨m', hrun, hsame, h.learn hsame hused hlt htable hknown ?_ fun g hg => ?_⟩
  · rw [hframe, Function.update_self]
    exact hzero
  · rw [hframe, Function.update_of_ne hg]

/-- `memcpy` of a page that is known to one whose frame holds no table. -/
theorem memcpyPage (hp : p < 2 ^ 20) (hne : p / 1024 ≠ 769) (hpresent : (s.getPde (p / 1024)).present)
    (hpte : s.getPte p = .mapTo f) (hused : s.phyFramesMap.testBit f = true) (hlt : f < 0x100)
    (htable : ¬ IsTable s made f) (hknown : ¬ known f) {q : Nat} (hq : q < 2 ^ 20) (hne' : q / 1024 ≠ 769)
    (hpresent' : (s.getPde (q / 1024)).present) (hpte' : (s.getPte q).present) (hsrc : known (s.getPte q).frame) :
    ∃ m', M.memcpy (p * pageSize) (q * pageSize) pageSize = .ok { M with memory := m' } ∧ SameBut f M.memory m' ∧
    Simulates { M with memory := m' } (s.memcpyPage (p * pageSize) (q * pageSize)) made fun g => g = f ∨ known g := by
  have hdst := h.staysIn_page hp hne hpresent (by rw [hpte]; rfl) htable hknown
  rw [hpte] at hdst
  have hfrom := h.staysIn_page hq hne' hpresent' hpte' htable hknown
  obtain ⟨m', hrun, hsame, hcopy⟩ := memcpy_returns hdst hfrom fun heq => hknown (heq ▸ hsrc)
  have hpage : p * pageSize / Paging.pageSize = p := Nat.mul_div_cancel p (by decide)
  have hpage' : q * pageSize / Paging.pageSize = q := Nat.mul_div_cancel q (by decide)
  have hframe : (s.getPte p).frame = f := congrArg Pte.frame hpte
  refine ⟨m', hrun, hsame, h.learn hsame hused hlt htable hknown ?_ fun g hg => ?_⟩
  · rw [hpage, hpage', hframe, Function.update_self]
    intro o ho
    rw [hcopy o ho]
    exact (h.describes.pages _ hsrc).2.2.2 o ho
  · rw [hpage, hframe, Function.update_of_ne hg]

end Simulates

end LuckOS.PhysicalPaging
