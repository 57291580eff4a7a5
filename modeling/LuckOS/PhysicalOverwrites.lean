import LuckOS.PhysicalLending

/-!
# Page faults that take frames of tables

The code that maps a new page fills its frame with zeros. Here the frame may hold a table. When it is that of the
directory in use, the processor loses the page in the middle of the loop.
-/

namespace LuckOS.PhysicalPaging

open ByteMemory PageWalk BootLoader FrameContents Outcome
open Paging (Pte PageDir isUserPage isUserTable)

variable {M N : PhysicalPaging} {m m' : Memory} {s : Paging} {made : Option PageDir} {known : Nat → Prop} {b b' : Bitmap}
  {c e : Nat → Pte} {a f g i o p v w D T : Nat}

/-! ## Walks through one directory -/

theorem entriesIn_store (he : EntriesIn entryOf m f e) {x : Pte} (hx : x.frame < 2 ^ 20) :
    EntriesIn entryOf (write32 m (f * 4096 + 4 * i) (assignFields (read32 m (f * 4096 + 4 * i)) x)) f
      (Function.update e i x) :=
  entriesIn_update he (assignFields_lt _ _) (entryOf_assignFields _ hx)

/-- The page `p` is found in the frame `f`, behind the directory in `D` and the table in `T`. -/
theorem walk_entries (hdir : EntriesIn entryOf m D e) (hi : p < 2 ^ 20) (he : e (p / 1024) = .mapTo T)
    (htable : EntriesIn entryOf m T c) (hc : c (p % 1024) = .mapTo f) (ho : o < 4096) :
    walk m (D * 4096) (p * 4096 + o) = some (f * 4096 + o) := by
  have hindex : (p * 4096 + o) / 2 ^ 22 = p / 1024 := by omega
  have hpage : (p * 4096 + o) / 4096 = p := by omega
  have hoffset : (p * 4096 + o) % 4096 = o := by omega
  obtain ⟨hpresent, hframe⟩ := entryOf_mapTo_iff ((hdir _ (by omega)).trans he)
  obtain ⟨hpresent', hframe'⟩ := entryOf_mapTo_iff ((htable _ (Nat.mod_lt _ (by decide))).trans hc)
  have hpde : pdeOf m (D * 4096) (p * 4096 + o) = read32 m (D * 4096 + 4 * (p / 1024)) := by rw [pdeOf, hindex]
  rw [walk, pteAddr_eq hpde hpresent, hframe, hpage, Option.bind_some, if_pos hpresent', hframe', hoffset]

/-- Without an entry in the directory no address is found. -/
theorem walk_none (h : read32 m (D * 4096 + 4 * (v / 2 ^ 22)) % 2 ≠ 1) : walk m (D * 4096) v = none := by
  rw [walk, pteAddr, pdeOf, if_neg h]
  rfl

theorem showsTables_entries (hdir : EntriesIn entryOf m D e) (hown : e 769 = .mapTo D) : ShowsTables m (D * 4096) := by
  obtain ⟨hpresent, hframe⟩ := entryOf_mapTo_iff ((hdir 769 (by decide)).trans hown)
  exact ⟨hpresent, by rw [hframe]⟩

/-- The page stays in its frame while another frame than those of its tables is written. -/
theorem staysIn_entries (hcr3 : M.cr3 = D * 4096) (hdir : EntriesIn entryOf M.memory D e) (hi : p < 2 ^ 20)
    (he : e (p / 1024) = .mapTo T) (htable : EntriesIn entryOf M.memory T c) (hc : c (p % 1024) = .mapTo f)
    (hD : D ≠ g) (hT : T ≠ g) : M.StaysIn (p * pageSize) g f := by
  intro m' hsame o ho
  rw [hcr3]
  exact walk_entries (hdir.congr hsame hD) hi he (htable.congr hsame hT) hc ho

/-! ## The directory in use is cleared -/

/-- `clear_page` on a page that is mapped to the directory clears the entry for the page itself, and the next store
finds no page. -/
theorem clearPage_directory (hcr3 : M.cr3 = D * 4096) (hdir : EntriesIn entryOf M.memory D e) (hi : p / 1024 < 1023)
    (he : e (p / 1024) = .mapTo T) (htable : EntriesIn entryOf M.memory T c) (hc : c (p % 1024) = .mapTo D)
    (hT : T ≠ D) : M.clearPage (p * pageSize) = .error (.pageFault (p * pageSize + 4 * (p / 1024 + 1))) := by
  have hdiv : p * pageSize / pageSize = p := Nat.mul_div_cancel p (by decide)
  have hlen : pageSize / 4 - 0 = p / 1024 + 1 + (1022 - p / 1024 + 1) := by
    rw [pageSize]
    omega
  have hsplit : List.range' 0 (pageSize / 4 - 0) = List.range (p / 1024 + 1) ++
      (p / 1024 + 1) :: List.range' (p / 1024 + 1 + 1) (1022 - p / 1024) := by
    rw [hlen, ← List.range'_append_1, List.range_eq_range', Nat.zero_add]
    rfl
  -- Up to its own entry, the loop clears the directory.
  have hloop : Returns ((List.range (p / 1024 + 1)).foldlM
      (fun (s : PhysicalPaging) i => s.store (p * pageSize / pageSize * pageSize + 4 * i) 0) M) fun N =>
      N = { M with memory := N.memory } ∧ SameBut D M.memory N.memory ∧
      EntriesIn entryOf N.memory D fun j => if j < (List.range (p / 1024 + 1)).length then .zero else e j := by
    refine returns_foldlM (I := fun done (N : PhysicalPaging) => N = { M with memory := N.memory } ∧
      SameBut D M.memory N.memory ∧ EntriesIn entryOf N.memory D fun j => if j < done.length then .zero else e j)
      ⟨rfl, .refl _ _, hdir⟩ ?_
    rintro done i rest N hrange ⟨hN, hsame, hcleared⟩
    obtain ⟨hlen, hlt⟩ := eq_length_of_range_eq hrange
    have hN3 : N.cr3 = D * 4096 := by
      rw [hN]
      exact hcr3
    have hentry : (if p / 1024 < done.length then Pte.zero else e (p / 1024)) = .mapTo T := by
      rw [if_neg (by omega), he]
    have hwalk : walk N.memory N.cr3 (p * pageSize + 4 * i) = some (D * 4096 + 4 * i) := by
      rw [hN3]
      exact walk_entries hcleared (by omega) hentry (htable.congr hsame hT) hc (by omega)
    rw [hdiv]
    refine ⟨_, store_eq hwalk, by rw [hN], hsame.trans (sameBut_write32 (i := i) (by omega)), ?_⟩
    rw [List.length_append, List.length_singleton, ← hlen]
    rw [← hlen] at hcleared
    refine hcleared.write (by decide) fun j _ => ?_
    by_cases hj : j = i
    · rw [if_pos (by omega), if_pos hj]
      rfl
    · rw [if_neg hj]
      exact if_congr (by omega) rfl rfl
  obtain ⟨N, hrun, hN, -, hcleared⟩ := hloop
  have hN3 : N.cr3 = D * 4096 := by
    rw [hN]
    exact hcr3
  have hword := hcleared (p / 1024) (by omega)
  rw [List.length_range] at hword
  have hzero := hword.trans (if_pos (Nat.lt_succ_self _))
  have hindex : (p * pageSize + 4 * (p / 1024 + 1)) / 2 ^ 22 = p / 1024 := by
    rw [pageSize]
    omega
  have hlost : walk N.memory N.cr3 (p * pageSize + 4 * (p / 1024 + 1)) = none := by
    rw [hN3]
    refine walk_none ?_
    rw [hindex]
    intro hpresent
    have habsent := congrArg Pte.present hzero
    rw [entryOf, hpresent] at habsent
    cases habsent
  rw [clearPage, forRange, hsplit, List.foldlM_append, hrun, ok_bind, List.foldlM_cons, store, translate, hdiv, hlost]
  rfl

/-! ## Page faults of pages without an entry -/

/-- The page table is there. -/
theorem ensurePageTable_entries (hcr3 : M.cr3 = D * 4096) (hdir : EntriesIn entryOf M.memory D e)
    (hown : e 769 = .mapTo D) (hi : i < 1024) (he : (e i).present = true) : M.ensurePageTable i = .ok M := by
  have hshow : ShowsTables M.memory M.cr3 := hcr3 ▸ showsTables_entries hdir hown
  rw [ensurePageTable, loadEntry_pdeAt hshow hi, hcr3, hdir i hi, ok_bind, he]
  rfl

/-- A page without an entry: a frame is taken and entered, and the page is cleared. -/
theorem mapPage_absent (hcr3 : M.cr3 = D * 4096) (hdir : EntriesIn entryOf M.memory D e) (hown : e 769 = .mapTo D)
    (hi : p < 2 ^ 20) (he : e (p / 1024) = .mapTo T) (htable : EntriesIn entryOf M.memory T c)
    (hc : (c (p % 1024)).present = false) (ha : M.phyFramesMap.allocateFirstFree = some (f, b)) (hf : f < 2 ^ 20) :
    ∃ m', M.mapPage (p * pageSize) =
      ({ M with
        phyFramesMap := b
        memory := m' } : PhysicalPaging).clearPage (p * pageSize) ∧
    SameBut T M.memory m' ∧ EntriesIn entryOf m' T (Function.update c (p % 1024) (.mapTo f)) := by
  have hshow : ShowsTables M.memory M.cr3 := hcr3 ▸ showsTables_entries hdir hown
  have hwalk : walk M.memory M.cr3 (pteAt p) = some (T * 4096 + 4 * (p % 1024)) := by
    obtain ⟨hpresent, hframe⟩ := entryOf_mapTo_iff ((hdir (p / 1024) (by omega)).trans he)
    have hindex : p * 4096 / 2 ^ 22 = p / 1024 := by omega
    have hpage : p * 4096 / 4096 = p := by omega
    have hentry : pdeOf M.memory M.cr3 (p * 4096) = read32 M.memory (D * 4096 + 4 * (p / 1024)) := by
      rw [pdeOf, hcr3, hindex]
    rw [walk_own (v := pteAt p) hshow.present hshow.self hi rfl, pteAddr_eq hentry hpresent, hframe, hpage]
  have hoffset : p % 1024 < 1024 := Nat.mod_lt _ (by decide)
  refine ⟨_, ?_, sameBut_write32 hoffset, entriesIn_store htable hf⟩
  have htop : p * pageSize / 2 ^ 22 = p / 1024 := by
    rw [pageSize]
    omega
  have hpage : p * pageSize / 2 ^ 12 = p := Nat.mul_div_cancel p (by decide)
  have hnot : ¬ (0 : Int) < -1 := by decide
  have hensure := ensurePageTable_entries hcr3 hdir hown (i := p / 1024) (by omega) (by rw [he]; rfl)
  have hentry : M.loadEntry (pteAt p) = .ok (c (p % 1024)) := by
    rw [loadEntry_eq hwalk, htable _ hoffset]
  have hstore : ({ M with phyFramesMap := b } : PhysicalPaging).storeEntry (pteAt p) (.mapTo f) = .ok { M with
      phyFramesMap := b
      memory := write32 M.memory (T * 4096 + 4 * (p % 1024))
        (assignFields (read32 M.memory (T * 4096 + 4 * (p % 1024))) (.mapTo f)) } :=
    storeEntry_eq (M := { M with phyFramesMap := b }) hwalk
  rw [mapPage, mapPageWithFrame, mapPageWithFrameImpl, htop, hpage, hensure, ok_bind]
  dsimp only
  rw [hentry, ok_bind, if_neg hnot, hc, if_pos (by decide), allocatePhyFrame, ha, ok_bind]
  change (({ M with phyFramesMap := b } : PhysicalPaging).storeEntry (pteAt p) (.mapTo f) >>= _) = _
  rw [hstore, ok_bind]

/-- A page without a table: a frame for the table is taken first, entered into the directory and cleared. -/
theorem ensurePageTable_absent (hcr3 : M.cr3 = D * 4096) (hdir : EntriesIn entryOf M.memory D e)
    (hown : e 769 = .mapTo D) (hi : i < 1024) (hne : i ≠ 769) (he : (e i).present = false)
    (ha : M.phyFramesMap.allocateFirstFree = some (f, b)) (hf : f < 2 ^ 20) (hD : f ≠ D) :
    ∃ m', M.ensurePageTable i = .ok { M with
      phyFramesMap := b
      memory := m' } ∧
    (∀ g, g ≠ D → g ≠ f → BytesIn m' g fun o => M.memory (g * 4096 + o)) ∧
    EntriesIn entryOf m' D (Function.update e i (.mapTo f)) ∧ EntriesIn entryOf m' f fun _ => .zero := by
  have hshow : ShowsTables M.memory M.cr3 := hcr3 ▸ showsTables_entries hdir hown
  have hpde : M.loadEntry (pdeAt i) = .ok (e i) := by
    rw [loadEntry_pdeAt hshow hi, hcr3, hdir _ hi]
  have hwalk : walk M.memory M.cr3 (pdeAt i) = some (D * 4096 + 4 * i) := by
    have haddr := translate_pdeAt hshow hi
    rw [hcr3, translate] at haddr
    split at haddr
    · rename_i a ha
      rw [ha, Except.ok.inj haddr]
    · cases haddr
  -- The entry is stored, and the window then shows the new table.
  have hstored := entriesIn_store (i := i) (x := .mapTo f) hdir hf
  have hsame : SameBut D M.memory (write32 M.memory (D * 4096 + 4 * i)
      (assignFields (read32 M.memory (D * 4096 + 4 * i)) (.mapTo f))) := sameBut_write32 hi
  have hstore := storeEntry_eq (M := { M with phyFramesMap := b }) (e := .mapTo f) hwalk
  change _ = Except.ok { M with
    phyFramesMap := b
    memory := write32 M.memory (D * 4096 + 4 * i) (assignFields (read32 M.memory (D * 4096 + 4 * i)) (.mapTo f)) } at hstore
  generalize write32 M.memory (D * 4096 + 4 * i) (assignFields (read32 M.memory (D * 4096 + 4 * i)) (.mapTo f)) = m at *
  have hself : Function.update e i (.mapTo f) 769 = .mapTo D := by
    rw [Function.update_of_ne hne.symm, hown]
  have hstays : ({ M with
      phyFramesMap := b
      memory := m } : PhysicalPaging).StaysIn (pageTablesVirtual + i * pageSize) f f := by
    intro m' hsame' o ho
    have hkept := hstored.congr hsame' hD.symm
    have hentry := (hkept i hi).trans (Function.update_self ..)
    obtain ⟨hpresent, hframe⟩ := entryOf_mapTo_iff hentry
    have hfound := walk_window (showsTables_entries hkept hself) hi hpresent ho
    rw [hframe] at hfound
    change walk m' M.cr3 _ = _
    rw [hcr3]
    exact hfound
  have haligned : (pageTablesVirtual + i * pageSize) / pageSize * pageSize = pageTablesVirtual + i * pageSize := by
    rw [pageTablesVirtual, pageSize]
    omega
  rw [← haligned] at hstays
  obtain ⟨m', hclear, hsame', hzero⟩ := clearPage_returns hstays
  refine ⟨m', ?_, fun g hgD hgf o ho => ?_, hstored.congr hsame' hD.symm, hzero.entries_zero⟩
  · rw [ensurePageTable, hpde, ok_bind, he, if_pos (by decide), allocatePhyFrame, ha, ok_bind]
    change (({ M with phyFramesMap := b } : PhysicalPaging).storeEntry (pdeAt i) (.mapTo f) >>= _) = _
    rw [hstore, ok_bind]
    exact hclear
  · have hlast : m' (g * 4096 + o) = m (g * 4096 + o) := hsame' _ (by omega)
    rw [hlast]
    exact hsame _ (by omega)

/-- A page without a table takes two frames, and is cleared in the second one. -/
theorem mapPage_newTable (hcr3 : M.cr3 = D * 4096) (hdir : EntriesIn entryOf M.memory D e) (hown : e 769 = .mapTo D)
    (hp : p < 2 ^ 20) (hne : p / 1024 ≠ 769) (he : (e (p / 1024)).present = false)
    (ha : M.phyFramesMap.allocateFirstFree = some (f, b)) (hf : f < 2 ^ 20) (hD : f ≠ D)
    (hb : b.allocateFirstFree = some (g, b')) (hg : g < 2 ^ 20) :
    ∃ m', M.mapPage (p * pageSize) =
      ({ M with
        phyFramesMap := b'
        memory := m' } : PhysicalPaging).clearPage (p * pageSize) ∧
    (∀ x, x ≠ D → x ≠ f → BytesIn m' x fun o => M.memory (x * 4096 + o)) ∧
    EntriesIn entryOf m' D (Function.update e (p / 1024) (.mapTo f)) ∧
    EntriesIn entryOf m' f (Function.update (fun _ => .zero) (p % 1024) (.mapTo g)) := by
  obtain ⟨m₁, hensure, hkept, hdir₁, htable₁⟩ :=
    ensurePageTable_absent hcr3 hdir hown (i := p / 1024) (by omega) hne he ha hf hD
  have hcr3' : ({ M with
      phyFramesMap := b
      memory := m₁ } : PhysicalPaging).cr3 = D * 4096 := hcr3
  have hown₁ : Function.update e (p / 1024) (.mapTo f) 769 = .mapTo D := by
    rw [Function.update_of_ne hne.symm, hown]
  have hentry : Function.update e (p / 1024) (.mapTo f) (p / 1024) = .mapTo f := Function.update_self ..
  obtain ⟨m₂, hrun, hsame, htable₂⟩ := mapPage_absent hcr3' hdir₁ hown₁ hp hentry htable₁ rfl hb hg
  have hagain := ensurePageTable_entries hcr3' hdir₁ hown₁ (i := p / 1024) (by omega) (by rw [hentry]; rfl)
  have htop : p * pageSize / 2 ^ 22 = p / 1024 := by
    rw [pageSize]
    omega
  rw [← htop] at hensure hagain
  refine ⟨m₂, ?_, fun x hxD hxf o ho => (hsame _ (by omega)).trans (hkept x hxD hxf o ho), hdir₁.congr hsame hD.symm, htable₂⟩
  rw [← hrun]
  exact mapPageWithFrameImpl_ensure hensure hagain 1 (-1)

namespace Simulates

theorem entriesIn_getPde (h : Simulates M s made known) : EntriesIn entryOf M.memory s.crtDir.frame s.getPde :=
  fun _ hi => h.describes.pde_word hi

theorem getPde_own (h : Simulates M s made known) : s.getPde 769 = .mapTo s.crtDir.frame :=
  h.describes.own _ _ h.describes.crtDir_dirAt

/-- A page fault that takes the directory in use as its page does not return. -/
theorem pageFaultHandler_directory (h : Simulates M s made known) (hp : p < 768 * 1024)
    (he : (s.getPde (p / 1024)).present = false) (ha : M.phyFramesMap.allocateFirstFree = some (f, b)) (hf : f < 2 ^ 20)
    (hD : f ≠ s.crtDir.frame) (hb : b.allocateFirstFree = some (s.crtDir.frame, b')) (hg : s.crtDir.frame < 2 ^ 20) :
    M.pageFaultHandler (p * pageSize) = .error (.pageFault (p * pageSize + 4 * (p / 1024 + 1))) := by
  have hdiv : p * pageSize / pageSize = p := Nat.mul_div_cancel p (by decide)
  obtain ⟨m', hrun, -, hdir, htable⟩ :=
    mapPage_newTable h.cr3 h.entriesIn_getPde h.getPde_own (by omega) (by omega) he ha hf hD hb hg
  have hlost := clearPage_directory (M := { M with
    phyFramesMap := b'
    memory := m' }) h.cr3 hdir (by omega) (Function.update_self ..) htable (Function.update_self ..) hD
  rw [pageFaultHandler, hdiv, hrun, hlost]
  rfl

/-- A page fault that takes other frames returns, whatever these frames hold. -/
theorem pageFaultHandler_overwrites (h : Simulates M s made known) (hp : p < 768 * 1024)
    (he : (s.getPde (p / 1024)).present = false) (ha : M.phyFramesMap.allocateFirstFree = some (f, b)) (hf : f < 2 ^ 20)
    (hD : f ≠ s.crtDir.frame) (hb : b.allocateFirstFree = some (g, b')) (hg : g < 2 ^ 20) (hgD : s.crtDir.frame ≠ g)
    (hgf : f ≠ g) :
    ∃ m', M.pageFaultHandler (p * pageSize) = .ok { M with
      phyFramesMap := b'
      memory := m'
      pageFaults := M.pageFaults + 1 } ∧
    (∀ x, x ≠ s.crtDir.frame → x ≠ f → x ≠ g → BytesIn m' x fun o => M.memory (x * 4096 + o)) ∧
    EntriesIn entryOf m' s.crtDir.frame (Function.update s.getPde (p / 1024) (.mapTo f)) ∧
    EntriesIn entryOf m' f (Function.update (fun _ => .zero) (p % 1024) (.mapTo g)) ∧
    EntriesIn entryOf m' g fun _ => .zero := by
  have hdiv : p * pageSize / pageSize = p := Nat.mul_div_cancel p (by decide)
  obtain ⟨m₁, hrun, hkept, hdir, htable⟩ :=
    mapPage_newTable h.cr3 h.entriesIn_getPde h.getPde_own (by omega) (by omega) he ha hf hD hb hg
  have hstays := staysIn_entries (M := { M with
    phyFramesMap := b'
    memory := m₁ }) h.cr3 hdir (by omega) (Function.update_self ..) htable (Function.update_self ..) hgD hgf
  rw [← hdiv] at hstays
  obtain ⟨m₂, hclear, hsame, hzero⟩ := clearPage_returns hstays
  refine ⟨m₂, ?_, fun x hxD hxf hxg o ho => ?_, hdir.congr hsame hgD, htable.congr hsame hgf, hzero.entries_zero⟩
  · rw [pageFaultHandler, hdiv, hrun, hclear]
    rfl
  · have hlast : m₂ (x * 4096 + o) = m₁ (x * 4096 + o) := hsame _ (by omega)
    rw [hlast]
    exact hkept x hxD hxf o ho

end Simulates

end LuckOS.PhysicalPaging
