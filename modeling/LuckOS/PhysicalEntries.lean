import LuckOS.PhysicalFaults
import LuckOS.UserSpaces

/-!
# The entries of all directories

The page tables of all processes lie in memory, whichever directory is the current one. What they hold is what the
state of `Paging` says, so that numbers of entries can be counted there.
-/

namespace LuckOS.PhysicalPaging

open ByteMemory PageWalk BootLoader FrameContents Outcome
open Paging (Pte PageDir isUserPage isUserTable)

/-- The entry `i` of the directory `d`. -/
def pdeIn (s : PhysicalPaging) (d i : Nat) : Pte := entryOf (read32 s.memory (s.pageDirEntriesPhy d + 4 * i))

/-- The entry of the page `p` in the directory `d`. -/
def pteIn (s : PhysicalPaging) (d p : Nat) : Pte := { s with crt := d }.entry p

/-- The present entries for user pages, over all directories, that map a frame. -/
def userPtes (s : PhysicalPaging) (f : Nat) : Finset (Nat × Nat) :=
  (Finset.range s.dirsNum ×ˢ Finset.Ico 1024 (768 * 1024)).filter fun x =>
    (s.pteIn x.1 x.2).present ∧ (s.pteIn x.1 x.2).frame = f

/-- Every mapped frame is in use, its count is one less than the number of its entries, and a writable entry is the
only one. -/
def CountsExact (s : PhysicalPaging) : Prop :=
  ∀ f, 1 ≤ (s.userPtes f).card →
    s.phyFramesMap.testBit f = true ∧
    (s.frameCowRefCounts f).getD 0 = (s.userPtes f).card - 1 ∧
    ((∃ x ∈ s.userPtes f, (s.pteIn x.1 x.2).rw) → (s.userPtes f).card = 1)

/-- Between `s` and `t`, `release_phy_frame` was called once on each user frame whose last entry disappeared, and on no
user frame that is still mapped. -/
def ReleasesLast (s t : PhysicalPaging) : Prop :=
  ∃ calls : List Nat, t.released = calls ++ s.released ∧
    ∀ f, 1 ≤ (s.userPtes f).card →
      ((t.userPtes f).card = 0 → calls.count f = 1) ∧ (1 ≤ (t.userPtes f).card → f ∉ calls)

variable {M N : PhysicalPaging} {m m' : Memory} {s t : Paging} {made : Option PageDir} {known : Nat → Prop}
  {d f i p : Nat}

theorem mem_userPtes : (d, p) ∈ M.userPtes f ↔
    d < M.dirsNum ∧ isUserPage p ∧ (M.pteIn d p).present = true ∧ (M.pteIn d p).frame = f := by
  rw [userPtes, Finset.mem_filter, Finset.mem_product, Finset.mem_range, Finset.mem_Ico, isUserPage, decide_eq_true_eq,
    and_assoc]

/-- The processor loads the address of another directory. -/
theorem Simulates.switch (h : Simulates M s made known) (hd : d < s.dirsNum) :
    Simulates { M with crt := d } { s with crt := d } made known :=
  ⟨h.describes.of_dirAt hd rfl rfl (fun _ _ hused => hused) fun g hg => ⟨hg, (h.describes.pages g hg).1, rfl⟩,
    h.phyFramesMap, h.size, h.ready, h.counts, h.dirsNum, rfl, h.dirs, h.released⟩

theorem Simulates.pdeIn (h : Simulates M s made known) (hd : d < s.dirsNum) (hi : i < 1024) :
    M.pdeIn d i = (s.dirs d).pde i := by
  rw [PhysicalPaging.pdeIn, h.dirs d hd]
  exact (h.switch hd).describes.pde_word hi

/-- The entry of a user page. -/
theorem Simulates.pteIn_user (h : Simulates M s made known) (hd : d < s.dirsNum) (hp : isUserPage p) :
    M.pteIn d p = if ((s.dirs d).pde (p / 1024)).present then (s.dirs d).pte p else .zero := by
  have hswitched := h.switch hd
  have hpage := changeable_user hp
  have hentry : M.pteIn d p = ({ M with crt := d }.entryAt p).elim .zero fun a => entryOf (read32 M.memory a) := rfl
  by_cases hpresent : ((s.dirs d).pde (p / 1024)).present = true
  · rw [if_pos hpresent]
    exact (hswitched.entry_eq hpage.lt hpage.window hpresent).trans (Paging.getPte_user hp)
  · rw [if_neg hpresent, hentry, entryAt, hswitched.cr3,
      hswitched.describes.pteAddr_none hpage.lt (Bool.eq_false_iff.mpr hpresent)]
    rfl

/-- The entries for user pages are counted in memory as in the state. -/
theorem Simulates.userPtes_eq (h : Simulates M s made known) (f : Nat) : M.userPtes f = s.userPtes f := by
  rw [userPtes, Paging.userPtes, h.dirsNum]
  refine Finset.filter_congr fun x hx => ?_
  obtain ⟨hd, hp⟩ := Finset.mem_product.mp hx
  rw [Finset.mem_range] at hd
  rw [Finset.mem_Ico] at hp
  have huser : isUserPage x.2 := decide_eq_true ⟨by omega, by omega⟩
  rw [h.pteIn_user hd huser]
  split_ifs with hpresent
  · exact (and_iff_right hpresent).symm
  · exact iff_of_false (fun hzero => Bool.false_ne_true hzero.1) fun hall => hpresent hall.1

theorem Represents.countsExact (h : Represents M s) : M.CountsExact := by
  intro f hf
  rw [h.simulates.userPtes_eq] at hf ⊢
  obtain ⟨hused, hcount, hwritable⟩ := h.wf.countsExact f hf
  rw [h.simulates.phyFramesMap, h.simulates.counts]
  refine ⟨hused, hcount, ?_⟩
  rintro ⟨x, hx, hrw⟩
  refine hwritable ⟨x, hx, ?_⟩
  obtain ⟨hrange, hpresent, -⟩ := Finset.mem_filter.mp hx
  obtain ⟨hd, hp⟩ := Finset.mem_product.mp hrange
  rw [Finset.mem_Ico] at hp
  have huser : isUserPage x.2 := decide_eq_true ⟨by omega, by omega⟩
  rw [h.simulates.pteIn_user (Finset.mem_range.mp hd) huser, if_pos hpresent] at hrw
  exact hrw

theorem Represents.releasesLast (h : Represents M s) (h' : Represents N t) (hlast : s.ReleasesLast t) :
    M.ReleasesLast N := by
  obtain ⟨calls, hcalls, hcount⟩ := hlast
  refine ⟨calls, ?_, fun f => ?_⟩
  · rw [h'.simulates.released, h.simulates.released, hcalls]
  · rw [h.simulates.userPtes_eq, h'.simulates.userPtes_eq]
    exact hcount f

/-! ## Directories that are overwritten -/

theorem pteIn_entries {D : Nat} {c e : Nat → Pte} (hD : M.pageDirEntriesPhy d = D * 4096)
    (hdir : EntriesIn entryOf M.memory D e) (hp : p < 2 ^ 20) (hpresent : (e (p / 1024)).present = true)
    (htable : EntriesIn entryOf M.memory (e (p / 1024)).frame c) : M.pteIn d p = c (p % 1024) := by
  have hword := hdir (p / 1024) (by omega)
  have hindex : p * 4096 / 2 ^ 22 = p / 1024 := by omega
  have hpage : p * 4096 / 4096 = p := by omega
  have hentry : pdeOf M.memory (D * 4096) (p * 4096) = read32 M.memory (D * 4096 + 4 * (p / 1024)) := by rw [pdeOf, hindex]
  have hpresent' : read32 M.memory (D * 4096 + 4 * (p / 1024)) % 2 = 1 := by
    rw [← hword, entryOf, decide_eq_true_eq] at hpresent
    exact hpresent
  have hframe : read32 M.memory (D * 4096 + 4 * (p / 1024)) / 4096 = (e (p / 1024)).frame := congrArg Pte.frame hword
  have haddr : pteAddr M.memory (M.pageDirEntriesPhy d) (p * 4096) = some ((e (p / 1024)).frame * 4096 + 4 * (p % 1024)) := by
    rw [hD, pteAddr_eq hentry hpresent', hframe, hpage]
  change (pteAddr M.memory (M.pageDirEntriesPhy d) (p * 4096)).elim Pte.zero _ = _
  rw [haddr]
  exact htable _ (Nat.mod_lt _ (by decide))

theorem pteIn_absent {D : Nat} {e : Nat → Pte} (hD : M.pageDirEntriesPhy d = D * 4096)
    (hdir : EntriesIn entryOf M.memory D e) (hp : p < 2 ^ 20) (habsent : (e (p / 1024)).present = false) :
    M.pteIn d p = .zero := by
  have hindex : p * 4096 / 2 ^ 22 = p / 1024 := by omega
  have hnot : ¬ pdeOf M.memory (D * 4096) (p * 4096) % 2 = 1 := by
    rw [pdeOf, hindex]
    rw [← hdir (p / 1024) (by omega), entryOf, decide_eq_false_iff_not] at habsent
    exact habsent
  change (pteAddr M.memory (M.pageDirEntriesPhy d) (p * 4096)).elim Pte.zero _ = _
  rw [hD, pteAddr, if_neg hnot]
  rfl

/-- The entries of the user pages are kept while frames behind the first 0x100 and the directory in use are written,
when this directory keeps the entries of their tables. -/
theorem Simulates.pteIn_kept {known : Nat → Prop} {e : Nat → Pte} (h : Simulates M s none known)
    (hphy : N.pageDirEntriesPhy = M.pageDirEntriesPhy)
    (hkept : ∀ x < 0x100, x ≠ s.crtDir.frame → BytesIn N.memory x fun o => M.memory (x * 4096 + o))
    (hdir : EntriesIn entryOf N.memory s.crtDir.frame e) (he : d = s.crt → e (p / 1024) = s.getPde (p / 1024))
    (hd : d < s.dirsNum) (hlow : (s.dirs d).frame < 0x100) (hp : isUserPage p) : N.pteIn d p = M.pteIn d p := by
  have hpage := changeable_user hp
  have huser : isUserTable (p / 1024) := by
    rw [Paging.isUserTable_div]
    exact hp
  have hdirAt : dirAt s none d = some (s.dirs d) := if_pos hd
  have hother : ∀ x y, tableFrame s none x = some y → x ≠ (s.crt, 769) → y < 0x100 →
      ∀ c, EntriesIn entryOf M.memory y c → EntriesIn entryOf N.memory y c := by
    intro x y hx hne hy c hc
    refine hc.copy (hkept y hy ?_)
    rintro rfl
    exact hne (h.describes.apart _ _ _ hx (tableFrame_dir h.describes.crtDir_dirAt))
  have hentries : ∃ e', EntriesIn entryOf N.memory (s.dirs d).frame e' ∧
      e' (p / 1024) = (s.dirs d).pde (p / 1024) := by
    by_cases hcrt : d = s.crt
    · have hentry := he hcrt
      rw [hcrt]
      exact ⟨e, hdir, hentry⟩
    · exact ⟨_, hother (d, 769) _ (tableFrame_dir hdirAt) (fun heq => hcrt (congrArg Prod.fst heq)) hlow _
        (h.describes.tables _ _ (.directory d _ hdirAt)), rfl⟩
  obtain ⟨e', hdir', he'⟩ := hentries
  have hD : N.pageDirEntriesPhy d = (s.dirs d).frame * 4096 := by
    rw [hphy]
    exact h.dirs d hd
  by_cases hpresent : ((s.dirs d).pde (p / 1024)).present = true
  · have hframe := tableFrame_user hdirAt huser hpresent
    have hne : (d, p / 1024) ≠ (s.crt, 769) := fun heq => hpage.window (congrArg Prod.snd heq)
    have hlt : ((s.dirs d).pde (p / 1024)).frame < 0x100 := by
      rcases h.describes.frames _ _ hframe with ⟨-, hlt⟩ | ⟨heq, -⟩
      · exact hlt
      · exact absurd (congrArg Prod.snd heq) hpage.window
    have htable := hother _ _ hframe hne hlt _ (h.describes.tables _ _ (.user d _ _ hdirAt huser hpresent))
    have hsplit : p / 1024 * 1024 + p % 1024 = p := Nat.div_add_mod' p 1024
    rw [h.pteIn_user hd hp, if_pos hpresent,
      pteIn_entries hD hdir' hpage.lt (by rw [he']; exact hpresent) (by rw [he']; exact htable), hsplit]
  · rw [h.pteIn_user hd hp, if_neg hpresent,
      pteIn_absent hD hdir' hpage.lt (by rw [he']; exact Bool.eq_false_iff.mpr hpresent)]

/-- Entries for user pages when a new table in `f` got a page in the frame of the first directory: a present one is the
new one, or it is as before and behind another directory. -/
theorem Simulates.pteIn_overwritten {known : Nat → Prop} {i j : Nat} (h : Simulates M s none known)
    (hphy : N.pageDirEntriesPhy = M.pageDirEntriesPhy)
    (hkept : ∀ x, x ≠ s.crtDir.frame → x ≠ f → x ≠ 0x101 → BytesIn N.memory x fun o => M.memory (x * 4096 + o))
    (hdir : EntriesIn entryOf N.memory s.crtDir.frame (Function.update s.getPde i (.mapTo f)))
    (htable : EntriesIn entryOf N.memory f (Function.update (fun _ => .zero) j (.mapTo 0x101)))
    (hzero : EntriesIn entryOf N.memory 0x101 fun _ => .zero) (hf : 0x100 ≤ f) (hd : d < s.dirsNum) (hp : isUserPage p)
    (hpresent : (N.pteIn d p).present = true) :
    (N.pteIn d p).frame = 0x101 ∨ (s.dirs d).frame ≠ 0x101 ∧ N.pteIn d p = M.pteIn d p := by
  have hpage := changeable_user hp
  have hD : N.pageDirEntriesPhy d = (s.dirs d).frame * 4096 := by
    rw [hphy]
    exact h.dirs d hd
  have hdirAt : dirAt s none d = some (s.dirs d) := if_pos hd
  by_cases hfirst : (s.dirs d).frame = 0x101
  · rw [hfirst] at hD
    rw [pteIn_absent hD hzero hpage.lt rfl] at hpresent
    cases hpresent
  · have hlow : (s.dirs d).frame < 0x100 := by
      rcases h.describes.frames _ _ (tableFrame_dir hdirAt) with ⟨-, hlt⟩ | ⟨-, heq⟩
      · exact hlt
      · exact absurd heq hfirst
    by_cases hnew : d = s.crt ∧ p / 1024 = i
    · obtain ⟨rfl, rfl⟩ := hnew
      left
      have hentry : Function.update s.getPde (p / 1024) (.mapTo f) (p / 1024) = .mapTo f := Function.update_self ..
      have hpte := pteIn_entries hD hdir hpage.lt (by rw [hentry]; rfl) (by rw [hentry]; exact htable)
      rw [hpte] at hpresent ⊢
      by_cases hj : p % 1024 = j
      · rw [hj, Function.update_self]
        rfl
      · rw [Function.update_of_ne hj] at hpresent
        cases hpresent
    · refine .inr ⟨hfirst, h.pteIn_kept hphy (fun x hx hne => hkept x hne (by omega) (by omega)) hdir (fun hcrt => ?_) hd hlow
        hp⟩
      exact Function.update_of_ne (fun hi => hnew ⟨hcrt, hi⟩) ..

/-- When entries for a frame disappear and its count stays, the count is too large. -/
theorem not_countsExact (h : M.CountsExact) (hcounts : N.frameCowRefCounts = M.frameCowRefCounts)
    (hsub : N.userPtes f ⊂ M.userPtes f) (hpos : (N.userPtes f).Nonempty) : ¬ N.CountsExact := by
  intro h'
  have hlt := Finset.card_lt_card hsub
  have hone := Finset.card_pos.mpr hpos
  obtain ⟨-, hcount, -⟩ := h f (by omega)
  obtain ⟨-, hcount', -⟩ := h' f hone
  rw [hcounts, hcount] at hcount'
  omega

end LuckOS.PhysicalPaging
