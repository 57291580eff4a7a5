import LuckOS.Paging

/-!
# The nested loop of `release_pages`

The range is cut at the borders of the page tables, and a table that is not present is skipped.
The loops are one loop over the pages of the range that have a table.
-/

namespace LuckOS.Paging

open Function

variable {s t u : Paging} {p : Nat} {lo hi n : Nat}

/-! ## Borders of page tables -/

/-- The pages of table `i` between `lo` and `hi`. -/
def tablePages (lo hi i : Nat) : List Nat :=
  List.range' (max lo (i * 1024)) (min hi (i * 1024 + 1024) - max lo (i * 1024))

theorem div_of_mem_tablePages {i : Nat} (hp : p ∈ tablePages lo hi i) : p / 1024 = i := by
  have hmem := List.mem_range'_1.mp hp
  omega

/-- The first pages of a range are those of its first table. -/
theorem tablePages_first : tablePages lo hi (lo / 1024) =
    List.range' lo (min hi (lo / 1024 * 1024 + 1024) - lo) := by
  rw [tablePages, Nat.max_eq_left (by omega)]

/-- The other tables do not depend on where the range starts in the first one. -/
theorem tablePages_rest {i : Nat} (hi' : lo / 1024 < i) :
    tablePages lo hi i = tablePages (lo / 1024 * 1024 + 1024) hi i := by
  rw [tablePages, tablePages, Nat.max_eq_right (by omega), Nat.max_eq_right (by omega)]

/-- The tables cover the range, each page once and in order. -/
theorem flatMap_tablePages (hlo : lo < hi) (hn : lo / 1024 + n = (hi - 1) / 1024) :
    (List.range' (lo / 1024) (n + 1)).flatMap (tablePages lo hi) = List.range' lo (hi - lo) := by
  induction n generalizing lo with
  | zero =>
    rw [List.range'_one, List.flatMap_cons, List.flatMap_nil, List.append_nil, tablePages_first,
      Nat.min_eq_left (by omega)]
  | succ n ih =>
    have hnext : (lo / 1024 * 1024 + 1024) / 1024 = lo / 1024 + 1 := by omega
    have hrest : (List.range' (lo / 1024 + 1) (n + 1)).flatMap (tablePages lo hi) =
        List.range' (lo / 1024 * 1024 + 1024) (hi - (lo / 1024 * 1024 + 1024)) := by
      rw [← @ih (lo / 1024 * 1024 + 1024) (by omega) (by omega), hnext]
      apply List.flatMap_congr
      intro i hmem
      exact tablePages_rest (List.mem_range'_1.mp hmem).1
    have hsplit : hi - lo = (lo / 1024 * 1024 + 1024 - lo) +
      (hi - (lo / 1024 * 1024 + 1024)) := by omega
    have hborder : lo + (lo / 1024 * 1024 + 1024 - lo) = lo / 1024 * 1024 + 1024 := by omega
    rw [List.range'_succ, List.flatMap_cons, hrest, tablePages_first, Nat.min_eq_right (by omega),
      hsplit, ← List.range'_append_1,
      hborder]

/-! ## Pages that were released -/

/-- The pages `ps` were released: their entries are not present, and no other entry has changed. -/
structure Released (s : Paging) (ps : List Nat) (t : Paging) : Prop where
  crt : t.crt = s.crt
  pde : ∀ d, (t.dirs d).pde = (s.dirs d).pde
  pte : ∀ d p, (d = s.crt → p ∉ ps) → (t.dirs d).pte p = (s.dirs d).pte p
  kernelPte : ∀ p, p ∉ ps → t.kernelPte p = s.kernelPte p
  absent : ∀ p ∈ ps, (t.getPte p).present = false

theorem Released.getPde (h : Released s ps t) (i : Nat) : t.getPde i = s.getPde i := by
  rw [Paging.getPde, Paging.getPde, crtDir, crtDir, h.crt, h.pde]

theorem Released.getPte {ps : List Nat} (h : Released s ps t) (hp : p ∉ ps) :
    t.getPte p = s.getPte p := by
  rw [Paging.getPte, Paging.getPte, crtDir, crtDir, h.crt, h.pte s.crt p fun _ => hp, h.kernelPte p hp]

theorem Released.nil (s : Paging) :
    Released s [] s := ⟨rfl, fun _ => rfl, fun _ _ _ => rfl, fun _ _ => rfl, nofun⟩

theorem Released.append {ps qs : List Nat} (h : Released s ps t) (h' : Released t qs u) :
    Released s (ps ++ qs) u where
  crt := h'.crt.trans h.crt
  pde d := (h'.pde d).trans (h.pde d)
  pte d p hp := by
    have hout := fun hd => not_or.mp fun hmem => hp hd (List.mem_append.mpr hmem)
    rw [h'.pte d p fun hd => (hout (hd.trans h.crt)).2, h.pte d p fun hd => (hout hd).1]
  kernelPte p hp := by
    obtain ⟨hps, hqs⟩ := not_or.mp fun hmem => hp (List.mem_append.mpr hmem)
    rw [h'.kernelPte p hqs, h.kernelPte p hps]
  absent p hp := by
    by_cases hqs : p ∈ qs
    · exact h'.absent p hqs
    · rw [h'.getPte hqs]
      exact h.absent p ((List.mem_append.mp hp).resolve_right hqs)

/-- The count of a frame and the frame itself are no entries. -/
theorem Released.of_entries {ps : List Nat} (h : Released s ps u) (hcrt : t.crt = u.crt)
    (hdirs : t.dirs = u.dirs)
    (hkernel : t.kernelPte = u.kernelPte) : Released s ps t := by
  refine ⟨hcrt.trans h.crt, ?_, ?_, ?_, ?_⟩
  · rw [hdirs]
    exact h.pde
  · rw [hdirs]
    exact h.pte
  · rw [hkernel]
    exact h.kernelPte
  · intro p hp
    have hsame : t.getPte p = u.getPte p := by
      rw [Paging.getPte, Paging.getPte, crtDir, crtDir, hdirs, hcrt, hkernel]
    rw [hsame]
    exact h.absent p hp

theorem setCrtDir_dirs (s : Paging) (e : PageDir) (d : Nat) :
    (s.setCrtDir e).dirs d = if d = s.crt then e else s.dirs d := by
  apply update_apply

theorem setCrtDir_crtDir (s : Paging) (e : PageDir) : (s.setCrtDir e).crtDir = e := by
  apply update_self

theorem released_setPte (s : Paging) (p : Nat) : Released s [p] (s.setPte p .zero) := by
  rw [setPte]
  split_ifs with huser
  · refine ⟨rfl, fun d => ?_, fun d q hq => ?_, fun _ _ => rfl, fun q hq => ?_⟩
    · rw [setCrtDir_dirs]
      split_ifs with hd
      · rw [hd, crtDir]
      · rfl
    · rw [setCrtDir_dirs]
      split_ifs with hd
      · rw [hd]
        exact update_of_ne (fun heq => hq hd (List.mem_singleton.mpr heq)) ..
      · rfl
    · obtain rfl := List.mem_singleton.mp hq
      rw [Paging.getPte, if_pos huser, setCrtDir_crtDir]
      exact congrArg Pte.present (update_self q Pte.zero s.crtDir.pte)
  · refine ⟨rfl, fun _ => rfl, fun _ _ _ => rfl, fun q hq => ?_, fun q hq => ?_⟩
    · exact update_of_ne (fun heq => hq (List.mem_singleton.mpr heq)) ..
    · obtain rfl := List.mem_singleton.mp hq
      rw [Paging.getPte, if_neg huser]
      exact congrArg Pte.present (update_self q Pte.zero s.kernelPte)

/-- What a count that is changed leaves alone. -/
theorem changeCowFrameRefcount_entries (s : Paging) (frame : Nat) (delta : Int) :
    (s.changeCowFrameRefcount frame delta).2.crt = s.crt ∧
    (s.changeCowFrameRefcount frame delta).2.dirs = s.dirs ∧
      (s.changeCowFrameRefcount frame delta).2.kernelPte = s.kernelPte := by
  rw [changeCowFrameRefcount]
  split_ifs <;> exact ⟨rfl, rfl, rfl⟩

/-- `release_page` releases its page. -/
theorem releasePage_released (s : Paging) (p : Nat) (freeFrame : Bool) :
    Released s [p] (s.releasePage (p * pageSize) freeFrame) := by
  have hdiv : p * pageSize / pageSize = p := Nat.mul_div_cancel p (by decide)
  simp only [releasePage, hdiv]
  by_cases hpresent : (s.getPte p).present
  · rw [if_neg (by rw [hpresent]; decide)]
    obtain ⟨hcrt, hdirs, hkernel⟩ := changeCowFrameRefcount_entries s (s.getPte p).frame (-1)
    have hfreed : Released s [] (if (s.changeCowFrameRefcount (s.getPte p).frame (-1)).1 ≤ 0 then
        (s.changeCowFrameRefcount (s.getPte p).frame (-1)).2.releasePhyFrame (s.getPte p).frame
        else (s.changeCowFrameRefcount (s.getPte p).frame (-1)).2) := by
      split_ifs <;> exact (Released.nil s).of_entries hcrt hdirs hkernel
    cases freeFrame with
    | true => exact hfreed.append (released_setPte _ p)
    | false => exact released_setPte s p
  · have habsent : (s.getPte p).present = false := Bool.eq_false_iff.mpr hpresent
    rw [if_pos (by rw [habsent]; rfl)]
    refine ⟨rfl, fun _ => rfl, fun _ _ _ => rfl, fun _ _ => rfl, fun q hq => ?_⟩
    obtain rfl := List.mem_singleton.mp hq
    exact habsent

/-- The pages are released one after the other. -/
def releaseEach (s : Paging) (ps : List Nat) (freeFrame : Bool) : Paging :=
  ps.foldl (fun s p => s.releasePage (p * pageSize) freeFrame) s

theorem releaseEach_append (ps qs : List Nat) (freeFrame : Bool) :
    s.releaseEach (ps ++ qs) freeFrame = (s.releaseEach ps freeFrame).releaseEach qs freeFrame := by
  apply List.foldl_append

theorem releaseEach_released (s : Paging) (ps : List Nat) (freeFrame : Bool) :
    Released s ps (s.releaseEach ps freeFrame) := by
  induction ps generalizing s with
  | nil => exact .nil s
  | cons p ps ih => exact (releasePage_released s p freeFrame).append (ih _)

/-! ## The loops -/

/-- The pages of the table that is present, or none. -/
def presentPages (s : Paging) (lo hi i : Nat) : List Nat :=
  if (s.getPde i).present then tablePages lo hi i else []

/-- The outer loop releases the pages of the tables that are present; it changes no directory entry. -/
theorem foldl_tables (is : List Nat) (freeFrame : Bool) :
    is.foldl (fun s i => if !(s.getPde i).present then s
      else s.releaseEach (tablePages lo hi i) freeFrame) s =
      s.releaseEach (is.flatMap (s.presentPages lo hi)) freeFrame := by
  induction is generalizing s with
  | nil => rfl
  | cons i is ih =>
    rw [List.foldl_cons, List.flatMap_cons, releaseEach_append, presentPages]
    by_cases hpresent : (s.getPde i).present
    · have hsame : (s.releaseEach (tablePages lo hi i) freeFrame).presentPages lo hi =
        s.presentPages lo hi := by
        funext j
        rw [presentPages, (releaseEach_released s _ freeFrame).getPde]
        rfl
      rw [if_neg (by rw [hpresent]; decide), if_pos hpresent, ih, hsame]
    · rw [if_pos (by rw [Bool.eq_false_iff.mpr hpresent]; rfl), if_neg hpresent, ih]
      rfl

/-- The pages of a range that have a table. -/
def rangePages (s : Paging) (lo n : Nat) : List Nat :=
  (List.range' lo n).filter fun p => (s.getPde (p / 1024)).present

theorem presentPages_eq (i : Nat) :
    s.presentPages lo hi i = (tablePages lo hi i).filter fun p => (s.getPde (p / 1024)).present := by
  by_cases hpresent : (s.getPde i).present
  · rw [presentPages, if_pos hpresent, List.filter_eq_self.mpr]
    intro p hp
    rwa [div_of_mem_tablePages hp]
  · rw [presentPages, if_neg hpresent, eq_comm, List.filter_eq_nil_iff]
    intro p hp
    rwa [div_of_mem_tablePages hp]

/-- `release_pages` without the clamps of its loops. -/
theorem releasePages_eq {virtualAddr pages : Nat} (hpages : 1 ≤ pages)
    (hend : virtualAddr / pageSize + pages ≤ 2 ^ 20)
    (freeFrame : Bool) : s.releasePages virtualAddr pages freeFrame =
      s.releaseEach (s.rangePages (virtualAddr / pageSize) pages) freeFrame := by
  generalize hstart : virtualAddr / pageSize = start at hend
  have hpteEnd : u32 (start + pages) = start + pages := Nat.mod_eq_of_lt (by omega)
  have hlast : u32 (start + pages + (2 ^ 32 - 1)) = start + pages - 1 := by
    have hsum : start + pages + (2 ^ 32 - 1) = (start + pages - 1) + 2 ^ 32 := by omega
    rw [u32, hsum, Nat.add_mod_right, Nat.mod_eq_of_lt (by omega)]
  have htables : (start + pages - 1) / 1024 + 1 - start / 1024 =
    ((start + pages - 1) / 1024 - start / 1024) + 1 := by omega
  have hcover : (List.range' (start / 1024) ((start + pages - 1) / 1024 - start / 1024 + 1)).flatMap
      (tablePages start (start + pages)) = List.range' start (start + pages - start) := by
    apply flatMap_tablePages <;> omega
  rw [Nat.add_sub_cancel_left] at hcover
  have hpresent : (List.range' (start / 1024) ((start + pages - 1) / 1024 - start / 1024 + 1)).flatMap
      (s.presentPages start (start + pages)) = s.rangePages start pages := by
    rw [rangePages, ← hcover, List.filter_flatMap]
    exact List.flatMap_congr fun i _ => presentPages_eq i
  simp only [releasePages, hstart, hpteEnd, hlast, forRange, htables]
  rw [← hpresent, ← foldl_tables]
  rfl

end LuckOS.Paging
