import LuckOS.PagingUser

/-!
# Release of the user space

`release_user_space_pages` removes all references of the current directory and gives
back the frames whose last reference goes away, and then the frames of the page
tables. The log `released` tells which frames were given back.
-/

namespace LuckOS.Paging

open CopyOnWrite Outcome

variable {s t u : Paging} {p : Nat}

/-- A user page of some directory is mapped to the frame. -/
def IsMapped (s : Paging) (f : Nat) : Prop := (s.store.sharers f).Nonempty

theorem isMapped_iff {f : Nat} : s.IsMapped f ↔ ∃ k r, s.refs k = some r ∧ r.frame = f := by
  constructor
  · rintro ⟨k, w, hk⟩
    exact ⟨k, ⟨f, w⟩, hk, rfl⟩
  · rintro ⟨k, r, hk, rfl⟩
    exact ⟨k, r.writable, hk⟩

/-- The frame that loses its last reference when the reference of `x` goes away. -/
def lastFrame (s : Paging) (x : Nat × Nat) : Option Nat :=
  match s.refs x with
  | none => none
  | some r => if s.cowCount r.frame = 0 then some r.frame else none

/-- The effect of releasing the user page `p` of the current directory. -/
structure Dropped (s : Paging) (p : Nat) (t : Paging) : Prop where
  wf : t.Wf
  crt : t.crt = s.crt
  dirsNum : t.dirsNum = s.dirsNum
  frame : ∀ d, (t.dirs d).frame = (s.dirs d).frame
  pde : ∀ d, (t.dirs d).pde = (s.dirs d).pde
  refs : t.refs = Function.update s.refs (s.crt, p) none
  view : ∀ x, t.pageView x = if x = (s.crt, p) then fun _ => 0 else s.pageView x
  released : t.released = (s.lastFrame (s.crt, p)).toList ++ s.released
  bytes : t.bytes = s.bytes
  counts : ∀ f, (∀ r, s.refs (s.crt, p) = some r → r.frame ≠ f) → t.cowCount f = s.cowCount f
  used : ∀ f, s.phyFramesMap.testBit f = true →
    s.lastFrame (s.crt, p) = some f ∨ t.phyFramesMap.testBit f = true

/-- A page that is not present stays so. -/
theorem Wf.dropped_absent (hs : s.Wf) (hnone : s.refs (s.crt, p) = none) : Dropped s p s where
  wf := hs
  crt := rfl
  dirsNum := rfl
  frame _ := rfl
  pde _ := rfl
  refs := by
    rw [eq_comm, Function.update_eq_self_iff, hnone]
  view x := by
    split_ifs with hx
    · rw [hx]
      exact Store.view_of_none (s := s.store) hnone
    · rfl
  released := by
    simp [lastFrame, hnone]
  bytes := rfl
  counts _ _ := rfl
  used _ hf := .inr hf

theorem Wf.dropped_present (hs : s.Wf) (hp : isUserPage p) (hpresent : ((s.dirs s.crt).pte p).present)
    (ht : PteStep s p .zero t) (hpos : ∀ f c, t.frameCowRefCounts f = some c → 0 < c)
    (hcounts : t.cowCount =
      Function.update s.cowCount ((s.dirs s.crt).pte p).frame (s.cowCount ((s.dirs s.crt).pte p).frame - 1))
    (hused : ∀ f, t.phyFramesMap.testBit f = (s.phyFramesMap.testBit f &&
      !decide (f = ((s.dirs s.crt).pte p).frame ∧ s.cowCount f = 0)))
    (hbytes : t.bytes = s.bytes)
    (hreleased : t.released = (if s.cowCount ((s.dirs s.crt).pte p).frame = 0 then
      [((s.dirs s.crt).pte p).frame] else []) ++ s.released) : Dropped s p t := by
  have hpde : (s.getPde (p / 1024)).present := hs.tables _ hs.crt_lt p hp hpresent
  have href := hs.ref_eq hs.crt_lt hp hpresent
  have hrefs : t.refs = Function.update s.refs (s.crt, p) none := ht.refs hp hs.crt_lt hpde
  have hdetach := hs.sound.detach href
  have hsound : t.store.Sound := by
    by_cases hlast : s.cowCount ((s.dirs s.crt).pte p).frame = 0
    · have hstore : t.store = (s.store.detach (s.crt, p) ((s.dirs s.crt).pte p).frame).discard
          ((s.dirs s.crt).pte p).frame := by
        simp only [store, Store.detach, Store.discard, hrefs, hcounts, hbytes, Store.mk.injEq, true_and, and_true]
        ext f
        by_cases hf : f = ((s.dirs s.crt).pte p).frame
        · subst hf
          simp [usedFrames, hused, hlast]
        · simp [usedFrames, hused, hf]
      have hempty : (s.store.detach (s.crt, p) ((s.dirs s.crt).pte p).frame).sharers
          ((s.dirs s.crt).pte p).frame = ∅ := by
        rw [Store.sharers_detach, hs.sound.sharers_eq_singleton href hlast, sdiff_self]
        rfl
      rw [hstore]
      exact hdetach.discard hempty
    · have hstore : t.store = s.store.detach (s.crt, p) ((s.dirs s.crt).pte p).frame := by
        simp only [store, Store.detach, hrefs, hcounts, hbytes, Store.mk.injEq, true_and, and_true]
        ext f
        by_cases hf : f = ((s.dirs s.crt).pte p).frame
        · subst hf
          simp [usedFrames, hused, hlast]
        · simp [usedFrames, hused, hf]
      rw [hstore]
      exact hdetach
  refine ⟨?_, ht.crt, ht.dirsNum, ht.frame hp, ht.pde hp, hrefs, ?_, ?_, hbytes, ?_, ?_⟩
  · refine hs.pteStep hp hpde ht hsound hpos ?_ (by simp [Pte.zero]) (by simp [Pte.zero])
    intro x f hx
    have hne := hs.owner_private x f hx _ _ href
    simp [hused, hs.owner_used x f hx, Ne.symm hne]
  · intro x
    have hview : t.pageView x = (s.store.detach (s.crt, p) ((s.dirs s.crt).pte p).frame).view (fun _ => 0) x := by
      simp only [pageView, Store.view, store, Store.detach, hrefs, hbytes]
    rw [hview, Store.view_detach]
    rfl
  · rw [hreleased, lastFrame, href]
    split_ifs with hlast <;> simp [hlast]
  · intro f hf
    rw [hcounts, Function.update_of_ne (hf _ href).symm]
  · intro f hf
    by_cases hlast : f = ((s.dirs s.crt).pte p).frame ∧ s.cowCount f = 0
    · left
      simp [lastFrame, href, ← hlast.1, hlast.2]
    · right
      simp [hused, hf, hlast]

theorem releasePage_user (hs : s.Wf) (hp : isUserPage p) : Dropped s p (s.releasePage (p * pageSize) true) := by
  have hdiv : p * pageSize / pageSize = p := by
    simp [pageSize]
  rw [releasePage, hdiv, getPte_user hp, crtDir]
  by_cases hpresent : ((s.dirs s.crt).pte p).present
  · obtain ⟨counts, hchange, hpos, hcounts⟩ :=
      changeCowFrameRefcount_spec hs.ready hs.counts_pos ((s.dirs s.crt).pte p).frame (-1)
    simp only [hpresent, hchange, Bool.not_true, Bool.false_eq_true, if_false, if_true]
    have hcount : ∀ f, ((counts f).getD 0).toNat = Function.update s.cowCount ((s.dirs s.crt).pte p).frame
        (s.cowCount ((s.dirs s.crt).pte p).frame - 1) f := by
      intro f
      rw [hcounts f]
      congr 1
      omega
    by_cases hlast : s.cowCount ((s.dirs s.crt).pte p).frame = 0
    · rw [if_pos (by omega)]
      refine hs.dropped_present hp hpresent ⟨?_, ?_, ?_, ?_, ?_, ?_⟩ ?_ ?_ ?_ ?_ ?_ <;>
        simp only [releasePhyFrame, setPte_user hp, setCrtDir, crtDir, Bitmap.sizes_clearBit]
      · exact fun hk => hk
      · exact hpos
      · exact funext hcount
      · intro f
        by_cases hf : f = ((s.dirs s.crt).pte p).frame
        · subst hf
          simp [Bitmap.testBit_clearBit, hlast]
        · simp [Bitmap.testBit_clearBit, hf]
      · simp [hlast]
    · rw [if_neg (by omega)]
      refine hs.dropped_present hp hpresent ⟨?_, ?_, ?_, ?_, ?_, ?_⟩ ?_ ?_ ?_ ?_ ?_ <;>
        simp only [setPte_user hp, setCrtDir, crtDir]
      · exact fun hk => hk
      · exact hpos
      · exact funext hcount
      · intro f
        by_cases hf : f = ((s.dirs s.crt).pte p).frame
        · subst hf
          simp [hlast]
        · simp [hf]
      · simp [hlast]
  · simp only [hpresent, Bool.not_false, if_true]
    exact hs.dropped_absent (refs_of_absent (by simpa using hpresent))

/-- The effect of releasing the user pages `dropped` of the current directory. -/
structure PagesDropped (s : Paging) (dropped : Nat → Prop) (t : Paging) : Prop where
  wf : t.Wf
  crt : t.crt = s.crt
  dirsNum : t.dirsNum = s.dirsNum
  frame : ∀ d, (t.dirs d).frame = (s.dirs d).frame
  pde : ∀ d, (t.dirs d).pde = (s.dirs d).pde
  dropped_refs : ∀ q, dropped q → t.refs (s.crt, q) = none
  refs : ∀ x, ¬ (x.1 = s.crt ∧ dropped x.2) → t.refs x = s.refs x
  dropped_view : ∀ q, dropped q → t.pageView (s.crt, q) = fun _ => 0
  view : ∀ x, ¬ (x.1 = s.crt ∧ dropped x.2) → t.pageView x = s.pageView x
  released : ∃ l : List Nat, t.released = l ++ s.released ∧ l.Nodup ∧ ∀ f, f ∈ l ↔ s.IsMapped f ∧ ¬ t.IsMapped f

theorem PagesDropped.refl (hs : s.Wf) : PagesDropped s (fun _ => False) s :=
  ⟨hs, rfl, rfl, fun _ => rfl, fun _ => rfl, fun _ h => h.elim, fun _ _ => rfl, fun _ h => h.elim, fun _ _ => rfl,
    [], rfl, List.nodup_nil, by simp⟩

theorem Dropped.isMapped (h : Dropped s p t) {f : Nat} (hf : t.IsMapped f) : s.IsMapped f := by
  obtain ⟨k, r, hk, rfl⟩ := isMapped_iff.mp hf
  rw [h.refs] at hk
  by_cases hkey : k = (s.crt, p)
  · simp [hkey] at hk
  · rw [Function.update_of_ne hkey] at hk
    exact isMapped_iff.mpr ⟨k, r, hk, rfl⟩

/-- The released frame is the one whose last reference went away. -/
theorem Dropped.lastFrame_eq_some (hs : s.Wf) (h : Dropped s p t) {f : Nat} :
    s.lastFrame (s.crt, p) = some f ↔ s.IsMapped f ∧ ¬ t.IsMapped f := by
  constructor
  · intro hlast
    rw [lastFrame] at hlast
    cases href : s.refs (s.crt, p) with
    | none => simp [href] at hlast
    | some r =>
      simp only [href] at hlast
      split_ifs at hlast with hcount
      cases hlast
      refine ⟨isMapped_iff.mpr ⟨_, r, href, rfl⟩, fun hmapped => ?_⟩
      obtain ⟨k, r', hk, hr'⟩ := isMapped_iff.mp hmapped
      rw [h.refs] at hk
      by_cases hkey : k = (s.crt, p)
      · simp [hkey] at hk
      · rw [Function.update_of_ne hkey] at hk
        have hmem : k ∈ s.store.sharers r.frame := by
          rw [← hr']
          exact Store.mem_sharers (s := s.store) hk
        rw [hs.sound.sharers_eq_singleton (k := (s.crt, p)) href hcount] at hmem
        exact hkey hmem
  · rintro ⟨hmapped, hgone⟩
    have hthrough : ∀ k r, s.refs k = some r → r.frame = f → k = (s.crt, p) := by
      intro k r hk hr
      by_contra hkey
      exact hgone (isMapped_iff.mpr ⟨k, r, by rw [h.refs, Function.update_of_ne hkey, hk], hr⟩)
    obtain ⟨k, r, hk, rfl⟩ := isMapped_iff.mp hmapped
    obtain rfl := hthrough k r hk rfl
    have hcount : s.cowCount r.frame = 0 := by
      by_contra hne
      obtain ⟨k', hne', w, hk'⟩ := hs.sound.exists_other (k := (s.crt, p)) (f := r.frame) (Nat.pos_of_ne_zero hne)
      exact hne' (hthrough k' _ hk' rfl)
    simp [lastFrame, hk, hcount]

theorem PagesDropped.snoc {dropped : Nat → Prop} (h : PagesDropped s dropped t) (h' : Dropped t p u) :
    PagesDropped s (fun q => dropped q ∨ q = p) u := by
  have hne : ∀ x : Nat × Nat, ¬ (x.1 = s.crt ∧ (dropped x.2 ∨ x.2 = p)) → x ≠ (t.crt, p) := by
    rintro x hx rfl
    exact hx ⟨h.crt, .inr rfl⟩
  refine ⟨h'.wf, h'.crt.trans h.crt, h'.dirsNum.trans h.dirsNum, fun d => (h'.frame d).trans (h.frame d),
    fun d => (h'.pde d).trans (h.pde d), ?_, ?_, ?_, ?_, ?_⟩
  · intro q hq
    rw [h'.refs, h.crt]
    by_cases hqp : q = p
    · simp [hqp]
    · rw [Function.update_of_ne (by simpa using hqp)]
      exact h.dropped_refs q (hq.resolve_right hqp)
  · intro x hx
    rw [h'.refs, Function.update_of_ne (hne x hx)]
    exact h.refs x fun hx' => hx ⟨hx'.1, .inl hx'.2⟩
  · intro q hq
    rw [h'.view, h.crt]
    by_cases hqp : q = p
    · simp [hqp]
    · rw [if_neg (by simpa using hqp)]
      exact h.dropped_view q (hq.resolve_right hqp)
  · intro x hx
    rw [h'.view, if_neg (hne x hx)]
    exact h.view x fun hx' => hx ⟨hx'.1, .inl hx'.2⟩
  · obtain ⟨l, hl, hnodup, hmem⟩ := h.released
    refine ⟨(t.lastFrame (t.crt, p)).toList ++ l, ?_, ?_, ?_⟩
    · rw [h'.released, hl, List.append_assoc]
    · rw [List.nodup_append]
      refine ⟨?_, hnodup, ?_⟩
      · cases t.lastFrame (t.crt, p) <;> simp
      · rintro f hf g hg rfl
        rw [Option.mem_toList] at hf
        exact ((hmem f).mp hg).2 ((h'.lastFrame_eq_some h.wf).mp hf).1
    · intro f
      rw [List.mem_append, Option.mem_toList, h'.lastFrame_eq_some h.wf, hmem]
      constructor
      · rintro (⟨hf, hgone⟩ | ⟨hf, hgone⟩)
        · refine ⟨?_, hgone⟩
          obtain ⟨k, r, hk, rfl⟩ := isMapped_iff.mp hf
          by_cases hx : k.1 = s.crt ∧ dropped k.2
          · obtain ⟨d, q⟩ := k
            obtain ⟨rfl, hq⟩ := hx
            simp [h.dropped_refs q hq] at hk
          · rw [h.refs k hx] at hk
            exact isMapped_iff.mpr ⟨k, r, hk, rfl⟩
        · exact ⟨hf, fun hu => hgone (h'.isMapped hu)⟩
      · rintro ⟨hf, hgone⟩
        by_cases ht : t.IsMapped f
        · exact .inl ⟨ht, hgone⟩
        · exact .inr ⟨hf, ht⟩

/-- Pages without a reference count as released. -/
theorem PagesDropped.of_none {dropped dropped' : Nat → Prop} (h : PagesDropped s dropped t)
    (hsub : ∀ q, dropped q → dropped' q) (hnone : ∀ q, dropped' q → ¬ dropped q → t.refs (s.crt, q) = none) :
    PagesDropped s dropped' t where
  wf := h.wf
  crt := h.crt
  dirsNum := h.dirsNum
  frame := h.frame
  pde := h.pde
  dropped_refs q hq := by
    by_cases hd : dropped q
    · exact h.dropped_refs q hd
    · exact hnone q hq hd
  refs x hx := h.refs x fun hx' => hx ⟨hx'.1, hsub _ hx'.2⟩
  dropped_view q hq := by
    by_cases hd : dropped q
    · exact h.dropped_view q hd
    · exact Store.view_of_none (s := t.store) (hnone q hq hd)
  view x hx := h.view x fun hx' => hx ⟨hx'.1, hsub _ hx'.2⟩
  released := h.released

/-- The pages of one page table. -/
theorem releaseTable_spec {dropped : Nat → Prop} {i : Nat} (h : PagesDropped s dropped t) (hi : isUserTable i) :
    PagesDropped s (fun q => dropped q ∨ q / 1024 = i)
      (if !(t.getPde i).present then t
      else forRange (max 1024 (i * 1024)) (min (768 * 1024) (i * 1024 + 1024)) t
        (fun t j => t.releasePage (j * pageSize) true)) := by
  have hbounds : 1 ≤ i ∧ i < 768 := by simpa [isUserTable] using hi
  by_cases hpresent : (t.getPde i).present
  · rw [if_neg (by simp [hpresent]), forRange]
    have hloop := foldl_invariant (l := List.range' (max 1024 (i * 1024))
        (min (768 * 1024) (i * 1024 + 1024) - max 1024 (i * 1024)))
      (f := fun (t : Paging) j => t.releasePage (j * pageSize) true) (b := t)
      (I := fun done u => PagesDropped s (fun q => dropped q ∨ q ∈ done) u)
      (by simpa using h) ?_
    · refine hloop.of_none ?_ ?_
      · rintro q (hq | hq)
        · exact .inl hq
        · rw [List.mem_range'_1] at hq
          exact .inr (by omega)
      · rintro q (hq | hq) hnot
        · exact absurd (.inl hq) hnot
        · refine absurd (.inr ?_) hnot
          rw [List.mem_range'_1]
          omega
    · intro done j rest u hsplit hu
      have hj : j ∈ List.range' (max 1024 (i * 1024)) (min (768 * 1024) (i * 1024 + 1024) - max 1024 (i * 1024)) := by
        simp [hsplit]
      rw [List.mem_range'_1] at hj
      have huser : isUserPage j := by
        simp only [isUserPage, decide_eq_true_eq]
        omega
      have hstep := hu.snoc (releasePage_user hu.wf huser)
      simpa [or_assoc] using hstep
  · rw [if_pos (by simp [hpresent])]
    refine h.of_none (fun q hq => .inl hq) ?_
    rintro q (hq | rfl) hnot
    · exact absurd hq hnot
    · have habsent : ((t.dirs s.crt).pde (q / 1024)).present = false := by
        rw [getPde, crtDir, h.crt] at hpresent
        simpa using hpresent
      simp [refs, PageDir.ref, habsent]

theorem releasePages_user (hs : s.Wf) :
    PagesDropped s (fun q => isUserPage q) (s.releasePages (4 * 1024 * 1024) (767 * 1024) true) := by
  have hloop := foldl_invariant (l := List.range' 1 767)
    (f := fun (t : Paging) i => if !(t.getPde i).present then t
      else forRange (max 1024 (i * 1024)) (min (768 * 1024) (i * 1024 + 1024)) t
        (fun t j => t.releasePage (j * pageSize) true)) (b := s)
    (I := fun done u => PagesDropped s (fun q => q / 1024 ∈ done) u)
    (by simpa using PagesDropped.refl hs) ?_
  · refine hloop.of_none ?_ ?_
    · intro q hq
      rw [List.mem_range'_1] at hq
      simp only [isUserPage, decide_eq_true_eq]
      omega
    · intro q hq hnot
      refine absurd ?_ hnot
      simp only [isUserPage, decide_eq_true_eq] at hq
      rw [List.mem_range'_1]
      omega
  · intro done i rest u hsplit hu
    have hi : i ∈ List.range' 1 767 := by simp [hsplit]
    rw [List.mem_range'_1] at hi
    have huser : isUserTable i := by
      simp only [isUserTable, decide_eq_true_eq]
      omega
    have hstep := releaseTable_spec hu huser
    simpa using hstep

/-- The effect of giving back page tables of the current directory. -/
structure TablesDropped (s t : Paging) : Prop where
  wf : t.Wf
  crt : t.crt = s.crt
  dirsNum : t.dirsNum = s.dirsNum
  frame : ∀ d, (t.dirs d).frame = (s.dirs d).frame
  refs : t.refs = s.refs
  view : t.pageView = s.pageView
  owner : ∀ x f, t.owner x = some f → s.owner x = some f
  released : ∃ l : List Nat, t.released = l ++ s.released ∧ ∀ f ∈ l, ∃ x, s.owner x = some f

theorem TablesDropped.refl (hs : s.Wf) : TablesDropped s s :=
  ⟨hs, rfl, rfl, fun _ => rfl, rfl, rfl, fun _ _ h => h, [], rfl, by simp⟩

theorem TablesDropped.trans (h : TablesDropped s t) (h' : TablesDropped t u) : TablesDropped s u where
  wf := h'.wf
  crt := h'.crt.trans h.crt
  dirsNum := h'.dirsNum.trans h.dirsNum
  frame d := (h'.frame d).trans (h.frame d)
  refs := h'.refs.trans h.refs
  view := h'.view.trans h.view
  owner x f hx := h.owner x f (h'.owner x f hx)
  released := by
    obtain ⟨l, hl, hown⟩ := h.released
    obtain ⟨l', hl', hown'⟩ := h'.released
    refine ⟨l' ++ l, by rw [hl', hl, List.append_assoc], ?_⟩
    intro f hf
    rcases List.mem_append.mp hf with hf | hf
    · obtain ⟨x, hx⟩ := hown' f hf
      exact ⟨x, h.owner x f hx⟩
    · exact hown f hf

section DropTable

variable {i : Nat}

/-- The state after the page table at index `i` was given back. -/
def dropTable (s : Paging) (i : Nat) : Paging := (s.releasePhyFrame (s.getPde i).frame).setPde i .zero

theorem dropTable_pde (d j : Nat) :
    ((s.dropTable i).dirs d).pde j = if d = s.crt ∧ j = i then .zero else (s.dirs d).pde j := by
  rw [dropTable, setPde, setCrtDir, crtDir]
  by_cases hd : d = s.crt
  · subst hd
    by_cases hj : j = i <;> simp [hj, releasePhyFrame]
  · simp [hd, releasePhyFrame]

theorem dropTable_pte (d : Nat) : ((s.dropTable i).dirs d).pte = (s.dirs d).pte := by
  rw [dropTable, setPde, setCrtDir, crtDir]
  by_cases hd : d = s.crt
  · subst hd
    simp [releasePhyFrame]
  · simp [hd, releasePhyFrame]

theorem dropTable_frame (d : Nat) : ((s.dropTable i).dirs d).frame = (s.dirs d).frame := by
  rw [dropTable, setPde, setCrtDir, crtDir]
  by_cases hd : d = s.crt
  · subst hd
    simp [releasePhyFrame]
  · simp [hd, releasePhyFrame]

theorem dropTable_refs (hnone : ∀ q, s.refs (s.crt, q) = none) : (s.dropTable i).refs = s.refs := by
  have hnum : (s.dropTable i).dirsNum = s.dirsNum := rfl
  funext ⟨d, q⟩
  by_cases hd : d = s.crt
  · subst hd
    have hq := hnone q
    rw [hq]
    simp only [refs, PageDir.ref] at hq ⊢
    simp only [hnum, dropTable_pde, dropTable_pte]
    by_cases hi : q / 1024 = i
    · simp [hi, Pte.zero]
    · simpa [hi] using hq
  · simp only [refs, PageDir.ref, hnum, dropTable_pde, dropTable_pte, hd, false_and, if_false]

theorem dropTable_owner (hi : isUserTable i) : (s.dropTable i).owner = Function.update s.owner (s.crt, i) none := by
  have hnum : (s.dropTable i).dirsNum = s.dirsNum := rfl
  obtain ⟨hi0, hi1⟩ := isUserTable_ne hi
  funext ⟨d, j⟩
  simp only [owner, dropTable_pde, dropTable_frame, hnum]
  by_cases hx : d = s.crt ∧ j = i
  · obtain ⟨rfl, rfl⟩ := hx
    simp [hi0, hi1, Pte.zero]
  · have hne : (d, j) ≠ (s.crt, i) := by simpa using hx
    rw [Function.update_of_ne hne]
    simp only [if_neg hx, owner]

theorem dropTable_testBit (f : Nat) : (s.dropTable i).phyFramesMap.testBit f =
    (s.phyFramesMap.testBit f && !decide (f = (s.getPde i).frame)) := by
  change (s.phyFramesMap.clearBit (s.getPde i).frame).testBit f = _
  rw [Bitmap.testBit_clearBit, Bool.and_comm]

theorem Wf.owner_table (hs : s.Wf) (hi : isUserTable i) (hpresent : (s.getPde i).present) :
    s.owner (s.crt, i) = some (s.getPde i).frame := by
  obtain ⟨hi0, hi1⟩ := isUserTable_ne hi
  rw [getPde, crtDir] at hpresent ⊢
  simp [owner, hs.crt_lt, hi0, hi1, hi, hpresent]

theorem Wf.dropTable (hs : s.Wf) (hi : isUserTable i) (hpresent : (s.getPde i).present)
    (hnone : ∀ q, s.refs (s.crt, q) = none) : (s.dropTable i).Wf := by
  have hown := hs.owner_table hi hpresent
  have hrefs := dropTable_refs (i := i) hnone
  have hother : ∀ x f, (s.dropTable i).owner x = some f → s.owner x = some f ∧ f ≠ (s.getPde i).frame := by
    intro x f hx
    rw [dropTable_owner hi] at hx
    by_cases hkey : x = (s.crt, i)
    · simp [hkey] at hx
    · rw [Function.update_of_ne hkey] at hx
      refine ⟨hx, ?_⟩
      rintro rfl
      exact hkey (hs.owner_inj x _ _ hx hown)
  constructor
  · have hstore : (s.dropTable i).store = s.store.discard (s.getPde i).frame := by
      simp only [store, Store.discard, hrefs, Store.mk.injEq, true_and]
      refine ⟨rfl, ?_, rfl⟩
      ext f
      simp [usedFrames, dropTable_testBit]
    rw [hstore]
    apply hs.sound.discard
    apply Set.eq_empty_of_forall_notMem
    rintro k ⟨w, hk⟩
    exact hs.owner_private _ _ hown k _ hk rfl
  · exact hs.ready
  · exact hs.counts_pos
  · exact hs.crt_lt
  · intro d hd q hq hpte
    rw [dropTable_pte] at hpte
    rw [dropTable_pde, if_neg]
    · exact hs.tables d hd q hq hpte
    · rintro ⟨rfl, -⟩
      have href := hs.ref_eq hs.crt_lt hq hpte
      simp [hnone q] at href
  · intro d hd j hj hk
    rw [dropTable_pde, if_neg]
    · exact hs.kernel_pde d hd j hj hk
    · rintro ⟨-, rfl⟩
      exact hk hi
  · exact hs.kernel_rw
  · exact (Bitmap.sizes_clearBit _ _).trans hs.size
  · intro x f hx
    obtain ⟨hold, hne⟩ := hother x f hx
    simp [dropTable_testBit, hs.owner_used x f hold, hne]
  · intro x f hx k r hk
    rw [hrefs] at hk
    exact hs.owner_private x f (hother x f hx).1 k r hk
  · intro x y f hx hy
    exact hs.owner_inj x y f (hother x f hx).1 (hother y f hy).1
  · rw [hrefs]
    exact hs.aligned

theorem dropTable_spec (hs : s.Wf) (hi : isUserTable i) (hpresent : (s.getPde i).present)
    (hnone : ∀ q, s.refs (s.crt, q) = none) : TablesDropped s (s.dropTable i) where
  wf := hs.dropTable hi hpresent hnone
  crt := rfl
  dirsNum := rfl
  frame := dropTable_frame
  refs := dropTable_refs hnone
  view := by
    funext x
    exact Store.view_congr (s := s.store) (t := (s.dropTable i).store) (congrFun (dropTable_refs hnone) x)
      fun _ _ => rfl
  owner x f hx := by
    rw [dropTable_owner hi] at hx
    by_cases hkey : x = (s.crt, i)
    · simp [hkey] at hx
    · rwa [Function.update_of_ne hkey] at hx
  released := by
    refine ⟨[(s.getPde i).frame], rfl, ?_⟩
    intro f hf
    rw [List.mem_singleton] at hf
    subst hf
    exact ⟨(s.crt, i), hs.owner_table hi hpresent⟩

end DropTable

theorem releasePagesTables_user (hs : s.Wf) (hnone : ∀ q, s.refs (s.crt, q) = none) :
    TablesDropped s (s.releasePagesTables 1 767) := by
  rw [releasePagesTables, forRange]
  refine foldl_invariant (I := fun _ u => TablesDropped s u) (TablesDropped.refl hs) ?_
  intro done i rest u hsplit hu
  have hi : i ∈ List.range' 1 (1 + 767 - 1) := by simp [hsplit]
  rw [List.mem_range'_1] at hi
  have huser : isUserTable i := by
    simp only [isUserTable, decide_eq_true_eq]
    omega
  by_cases hpresent : (u.getPde i).present
  · rw [if_neg (by simp [hpresent])]
    refine hu.trans (dropTable_spec hu.wf huser hpresent ?_)
    rw [hu.refs, hu.crt]
    exact hnone
  · rw [if_pos (by simp [hpresent])]
    exact hu

/-- The effect of `release_user_space_pages`. The frames that it gives back are those
that are not mapped any more, each once, and frames that were not mapped before. -/
structure UserReleased (s t : Paging) : Prop where
  wf : t.Wf
  crt : t.crt = s.crt
  dirsNum : t.dirsNum = s.dirsNum
  frame : ∀ d, (t.dirs d).frame = (s.dirs d).frame
  crt_refs : ∀ q, t.refs (s.crt, q) = none
  refs : ∀ x, x.1 ≠ s.crt → t.refs x = s.refs x
  crt_view : ∀ q, t.pageView (s.crt, q) = fun _ => 0
  view : ∀ x, x.1 ≠ s.crt → t.pageView x = s.pageView x
  released : ∃ l : List Nat, t.released = l ++ s.released ∧
    ∀ f, s.IsMapped f → (¬ t.IsMapped f → l.count f = 1) ∧ (t.IsMapped f → f ∉ l)

theorem PagesDropped.owner {dropped : Nat → Prop} (h : PagesDropped s dropped t) : t.owner = s.owner := by
  funext x
  simp [Paging.owner, h.dirsNum, h.pde, h.frame]

theorem PagesDropped.releasePagesTables (hs : s.Wf) (h : PagesDropped s (fun q => isUserPage q) t) :
    UserReleased s (t.releasePagesTables 1 767) := by
  have hnone : ∀ q, t.refs (s.crt, q) = none := by
    intro q
    by_cases hq : isUserPage q
    · exact h.dropped_refs q hq
    · exact refs_of_not_user hq
  have htables := releasePagesTables_user h.wf (by rw [h.crt]; exact hnone)
  have hmapped : ∀ f, (t.releasePagesTables 1 767).IsMapped f ↔ t.IsMapped f := by
    intro f
    rw [isMapped_iff, isMapped_iff, htables.refs]
  refine ⟨htables.wf, htables.crt.trans h.crt, htables.dirsNum.trans h.dirsNum,
    fun d => (htables.frame d).trans (h.frame d), ?_, ?_, ?_, ?_, ?_⟩
  · intro q
    rw [htables.refs]
    exact hnone q
  · intro x hx
    rw [htables.refs]
    exact h.refs x fun hx' => hx hx'.1
  · intro q
    rw [htables.view]
    exact Store.view_of_none (s := t.store) (hnone q)
  · intro x hx
    rw [htables.view]
    exact h.view x fun hx' => hx hx'.1
  · obtain ⟨l, hl, hnodup, hmem⟩ := h.released
    obtain ⟨l', hl', hown⟩ := htables.released
    refine ⟨l' ++ l, by rw [hl', hl, List.append_assoc], ?_⟩
    intro f hf
    have hnot : f ∉ l' := by
      intro hf'
      obtain ⟨x, hx⟩ := hown f hf'
      obtain ⟨k, r, hk, hr⟩ := isMapped_iff.mp hf
      rw [h.owner] at hx
      exact hs.owner_private x f hx k r hk hr
    rw [hmapped]
    refine ⟨fun hgone => ?_, fun hkept => ?_⟩
    · rw [List.count_append, List.count_eq_zero_of_not_mem hnot, Nat.zero_add]
      exact List.count_eq_one_of_mem hnodup ((hmem f).mpr ⟨hf, hgone⟩)
    · rw [List.mem_append, not_or]
      exact ⟨hnot, fun hl => ((hmem f).mp hl).2 hkept⟩

theorem releaseUserSpacePages_spec (hs : s.Wf) : UserReleased s s.releaseUserSpacePages :=
  (releasePages_user hs).releasePagesTables hs

end LuckOS.Paging
