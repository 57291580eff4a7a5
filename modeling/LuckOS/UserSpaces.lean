import LuckOS.PagingRelease
import LuckOS.PagingBoot
import Mathlib.Data.Finset.Prod
import Mathlib.Order.Interval.Finset.Nat

/-!
# The user spaces of all processes

Uninterrupted operations on user spaces: a context switch, a clone of the current
directory, a page fault on a user page, the release of the user space, and page faults
of the kernel heap. The counts of `change_cow_frame_refcount` are compared with the
numbers of user page table entries.
-/

namespace LuckOS.Paging

open CopyOnWrite Outcome

/-- Addresses of 4 MB to 3 GB. -/
abbrev UserAddr := {addr : Nat // isUserPage (addr / pageSize)}

/-- Pages that the kernel heap touches. -/
abbrev HeapPages := {pages : List Nat // ∀ p ∈ pages, IsHeapPage p}

inductive SpaceAction where
  | switchTo (d : Nat)
  | clone (heap : CloneHeap)
  | fault (addr : UserAddr)
  | release
  | heapFaults (pages : HeapPages)

/-- One uninterrupted operation. A switch to a process that does not exist does nothing. -/
def spaceStep (s : Paging) : SpaceAction → Except Panic Paging
  | .switchTo d => .ok (if d < s.dirsNum then { s with crt := d } else s)
  | .clone heap => s.cloneCrtPageDir heap
  | .fault addr => s.pageFaultHandler addr.1
  | .release => .ok s.releaseUserSpacePages
  | .heapFaults pages => s.touchPages pages.1

/-- The present user page table entries, over all directories, that map a frame. -/
def userPtes (s : Paging) (f : Nat) : Finset (Nat × Nat) :=
  (Finset.range s.dirsNum ×ˢ Finset.Ico 1024 (768 * 1024)).filter fun x =>
    ((s.dirs x.1).pde (x.2 / 1024)).present ∧ ((s.dirs x.1).pte x.2).present ∧ ((s.dirs x.1).pte x.2).frame = f

/-- Every mapped frame is in use, its count is one less than the number of its entries,
and a writable entry is the only one. -/
def CountsExact (s : Paging) : Prop :=
  ∀ f, 1 ≤ (s.userPtes f).card →
    s.phyFramesMap.testBit f = true ∧
    (s.frameCowRefCounts f).getD 0 = (s.userPtes f).card - 1 ∧
    ((∃ x ∈ s.userPtes f, ((s.dirs x.1).pte x.2).rw) → (s.userPtes f).card = 1)

/-- Between `s` and `t`, `release_phy_frame` was called once on each user frame whose last
entry disappeared, and on no user frame that is still mapped. -/
def ReleasesLast (s t : Paging) : Prop :=
  ∃ calls : List Nat, t.released = calls ++ s.released ∧
    ∀ f, 1 ≤ (s.userPtes f).card →
      ((t.userPtes f).card = 0 → calls.count f = 1) ∧ (1 ≤ (t.userPtes f).card → f ∉ calls)

variable {s t : Paging}

theorem coe_userPtes (s : Paging) (f : Nat) : (s.userPtes f : Set (Nat × Nat)) = s.store.sharers f := by
  ext ⟨d, p⟩
  simp only [userPtes, Finset.coe_filter, Finset.mem_product, Finset.mem_range, Finset.mem_Ico, Set.mem_ofPred_eq,
    Store.sharers, store, refs, PageDir.ref, isUserPage, decide_eq_true_eq]
  constructor
  · rintro ⟨⟨hd, hp⟩, hpde, hpte, rfl⟩
    exact ⟨((s.dirs d).pte p).rw, by simp [hd, hp, hpde, hpte]⟩
  · rintro ⟨w, hw⟩
    split_ifs at hw with hd hp
    cases hw
    exact ⟨⟨hd, hp.1⟩, hp.2.1, hp.2.2, rfl⟩

theorem card_userPtes (s : Paging) (f : Nat) : (s.userPtes f).card = (s.store.sharers f).ncard := by
  rw [← coe_userPtes, Set.ncard_coe_finset]

theorem one_le_card_userPtes {f : Nat} : 1 ≤ (s.userPtes f).card ↔ s.IsMapped f := by
  rw [Nat.one_le_iff_ne_zero, Finset.card_ne_zero, ← Finset.coe_nonempty, coe_userPtes, IsMapped]

theorem card_userPtes_eq_zero {f : Nat} : (s.userPtes f).card = 0 ↔ ¬ s.IsMapped f := by
  rw [← one_le_card_userPtes]
  omega

theorem Wf.countsExact (hs : s.Wf) : s.CountsExact := by
  intro f hf
  obtain ⟨k, w, hk⟩ := one_le_card_userPtes.mp hf
  refine ⟨hs.sound.used k _ hk, ?_, ?_⟩
  · have hcount : s.cowCount f = (s.userPtes f).card - 1 := by
      rw [card_userPtes]
      exact hs.sound.count f
    have hnonneg : 0 ≤ (s.frameCowRefCounts f).getD 0 := by
      cases h : s.frameCowRefCounts f with
      | none => simp
      | some c => exact (hs.counts_pos _ c h).le
    rw [cowCount] at hcount
    omega
  · rintro ⟨x, hx, hrw⟩
    rw [← Finset.mem_coe, coe_userPtes] at hx
    obtain ⟨w', hw'⟩ := hx
    have hwritable : w' = true := by
      simp only [store, refs, PageDir.ref] at hw'
      split_ifs at hw'
      simp only [Option.some.injEq, Ref.mk.injEq] at hw'
      rw [← hw'.2]
      exact hrw
    subst hwritable
    rw [card_userPtes, hs.sound.writable x _ hw', Set.ncard_singleton]

theorem releasesLast_of_kept (hreleased : t.released = s.released) (hkept : ∀ f, s.IsMapped f → t.IsMapped f) :
    s.ReleasesLast t := by
  refine ⟨[], by rw [hreleased, List.nil_append], fun f hf => ?_⟩
  refine ⟨fun hgone => ?_, fun _ => by simp⟩
  exact absurd (hkept f (one_le_card_userPtes.mp hf)) (card_userPtes_eq_zero.mp hgone)

/-- A page fault takes no frame away from its last page. -/
theorem Mapped.keeps {p : Nat} (hs : s.Wf) (h : Mapped s p t) {f : Nat} (hf : s.IsMapped f) : t.IsMapped f := by
  obtain ⟨g, hg, honly, -⟩ := h.ref
  obtain ⟨k, r, hk, rfl⟩ := isMapped_iff.mp hf
  rw [isMapped_iff, hg]
  by_cases hkey : k = (s.crt, p)
  · subst hkey
    by_cases hcount : s.cowCount r.frame = 0
    · exact ⟨_, _, Function.update_self _ _ _, (honly r hk hcount).symm⟩
    · obtain ⟨k', hne, w, hk'⟩ := hs.sound.exists_other (k := (s.crt, p)) (Nat.pos_of_ne_zero hcount)
      exact ⟨k', _, (Function.update_of_ne hne _ _).trans hk', rfl⟩
  · exact ⟨k, r, (Function.update_of_ne hkey _ _).trans hk, rfl⟩

theorem Copied.keeps (h : Copied s (fun _ => True) t) {f : Nat} (hf : s.IsMapped f) : t.IsMapped f := by
  obtain ⟨⟨d, q⟩, r, hk, rfl⟩ := isMapped_iff.mp hf
  have hd : d ≠ s.dirsNum := by
    rintro rfl
    simp [refs_dirsNum] at hk
  by_cases hx : d = s.crt
  · subst hx
    have hcopied := (h.copied_refs q trivial).2
    rw [hk] at hcopied
    exact isMapped_iff.mpr ⟨_, _, hcopied, rfl⟩
  · refine isMapped_iff.mpr ⟨(d, q), r, ?_, rfl⟩
    rw [h.refs (d, q) hd fun hx' => hx hx'.1]
    exact hk

theorem spaceStep_releasesLast (hs : s.Wf) (a : SpaceAction) :
    Ensures Panic.OutOfFrames (s.spaceStep a) s.ReleasesLast := by
  cases a with
  | switchTo d =>
    rw [spaceStep]
    split_ifs
    · exact releasesLast_of_kept rfl fun f hf => hf
    · exact releasesLast_of_kept rfl fun f hf => hf
  | clone heap =>
    exact (cloneCrtPageDir_spec hs heap).mono fun t ht => releasesLast_of_kept ht.released fun f hf => ht.keeps hf
  | fault addr =>
    exact (pageFaultHandler_user hs addr.2).mono fun t ht =>
      releasesLast_of_kept ht.released fun f hf => ht.keeps hs hf
  | release =>
    obtain ⟨calls, hcalls, hcount⟩ := (releaseUserSpacePages_spec hs).released
    refine ⟨calls, hcalls, fun f hf => ?_⟩
    rw [card_userPtes_eq_zero, one_le_card_userPtes]
    exact hcount f (one_le_card_userPtes.mp hf)
  | heapFaults pages =>
    refine (touchPages_spec hs.kernelReady pages.2).mono fun t ht => releasesLast_of_kept ht.released fun f hf => ?_
    rw [isMapped_iff] at hf ⊢
    rwa [ht.refs]

end LuckOS.Paging
