import LuckOS.PagingRelease

/-!
# Locality of the paging operations

Mapping and releasing pages of the current directory neither reads nor writes another
directory. `withOthers s dirs` replaces all directories but the current one; the
operations commute with it.
-/

namespace LuckOS.Paging

/-- The state whose directories are taken from `dirs`, but for the current one. -/
def withOthers (s : Paging) (dirs : Nat → PageDir) : Paging :=
  { s with dirs := fun d => if d = s.crt then s.dirs d else dirs d }

variable {s : Paging} {dirs : Nat → PageDir}

@[simp] theorem withOthers_crt : (s.withOthers dirs).crt = s.crt := rfl

@[simp] theorem withOthers_crtDir : (s.withOthers dirs).crtDir = s.crtDir := by
  simp [crtDir, withOthers]

@[simp] theorem withOthers_getPde (i : Nat) : (s.withOthers dirs).getPde i = s.getPde i := by
  simp [getPde]

@[simp] theorem withOthers_getPte (i : Nat) : (s.withOthers dirs).getPte i = s.getPte i := by
  simp only [getPte, withOthers_crtDir]
  rfl

theorem withOthers_dirs_of_ne {d : Nat} (hd : d ≠ s.crt) : (s.withOthers dirs).dirs d = dirs d := if_neg hd

/-- Nothing changes if all other directories are the old ones. -/
theorem withOthers_self (h : ∀ d, d ≠ s.crt → dirs d = s.dirs d) : s.withOthers dirs = s := by
  have heq : (s.withOthers dirs).dirs = s.dirs := by
    funext d
    by_cases hd : d = s.crt
    · simp [withOthers, hd]
    · rw [withOthers_dirs_of_ne hd, h d hd]
  cases s
  simp only [withOthers, Paging.mk.injEq, true_and, and_true] at heq ⊢
  exact heq

@[simp] theorem setCrtDir_withOthers (dir : PageDir) :
    (s.withOthers dirs).setCrtDir dir = (s.setCrtDir dir).withOthers dirs := by
  have heq : Function.update (fun d => if d = s.crt then s.dirs d else dirs d) s.crt dir =
      fun d => if d = s.crt then Function.update s.dirs s.crt dir d else dirs d := by
    funext d
    by_cases hd : d = s.crt
    · subst hd
      simp
    · simp [hd]
  rw [setCrtDir, setCrtDir, withOthers, withOthers]
  simp only [heq]

@[simp] theorem setPde_withOthers (i : Nat) (e : Pte) :
    (s.withOthers dirs).setPde i e = (s.setPde i e).withOthers dirs := by
  simp [setPde]

@[simp] theorem setPte_withOthers (i : Nat) (e : Pte) :
    (s.withOthers dirs).setPte i e = (s.setPte i e).withOthers dirs := by
  by_cases hi : isUserPage i
  · simp [setPte, hi]
  · simp only [setPte, hi, Bool.false_eq_true, if_false]
    rfl

@[simp] theorem clearPageTable_withOthers (i : Nat) :
    (s.withOthers dirs).clearPageTable i = (s.clearPageTable i).withOthers dirs := by
  by_cases hi : isUserTable i
  · simp [clearPageTable, hi]
  · simp only [clearPageTable, hi, Bool.false_eq_true, if_false]
    rfl

@[simp] theorem clearPage_withOthers (addr : Nat) :
    (s.withOthers dirs).clearPage addr = (s.clearPage addr).withOthers dirs := by
  simp only [clearPage, withOthers_getPte]
  rfl

@[simp] theorem memcpyPage_withOthers (dst src : Nat) :
    (s.withOthers dirs).memcpyPage dst src = (s.memcpyPage dst src).withOthers dirs := by
  simp only [memcpyPage, withOthers_getPte]
  rfl

@[simp] theorem releasePhyFrame_withOthers (f : Nat) :
    (s.withOthers dirs).releasePhyFrame f = (s.releasePhyFrame f).withOthers dirs := rfl

theorem allocatePhyFrame_withOthers :
    (s.withOthers dirs).allocatePhyFrame = s.allocatePhyFrame.map (fun r => (r.1, r.2.withOthers dirs)) := by
  simp only [allocatePhyFrame, Option.map_map]
  rfl

theorem changeCowFrameRefcount_withOthers (f : Nat) (delta : Int) :
    (s.withOthers dirs).changeCowFrameRefcount f delta =
      ((s.changeCowFrameRefcount f delta).1, (s.changeCowFrameRefcount f delta).2.withOthers dirs) := by
  rw [changeCowFrameRefcount, changeCowFrameRefcount, show (s.withOthers dirs).copyOnWriteReady = s.copyOnWriteReady from rfl]
  split_ifs <;> rfl

@[simp] theorem releasePage_withOthers (addr : Nat) (freeFrame : Bool) :
    (s.withOthers dirs).releasePage addr freeFrame = (s.releasePage addr freeFrame).withOthers dirs := by
  simp only [releasePage, withOthers_getPte, changeCowFrameRefcount_withOthers]
  split_ifs <;> simp

@[simp] theorem dropTable_withOthers (i : Nat) : (s.withOthers dirs).dropTable i = (s.dropTable i).withOthers dirs := by
  simp [dropTable]

theorem forRange_withOthers {body : Paging → Nat → Paging}
    (hbody : ∀ s i, body (s.withOthers dirs) i = (body s i).withOthers dirs) (lo hi : Nat) :
    forRange lo hi (s.withOthers dirs) body = (forRange lo hi s body).withOthers dirs :=
  List.foldl_hom (fun s : Paging => s.withOthers dirs) hbody

@[simp] theorem releasePages_withOthers (addr pages : Nat) (freeFrame : Bool) :
    (s.withOthers dirs).releasePages addr pages freeFrame = (s.releasePages addr pages freeFrame).withOthers dirs := by
  apply forRange_withOthers
  intro s i
  simp only [withOthers_getPde]
  split_ifs
  · rfl
  · apply forRange_withOthers
    intro s j
    simp

theorem ensurePageTable_withOthers (i : Nat) :
    (s.withOthers dirs).ensurePageTable i = (s.ensurePageTable i).map (fun t => t.withOthers dirs) := by
  simp only [ensurePageTable, withOthers_getPde, allocatePhyFrame_withOthers]
  split_ifs
  · cases s.allocatePhyFrame with
    | none => rfl
    | some r => simp [Except.map]
  · rfl

theorem mapPageWithFrameImpl_withOthers (depth : Nat) (addr : Nat) (frame : Int) :
    (s.withOthers dirs).mapPageWithFrameImpl depth addr frame =
      (s.mapPageWithFrameImpl depth addr frame).map (fun t => t.withOthers dirs) := by
  induction depth generalizing s addr frame with
  | zero => rfl
  | succ depth ih =>
    simp only [mapPageWithFrameImpl, ensurePageTable_withOthers]
    cases s.ensurePageTable (addr / 2 ^ 22) with
    | error e => rfl
    | ok t =>
      simp only [bind, Except.bind, Except.map, withOthers_getPte, changeCowFrameRefcount_withOthers,
        allocatePhyFrame_withOthers]
      split_ifs
      · simp
      · cases t.allocatePhyFrame with
        | none => rfl
        | some r => simp
      · cases (t.changeCowFrameRefcount (t.getPte (addr / 2 ^ 12)).frame (-1)).2.allocatePhyFrame with
        | none => rfl
        | some r =>
          simp only [Option.map_some, ih]
          cases r.2.mapPageWithFrameImpl depth copiedPageVaddr r.1 with
          | error e => rfl
          | ok u => simp [Except.map]
      · simp
      · rfl

theorem pageFaultHandler_withOthers (dirs : Nat → PageDir) (addr : Nat) :
    (s.withOthers dirs).pageFaultHandler addr = (s.pageFaultHandler addr).map (fun t => t.withOthers dirs) :=
  mapPageWithFrameImpl_withOthers 2 _ _

end LuckOS.Paging
