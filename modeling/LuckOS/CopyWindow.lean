import LuckOS.CowInterleaving

/-!
# The copy window

A copy-on-write fault copies its page through the window at `COPIED_PAGE_VADDR`, which all
processes share. The mapping of the window and the copy are under `page_copy_lock`. The window
is released behind the unlock, at which point it may belong to the fault of another process.
-/

namespace LuckOS.Paging

open Outcome Runs Function

/-- How far the copy-on-write branch has come. A handler that faults in `memcpy` waits forever
for the lock of its own page directory. -/
inductive WindowPhase where
  | raised
  | decremented
  | allocated (frame : Nat)
  | locked (frame : Nat)
  | mapped (frame : Nat)
  | copied (frame : Nat)
  | unlocked (frame : Nat)
  | updated
  | owning
  | nested
  deriving DecidableEq

structure WindowFault where
  page : Nat
  phase : WindowPhase
  deriving DecidableEq

/-- The paging state, the holder of `page_copy_lock`, and the fault that each process is
handling. -/
structure CopyWindow where
  paging : Paging
  lock : Option Nat
  fault : Nat → Option WindowFault

inductive WindowAction where
  | raise (d : Nat) (addr : UserAddr)
  | serve (d : Nat)
  | write (d : Nat) (addr : UserAddr) (value : Byte)

def windowPage : Nat := copiedPageVaddr / pageSize

namespace WindowPhase

/-- The handler is inside of the section under the lock. -/
def holding : WindowPhase → Bool
  | locked _ | mapped _ | copied _ => true
  | _ => false

/-- The handler has mapped its frame and not yet copied its page. -/
def copying : WindowPhase → Bool
  | mapped _ => true
  | _ => false

/-- The frame that is to be mapped. -/
def target : WindowPhase → Option Nat
  | allocated frame | locked frame => some frame
  | _ => none

end WindowPhase

theorem WindowPhase.exists_mapped {p : WindowPhase} (h : p.copying = true) : ∃ f, p = .mapped f := by
  cases p <;> simp_all [WindowPhase.copying]

namespace CopyWindow

/-- The paging state while process `d` runs. -/
def running (st : CopyWindow) (d : Nat) : Paging := { st.paging with crt := d }

/-- The fault of process `d` goes on with another paging state. -/
def proceed (st : CopyWindow) (d : Nat) (s : Paging) (c : WindowFault) (phase : WindowPhase) : CopyWindow :=
  { st with paging := s, fault := update st.fault d (some { c with phase := phase }) }

/-- The fault of process `d` is handled. -/
def finish (st : CopyWindow) (d : Nat) (s : Paging) : CopyWindow :=
  { st with paging := s, fault := update st.fault d none }

/-- The next step of the copy-on-write branch of process `d`. -/
def serve (st : CopyWindow) (d : Nat) (c : WindowFault) : Option CopyWindow :=
  let s := st.running d
  let pte := s.getPte c.page
  match c.phase with
  | .raised =>
    let (cowRefs, s) := s.changeCowFrameRefcount pte.frame (-1)
    some (st.proceed d s c (if 0 < cowRefs then .decremented else .owning))
  | .decremented => s.allocatePhyFrame.map fun r => st.proceed d r.2 c (.allocated r.1)
  | .allocated frame => if st.lock = none then some { st.proceed d s c (.locked frame) with lock := some d } else none
  | .locked frame =>
    match s.mapPageWithFrameImpl 1 copiedPageVaddr frame with
    | .error _ => none
    | .ok s => some (st.proceed d s c (.mapped frame))
  | .mapped frame =>
    if (s.getPte windowPage).present then
      some (st.proceed d (s.memcpyPage copiedPageVaddr (c.page * pageSize)) c (.copied frame))
    else some (st.proceed d s c .nested)
  | .copied frame => some { st.proceed d s c (.unlocked frame) with lock := none }
  | .unlocked frame => some (st.proceed d (s.setPte c.page { pte with frame := frame, rw := true }) c .updated)
  | .updated => some (st.finish d (s.releasePages copiedPageVaddr 1 false))
  | .owning => some (st.finish d (s.setPte c.page { pte with rw := true }))
  | .nested => none

def step (st : CopyWindow) : WindowAction → Option CopyWindow
  | .raise d addr =>
    let pte := (st.running d).getPte (addr.1 / pageSize)
    if d < st.paging.dirsNum ∧ st.fault d = none ∧ pte.present ∧ !pte.rw then
      some { st with paging := st.running d, fault := update st.fault d (some ⟨addr.1 / pageSize, .raised⟩) }
    else none
  | .serve d =>
    match st.fault d with
    | none => none
    | some c => st.serve d c
  | .write d addr value =>
    let pte := (st.running d).getPte (addr.1 / pageSize)
    if d < st.paging.dirsNum ∧ pte.present ∧ pte.rw then
      some { st with paging := (st.running d).storeByte addr.1 value }
    else none

/-- The entry of the window. -/
def window (st : CopyWindow) : Pte := st.paging.kernelPte windowPage

/-- A fault that has mapped its frame and not yet copied its page. -/
def Mapped (st : CopyWindow) (d : Nat) (c : WindowFault) (f : Nat) : Prop :=
  st.fault d = some c ∧ c.phase = .mapped f

/-- The window is released only while no fault is between its mapping and its copy. -/
def ReleaseApart (st : CopyWindow) : WindowAction → Prop
  | .serve d => (st.fault d).map WindowFault.phase = some .updated →
      ∀ e, e < st.paging.dirsNum → ∀ c ∈ st.fault e, c.phase.copying = false
  | _ => True

instance (st : CopyWindow) (a : WindowAction) : Decidable (st.ReleaseApart a) :=
  match a with
  | .serve _ => inferInstanceAs (Decidable (_ → ∀ e, e < st.paging.dirsNum → _))
  | .raise .. | .write .. => isTrue trivial

/-- Until a fault has copied its page, the window is present and maps its frame, and the copy
fills this frame and no other one. -/
structure WindowExclusive (st : CopyWindow) : Prop where
  mapped : ∀ {d c f}, st.Mapped d c f → st.window.present = true ∧ st.window.frame = f
  copies : ∀ {d c f st'}, st.Mapped d c f → st.step (.serve d) = some st' →
    st'.fault d = some { c with phase := .copied f } ∧
      st'.paging.bytes = update st.paging.bytes f (st.paging.bytes ((st.paging.dirs d).pte c.page).frame)

/-- What the code changes outside of the window. -/
structure Keeps (s t : Paging) : Prop where
  dirsNum : t.dirsNum = s.dirsNum
  pde : ∀ d, (t.dirs d).pde = (s.dirs d).pde
  size : t.phyFramesMap.sizes = s.phyFramesMap.sizes
  zero : s.phyFramesMap.testBit 0 = true → t.phyFramesMap.testBit 0 = true

/-- The invariant of guarded runs. -/
structure WindowInv (st : CopyWindow) : Prop where
  pde : ∀ {d}, d < st.paging.dirsNum → ((st.paging.dirs d).pde (windowPage / 1024)).present = true
  size : st.paging.phyFramesMap.sizes = (256, 256)
  zero : st.paging.phyFramesMap.testBit 0 = true
  user : ∀ {d c}, st.fault d = some c → d < st.paging.dirsNum ∧ isUserPage c.page
  target : ∀ {d c f}, st.fault d = some c → c.phase.target = some f → 0 < f
  held : ∀ {d c}, st.fault d = some c → c.phase.holding = true → st.lock = some d
  mapped : ∀ {d c f}, st.Mapped d c f → st.window = .mapTo f

variable {st st' : CopyWindow} {d : Nat} {c : WindowFault} {s t : Paging}

theorem Keeps.refl (s : Paging) : Keeps s s := ⟨rfl, fun _ => rfl, rfl, id⟩

theorem Keeps.trans {u : Paging} (h : Keeps s t) (h' : Keeps t u) : Keeps s u :=
  ⟨h'.dirsNum.trans h.dirsNum, fun d => (h'.pde d).trans (h.pde d), h'.size.trans h.size, fun hs => h'.zero (h.zero hs)⟩

/-- The fault of process `d` changes. The others keep the window unless none has mapped it. -/
theorem WindowInv.move {o : Option WindowFault} {l : Option Nat} (h : st.WindowInv) (hkeep : Keeps st.paging t)
    (huser : ∀ c, o = some c → d < st.paging.dirsNum ∧ isUserPage c.page)
    (htarget : ∀ c f, o = some c → c.phase.target = some f → 0 < f)
    (hself : ∀ c, o = some c → c.phase.holding = true → l = some d)
    (hothers : ∀ e, e ≠ d → st.lock = some e → l = some e)
    (hmine : ∀ c f, o = some c → c.phase = .mapped f → t.kernelPte windowPage = .mapTo f)
    (hwindow : t.kernelPte windowPage = st.window ∨ ∀ e c f, e ≠ d → ¬ st.Mapped e c f) :
    WindowInv { st with paging := t, lock := l, fault := update st.fault d o } := by
  have hold : ∀ {e c}, e ≠ d → update st.fault d o e = some c → st.fault e = some c := by
    intro e c he hc
    rwa [update_of_ne he] at hc
  have hnew : ∀ {c}, update st.fault d o d = some c → o = some c := by
    intro c hc
    rwa [update_self] at hc
  refine ⟨?_, hkeep.size.trans h.size, hkeep.zero h.zero, ?_, ?_, ?_, ?_⟩
  · intro e he
    change ((t.dirs e).pde _).present = true
    rw [hkeep.pde]
    exact h.pde (hkeep.dirsNum ▸ he)
  · intro e c hc
    change e < t.dirsNum ∧ _
    rw [hkeep.dirsNum]
    by_cases he : e = d
    · subst he
      exact huser c (hnew hc)
    · exact h.user (hold he hc)
  · intro e c f hc
    by_cases he : e = d
    · subst he
      exact htarget c f (hnew hc)
    · exact h.target (hold he hc)
  · intro e c hc hphase
    by_cases he : e = d
    · subst he
      exact hself c (hnew hc) hphase
    · exact hothers e he (h.held (hold he hc) hphase)
  · rintro e c f ⟨hc, hphase⟩
    by_cases he : e = d
    · subst he
      exact hmine c f (hnew hc) hphase
    · have hmapped : st.Mapped e c f := ⟨hold he hc, hphase⟩
      rcases hwindow with hsame | hnone
      · exact hsame.trans (h.mapped hmapped)
      · exact absurd hmapped (hnone e c f he)

theorem keeps_changeCowFrameRefcount (s : Paging) (frame : Nat) (delta : Int) :
    Keeps s (s.changeCowFrameRefcount frame delta).2 ∧
      (s.changeCowFrameRefcount frame delta).2.kernelPte = s.kernelPte := by
  rw [changeCowFrameRefcount]
  split_ifs <;> exact ⟨⟨rfl, fun _ => rfl, rfl, id⟩, rfl⟩

/-- An entry of a user page table changes. -/
theorem keeps_setPte_user {page : Nat} (hp : isUserPage page) (s : Paging) (e : Pte) :
    Keeps s (s.setPte page e) ∧ (s.setPte page e).kernelPte = s.kernelPte := by
  rw [setPte_user hp]
  refine ⟨⟨rfl, fun d => ?_, rfl, id⟩, rfl⟩
  change (update s.dirs s.crt _ d).pde = _
  by_cases hd : d = s.crt
  · rw [hd, update_self]
    rfl
  · rw [update_of_ne hd]

theorem WindowInv.table (h : st.WindowInv) (hd : d < st.paging.dirsNum) :
    ((st.running d).getPde (copiedPageVaddr / pageSize / 1024)).present = true := h.pde hd

/-- Releasing the window clears its entry. -/
theorem WindowInv.release (h : st.WindowInv) (hd : d < st.paging.dirsNum) :
    Keeps (st.running d) ((st.running d).releasePages copiedPageVaddr 1 false) ∧
      ((st.running d).releasePages copiedPageVaddr 1 false).kernelPte windowPage =
        if st.window.present then .zero else st.window := by
  have hk := isKernelPage_copiedPage
  have hdiv : copiedPageVaddr / pageSize * pageSize / pageSize = copiedPageVaddr / pageSize := rfl
  have hentry : (st.running d).getPte (copiedPageVaddr / pageSize) = st.window := getPte_kernel hk
  rw [releasePages_one hk.1, if_pos (h.table hd), releasePage, hdiv, hentry]
  by_cases hpresent : st.window.present = true
  · simp only [hpresent, Bool.not_true, Bool.false_eq_true, if_false, if_true, setPte_kernel hk]
    exact ⟨⟨rfl, fun _ => rfl, rfl, id⟩, update_self ..⟩
  · rw [if_pos (by simpa using hpresent), if_neg hpresent]
    exact ⟨.refl _, rfl⟩

/-- The lock keeps the faults inside of their sections apart. -/
theorem WindowInv.unmapped_of_holding (h : st.WindowInv) (hfault : st.fault d = some c) (hc : c.phase.holding = true)
    (e : Nat) (c' : WindowFault) (f : Nat) (he : e ≠ d) : ¬ st.Mapped e c' f := by
  rintro ⟨hc', hphase⟩
  have hlock := h.held hc' (by rw [hphase]; rfl)
  exact he (Option.some.inj (hlock.symm.trans (h.held hfault hc)))

theorem WindowInv.proceed {phase : WindowPhase} {l : Option Nat} (h : st.WindowInv) (hfault : st.fault d = some c)
    (hkeep : Keeps st.paging t) (htarget : ∀ f, phase.target = some f → 0 < f)
    (hself : phase.holding = true → l = some d) (hothers : ∀ e, e ≠ d → st.lock = some e → l = some e)
    (hmine : ∀ f, phase = .mapped f → t.kernelPte windowPage = .mapTo f)
    (hwindow : t.kernelPte windowPage = st.window ∨ ∀ e c f, e ≠ d → ¬ st.Mapped e c f) :
    WindowInv { st.proceed d t c phase with lock := l } := by
  refine h.move hkeep ?_ ?_ ?_ hothers ?_ hwindow
  · intro c' hc
    obtain rfl := Option.some.inj hc
    have huser := h.user hfault
    exact huser
  · intro c' f hc
    obtain rfl := Option.some.inj hc
    exact htarget f
  · intro c' hc
    obtain rfl := Option.some.inj hc
    exact hself
  · intro c' f hc
    obtain rfl := Option.some.inj hc
    exact hmine f

theorem WindowInv.finish (h : st.WindowInv) (hkeep : Keeps st.paging t)
    (hwindow : t.kernelPte windowPage = st.window ∨ ∀ e c f, e ≠ d → ¬ st.Mapped e c f) :
    WindowInv (st.finish d t) := by
  exact h.move hkeep nofun nofun nofun (fun _ _ => id) nofun hwindow

theorem WindowInv.serve (h : st.WindowInv) (hfault : st.fault d = some c)
    (hok : c.phase = .updated → ∀ e c f, ¬ st.Mapped e c f) (hstep : st.serve d c = some st') : st'.WindowInv := by
  obtain ⟨hlt, huser⟩ := h.user hfault
  have hrunning : Keeps st.paging (st.running d) := ⟨rfl, fun _ => rfl, rfl, id⟩
  have hheld : c.phase.holding = true → ∀ e, e ≠ d → st.lock ≠ some e := by
    intro hc e he hlock
    exact he (Option.some.inj (hlock.symm.trans (h.held hfault hc)))
  unfold CopyWindow.serve at hstep
  cases hphase : c.phase with
  | raised =>
    rw [hphase] at hstep
    obtain rfl := Option.some.inj hstep
    obtain ⟨hkeep, hkernel⟩ := keeps_changeCowFrameRefcount (st.running d) ((st.running d).getPte c.page).frame (-1)
    refine h.proceed (l := st.lock) hfault (hrunning.trans hkeep) ?_ ?_ (fun _ _ => id) ?_ (.inl (congrFun hkernel _))
    · intro f
      split_ifs <;> simp [WindowPhase.target]
    · split_ifs <;> simp [WindowPhase.holding]
    · intro f
      split_ifs <;> simp
  | decremented =>
    rw [hphase] at hstep
    obtain ⟨⟨f, t⟩, halloc, rfl⟩ := Option.map_eq_some_iff.mp hstep
    obtain ⟨hkernel, hfree, -, -, hpte, -, hbits⟩ := allocatePhyFrame_spec (s := st.running d) h.size halloc
    have hpos : 0 < f := by
      refine Nat.pos_of_ne_zero ?_
      rintro rfl
      rw [show (st.running d).phyFramesMap = st.paging.phyFramesMap from rfl, h.zero] at hfree
      cases hfree
    have hkeep : Keeps st.paging t := by
      refine ⟨hkernel.dirsNum, fun e => ?_, hkernel.size, fun hzero => hkernel.used 0 hzero⟩
      rw [hkernel.dirs]
      rfl
    refine h.proceed (l := st.lock) hfault hkeep ?_ (by simp [WindowPhase.holding]) (fun _ _ => id) (by simp)
      (.inl (congrFun hpte _))
    intro f' hf
    obtain rfl := Option.some.inj hf
    exact hpos
  | allocated f =>
    rw [hphase] at hstep
    dsimp only at hstep
    split_ifs at hstep with hlock
    obtain rfl := Option.some.inj hstep
    refine h.proceed hfault hrunning ?_ (fun _ => rfl) ?_ (by simp) (.inl rfl)
    · intro f' hf
      exact h.target hfault (by rw [hphase]; exact hf)
    · intro e _ he
      rw [hlock] at he
      cases he
  | locked f =>
    have hpos := h.target hfault (by rw [hphase]; rfl)
    rw [hphase] at hstep hheld
    dsimp only at hstep
    rw [mapPageWithFrameImpl_frame (h.table hlt) 0 hpos, setPte_kernel isKernelPage_copiedPage] at hstep
    obtain rfl := Option.some.inj hstep
    refine h.proceed (l := st.lock) hfault ⟨rfl, fun _ => rfl, rfl, id⟩ (by simp [WindowPhase.target])
      (fun _ => h.held hfault (by rw [hphase]; rfl)) (fun _ _ => id) ?_
      (.inr (h.unmapped_of_holding hfault (by rw [hphase]; rfl)))
    intro f' hf
    obtain rfl := WindowPhase.mapped.inj hf
    exact update_self (copiedPageVaddr / pageSize) (.mapTo f) st.paging.kernelPte
  | mapped f =>
    have hwindow := h.mapped ⟨hfault, hphase⟩
    have hentry : (st.running d).getPte windowPage = st.window := getPte_kernel isKernelPage_copiedPage
    rw [hphase] at hstep
    dsimp only at hstep
    rw [hentry, hwindow, if_pos (show (Pte.mapTo f).present = true from rfl)] at hstep
    obtain rfl := Option.some.inj hstep
    exact h.proceed (l := st.lock) hfault ⟨rfl, fun _ => rfl, rfl, id⟩ (by simp [WindowPhase.target])
      (fun _ => h.held hfault (by rw [hphase]; rfl)) (fun _ _ => id) (by simp) (.inl rfl)
  | copied f =>
    rw [hphase] at hstep hheld
    obtain rfl := Option.some.inj hstep
    exact h.proceed hfault hrunning (by simp [WindowPhase.target]) (by simp [WindowPhase.holding])
      (fun e he hlock => absurd hlock (hheld rfl e he)) (by simp) (.inl rfl)
  | unlocked f =>
    rw [hphase] at hstep
    obtain rfl := Option.some.inj hstep
    obtain ⟨hkeep, hkernel⟩ := keeps_setPte_user huser (st.running d)
      { (st.running d).getPte c.page with frame := f, rw := true }
    exact h.proceed (l := st.lock) hfault (hrunning.trans hkeep) (by simp [WindowPhase.target])
      (by simp [WindowPhase.holding]) (fun _ _ => id) (by simp) (.inl (congrFun hkernel _))
  | updated =>
    rw [hphase] at hstep
    obtain rfl := Option.some.inj hstep
    exact h.finish (hrunning.trans (h.release hlt).1) (.inr fun e c' f _ => hok hphase e c' f)
  | owning =>
    rw [hphase] at hstep
    obtain rfl := Option.some.inj hstep
    obtain ⟨hkeep, hkernel⟩ := keeps_setPte_user huser (st.running d) { (st.running d).getPte c.page with rw := true }
    exact h.finish (hrunning.trans hkeep) (.inl (congrFun hkernel _))
  | nested =>
    rw [hphase] at hstep
    cases hstep

theorem WindowInv.step {a : WindowAction} (h : st.WindowInv) (hok : st.ReleaseApart a) (hstep : st.step a = some st') :
    st'.WindowInv := by
  have hrunning : ∀ d, Keeps st.paging (st.running d) := fun _ => ⟨rfl, fun _ => rfl, rfl, id⟩
  cases a with
  | raise d addr =>
    simp only [CopyWindow.step] at hstep
    split_ifs at hstep with hcond
    obtain rfl := Option.some.inj hstep
    refine h.move (l := st.lock) (hrunning d) ?_ ?_ ?_ (fun _ _ => id) ?_ (.inl rfl)
    · intro c hc
      obtain rfl := Option.some.inj hc
      exact ⟨hcond.1, addr.2⟩
    · intro c f hc
      obtain rfl := Option.some.inj hc
      simp [WindowPhase.target]
    · intro c hc
      obtain rfl := Option.some.inj hc
      simp [WindowPhase.holding]
    · intro c f hc
      obtain rfl := Option.some.inj hc
      simp
  | serve d =>
    simp only [CopyWindow.step] at hstep
    split at hstep
    next => cases hstep
    next c hfault =>
      refine h.serve hfault (fun hphase e c' f hmapped => ?_) hstep
      have hapart := hok (by rw [hfault, Option.map_some, hphase]) e (h.user hmapped.1).1 c' hmapped.1
      rw [hmapped.2] at hapart
      cases hapart
  | write d addr value =>
    simp only [CopyWindow.step] at hstep
    split_ifs at hstep
    obtain rfl := Option.some.inj hstep
    exact ⟨h.pde, h.size, h.zero, h.user, h.target, h.held, h.mapped⟩

theorem WindowInv.exclusive (h : st.WindowInv) : st.WindowExclusive := by
  refine ⟨fun hmapped => ?_, fun {d c f st'} hmapped hstep => ?_⟩
  · rw [h.mapped hmapped]
    exact ⟨rfl, rfl⟩
  · obtain ⟨hfault, hphase⟩ := hmapped
    have hentry : (st.running d).getPte windowPage = .mapTo f :=
      (getPte_kernel isKernelPage_copiedPage).trans (h.mapped ⟨hfault, hphase⟩)
    have hsource : (st.running d).getPte (c.page * pageSize / pageSize) = (st.paging.dirs d).pte c.page := by
      rw [Nat.mul_div_cancel _ (by decide)]
      exact getPte_user (h.user hfault).2
    simp only [CopyWindow.step, hfault, CopyWindow.serve, hphase, hentry] at hstep
    obtain rfl := Option.some.inj hstep
    refine ⟨update_self .., ?_⟩
    change update st.paging.bytes ((st.running d).getPte windowPage).frame
      (st.paging.bytes ((st.running d).getPte (c.page * pageSize / pageSize)).frame) = _
    rw [hentry, hsource]
    rfl

theorem windowInv_of_wf (hs : s.Wf) : WindowInv ⟨s, none, fun _ => none⟩ := by
  refine ⟨fun hd => hs.kernel_pde _ hd _ (by decide) (by decide), hs.size, ?_, nofun, nofun, nofun, nofun⟩
  exact hs.owner_used _ _ hs.owner_zero

/-- In a run in which the window is released only while no fault is between its mapping and its
copy, the window is exclusive. A step keeps it so if and only if it meets the condition. -/
theorem window_exclusive_iff (hs : s.Reachable) {as : List WindowAction}
    (hrun : Run (Guarded ReleaseApart (Steps step)) ⟨s, none, fun _ => none⟩ as st) :
    st.WindowExclusive ∧ ∀ a st', st.step a = some st' → (st'.WindowExclusive ↔ st.ReleaseApart a) := by
  have hinv : st.WindowInv := hrun.invariant (fun h hstep => h.step hstep.1 hstep.2) (windowInv_of_wf hs.wf)
  refine ⟨hinv.exclusive, fun a st' hstep => ⟨fun hex => ?_, fun hok => (hinv.step hok hstep).exclusive⟩⟩
  cases a with
  | raise d addr => trivial
  | write d addr value => trivial
  | serve d =>
    intro hupdated e _ c hc
    rw [← Bool.not_eq_true]
    intro hcopying
    obtain ⟨f, hf⟩ := WindowPhase.exists_mapped hcopying
    have hmapped : st.Mapped e c f := ⟨hc, hf⟩
    obtain ⟨c', hfault, hphase⟩ := Option.map_eq_some_iff.mp hupdated
    have hne : e ≠ d := by
      rintro rfl
      rw [hmapped.1] at hfault
      obtain rfl := Option.some.inj hfault
      rw [hmapped.2] at hphase
      cases hphase
    simp only [CopyWindow.step, hfault, CopyWindow.serve, hphase] at hstep
    obtain rfl := Option.some.inj hstep
    have hentry := (hinv.release (hinv.user hfault).1).2
    rw [hinv.mapped hmapped, if_pos (show (Pte.mapTo f).present = true from rfl)] at hentry
    have hstill : (st.finish d ((st.running d).releasePages copiedPageVaddr 1 false)).Mapped e c f :=
      ⟨(update_of_ne hne ..).trans hmapped.1, hmapped.2⟩
    have hpresent := (hex.mapped hstill).1
    rw [window, show (st.finish d ((st.running d).releasePages copiedPageVaddr 1 false)).paging.kernelPte windowPage =
      .zero from hentry] at hpresent
    cases hpresent

/-- Two processes that share two pages. -/
def sampleShared : Except Panic Paging :=
  boot (fun _ _ => 0) [] >>= fun s =>
    [SystemOp.fault sampleAddr, .fault ⟨0x401000, by decide⟩, .user (.fork sampleHeap)].foldlM systemStep s

theorem exists_sampleShared : ∃ s, sampleShared = .ok s ∧ s.Reachable := by
  have hok : sampleShared.isOk = true := by
    rw [sampleShared, boot, initPaging_eq]
    decide +kernel
  cases h : sampleShared with
  | error e => simp [h, Except.isOk, Except.toBool] at hok
  | ok s => exact ⟨s, rfl, fun _ _ => 0, ⟨[], by simp⟩, _, h⟩

/-- The state after a run from the shared pages. -/
def sampleWindow (step : CopyWindow → WindowAction → Option CopyWindow) (as : List WindowAction) : Option CopyWindow :=
  sampleShared.toOption.bind fun s => execute step ⟨s, none, fun _ => none⟩ as

theorem sampleWindow_eq_some {step : CopyWindow → WindowAction → Option CopyWindow} {as : List WindowAction}
    (h : sampleWindow step as = some st) : ∃ s : Paging, s.Reachable ∧ execute step ⟨s, none, fun _ => none⟩ as = some st := by
  obtain ⟨s, hs, hreach⟩ := exists_sampleShared
  rw [sampleWindow, hs] at h
  exact ⟨s, hreach, h⟩

/-- The first process handles a fault, and then the second one maps its frame. -/
def sampleCopies : List WindowAction :=
  .raise 0 sampleAddr :: List.replicate 8 (.serve 0) ++ .raise 1 ⟨0x401000, by decide⟩ :: List.replicate 4 (.serve 1)

theorem sample_window_exclusive : ∃ s st c f, s.Reachable ∧
    Run (Guarded ReleaseApart (Steps step)) ⟨s, none, fun _ => none⟩ sampleCopies st ∧ st.Mapped 1 c f ∧
    st.WindowExclusive := by
  have hcheck : (sampleWindow (permit (fun st a => decide (st.ReleaseApart a)) step) sampleCopies).any
      (fun st => (st.fault 1).any fun c => c.phase.copying) = true := by
    rw [sampleWindow, sampleShared, boot, initPaging_eq]
    decide +kernel
  rw [Option.any_eq_true] at hcheck
  obtain ⟨st, hst, hfault⟩ := hcheck
  obtain ⟨s, hs, hexec⟩ := sampleWindow_eq_some hst
  have hrun := run_of_execute_permit of_decide_eq_true hexec
  rw [Option.any_eq_true] at hfault
  obtain ⟨c, hc, hcopying⟩ := hfault
  obtain ⟨f, hf⟩ := WindowPhase.exists_mapped hcopying
  exact ⟨s, st, c, f, hs, hrun, ⟨hc, hf⟩, (window_exclusive_iff hs hrun).1⟩

/-- The first process is preempted in front of the release, and releases the window behind the
mapping of the second one. -/
def sampleReleased : List WindowAction :=
  .raise 0 sampleAddr :: List.replicate 7 (.serve 0) ++
    .raise 1 ⟨0x401000, by decide⟩ :: List.replicate 4 (.serve 1) ++ [.serve 0]

theorem sample_window_released : ∃ s st c f, s.Reachable ∧
    Run (Steps step) ⟨s, none, fun _ => none⟩ sampleReleased st ∧ st.Mapped 1 c f ∧ ¬ st.WindowExclusive := by
  have hcheck : (sampleWindow step sampleReleased).any (fun st => (st.fault 1).any (fun c => c.phase.copying) &&
      !st.window.present) = true := by
    rw [sampleWindow, sampleShared, boot, initPaging_eq]
    decide +kernel
  rw [Option.any_eq_true] at hcheck
  obtain ⟨st, hst, hstate⟩ := hcheck
  obtain ⟨s, hs, hexec⟩ := sampleWindow_eq_some hst
  rw [Bool.and_eq_true, Option.any_eq_true, Bool.not_eq_true'] at hstate
  obtain ⟨⟨c, hc, hcopying⟩, hwindow⟩ := hstate
  obtain ⟨f, hf⟩ := WindowPhase.exists_mapped hcopying
  refine ⟨s, st, c, f, hs, run_of_execute hexec, ⟨hc, hf⟩, fun hex => ?_⟩
  have hpresent := (hex.mapped ⟨hc, hf⟩).1
  rw [hwindow] at hpresent
  cases hpresent

end CopyWindow

end LuckOS.Paging
