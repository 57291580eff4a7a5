import LuckOS.PagingStart
import LuckOS.SystemRuns

/-!
# The frames of a process over its life

A child is forked, runs, exits, is collected by its parent and destroyed. Exit gives
back the user pages and the page tables, and `destroy_process` is to give back the
page directory, but it passes the physical address of the directory to
`release_phy_frame` in place of the number of its frame.
-/

namespace LuckOS.Paging

open Outcome

/-- The life of a child: fork in `before`, any operations up to its exit in `alive`, where
it is the current process, and any operations up to its destruction in `collected`. -/
structure ChildLife where
  before : Paging
  heap : CloneHeap
  forked : Paging
  living : List SystemOp
  alive : Paging
  reaping : List SystemOp
  collected : Paging
  reachable : before.Reachable
  fork : before.cloneCrtPageDir heap = .ok forked
  live : living.foldlM systemStep forked = .ok alive
  running : alive.crt = before.dirsNum
  reap : reaping.foldlM systemStep alive.releaseUserSpacePages = .ok collected

namespace ChildLife

def child (l : ChildLife) : Nat := l.before.dirsNum

/-- The state after `process_exit` released the resources of the child. -/
def exited (l : ChildLife) : Paging := l.alive.releaseUserSpacePages

/-- The state after the clean thread destroyed the child. -/
def destroyed (l : ChildLife) : Paging := l.collected.destroyProcess l.child

/-- The frames of the pages and of the page tables of the child at its exit. -/
def IsSpaceFrame (l : ChildLife) (f : Nat) : Prop :=
  (∃ p r, l.alive.refs (l.child, p) = some r ∧ r.frame = f) ∨
    ∃ i, isUserTable i ∧ l.alive.owner (l.child, i) = some f

def directoryFrame (l : ChildLife) : Nat := (l.collected.dirs l.child).frame

/-- All frames of the child are free after its life unless another process maps them, only
frame numbers are passed to `release_phy_frame`, and no other bit changes. -/
structure Conserved (l : ChildLife) : Prop where
  space : ∀ f, l.IsSpaceFrame f → l.exited.phyFramesMap.testBit f = false ∨
    ∃ d p r, d ≠ l.child ∧ l.exited.refs (d, p) = some r ∧ r.frame = f
  directory : l.destroyed.phyFramesMap.testBit l.directoryFrame = false
  exit_calls : ∀ calls, l.exited.released = calls ++ l.alive.released → ∀ f ∈ calls, f < 8192
  destroy_calls : ∀ calls, l.destroyed.released = calls ++ l.collected.released → ∀ f ∈ calls, f < 8192
  exit_others : ∀ f, ¬ l.IsSpaceFrame f → l.exited.phyFramesMap.testBit f = l.alive.phyFramesMap.testBit f
  destroy_others : ∀ f, f ≠ l.directoryFrame →
    l.destroyed.phyFramesMap.testBit f = l.collected.phyFramesMap.testBit f

end ChildLife

namespace ChildLife

variable (l : ChildLife)

theorem alive_spec : l.alive.Wf ∧ l.child < l.alive.dirsNum := by
  have hfork := (cloneCrtPageDir_spec l.reachable.wf l.heap).of_ok l.fork
  have hlive := (systemSteps_spec hfork.wf l.living).of_ok l.live
  have hnum := hfork.dirsNum
  refine ⟨hlive.1, ?_⟩
  rw [child]
  omega

theorem collected_spec : l.collected.Wf ∧ l.child < l.collected.dirsNum := by
  obtain ⟨hwf, hlt⟩ := l.alive_spec
  have hexit := releaseUserSpacePages_spec hwf
  have hreap := (systemSteps_spec hexit.wf l.reaping).of_ok l.reap
  have hnum := hexit.dirsNum
  exact ⟨hreap.1, by omega⟩

theorem one_le_child : 1 ≤ l.child := Nat.one_le_of_lt l.reachable.wf.crt_lt

/-- The call in `destroy_process` leaves the directory frame in use and its argument is
no frame number. -/
theorem destroyed_spec : l.destroyed.phyFramesMap.testBit l.directoryFrame = true ∧
    8192 ≤ (l.collected.dirs l.child).pageDirEntriesPhy := by
  obtain ⟨hwf, hlt⟩ := l.collected_spec
  refine ⟨?_, hwf.pageDirEntriesPhy_ge l.one_le_child hlt⟩
  rw [destroyed, hwf.destroyProcess_testBit l.one_le_child hlt]
  apply hwf.owner_used (l.child, 0)
  simp [owner, hlt, Nat.ne_of_gt l.one_le_child, directoryFrame]

end ChildLife

/-- No life conserves the frames: the directory frame stays in use, and the argument of
the last call is out of range. -/
theorem child_life_not_conserved (l : ChildLife) : ¬ l.Conserved := by
  intro h
  have hused := l.destroyed_spec.1
  rw [h.directory] at hused
  exact absurd hused (by simp)

theorem nil_heap : ∀ p ∈ ([] : List Nat), IsHeapPage p := by simp

theorem nil_countPages_heap : ∀ q, ∀ p ∈ (fun _ => [] : Nat → List Nat) q, IsHeapPage p := by simp

/-- A heap whose two borrowed pages are the first ones of the second megabyte. -/
def sampleHeap : CloneHeap where
  copiedPageDir := 0xC0D00000
  copiedPageTable := 0xC0D01000
  dirPages := []
  tablePages := []
  countPages _ := []
  freePages := []
  copiedPageDir_heap := by simp [IsHeapPage, kheapStart, kheapMax, pageSize]
  copiedPageTable_heap := by simp [IsHeapPage, kheapStart, kheapMax, pageSize]
  dirPages_heap := nil_heap
  tablePages_heap := nil_heap
  countPages_heap := nil_countPages_heap
  freePages_heap := nil_heap

/-- The address 4 MB. -/
def sampleAddr : UserAddr := ⟨0x400000, by decide⟩

/-- Boot, fork a child, let it run into one page fault and exit. -/
def sampleLife : Except Panic (Paging × Paging × Paging) := do
  let before ← boot (fun _ _ => 0) []
  let forked ← before.cloneCrtPageDir sampleHeap
  let alive ← [SystemOp.user (.switchTo 1), .fault sampleAddr].foldlM systemStep forked
  if alive.crt = before.dirsNum then .ok (before, forked, alive) else .error .copyNested

theorem exists_sampleLife : ∃ r, sampleLife = .ok r := by
  have hok : sampleLife.isOk = true := by
    rw [sampleLife, boot, initPaging_eq]
    decide +kernel
  cases h : sampleLife with
  | error e => simp [h, Except.isOk, Except.toBool] at hok
  | ok r => exact ⟨r, rfl⟩

/-- The child that faults once and exits does not return its directory. -/
theorem sample_life_not_conserved : ∃ l : ChildLife, l.living = [.user (.switchTo 1), .fault sampleAddr] ∧
    l.reaping = [] ∧ ¬ l.Conserved := by
  obtain ⟨r, hr⟩ := exists_sampleLife
  rw [sampleLife] at hr
  obtain ⟨before, hbefore, hr⟩ := bind_eq_ok hr
  obtain ⟨forked, hforked, hr⟩ := bind_eq_ok hr
  obtain ⟨alive, halive, hr⟩ := bind_eq_ok hr
  have hcrt : alive.crt = before.dirsNum := by
    by_contra hne
    simp [hne] at hr
  have hreach : before.Reachable := ⟨fun _ _ => 0, ⟨[], by simp⟩, [], by rw [hbefore]; rfl⟩
  refine ⟨⟨before, sampleHeap, forked, _, alive, [], alive.releaseUserSpacePages, hreach, hforked, halive, hcrt, rfl⟩,
    rfl, rfl, fun h => ?_⟩
  exact absurd h.directory (by rw [(ChildLife.destroyed_spec _).1]; simp)

end LuckOS.Paging
