import LuckOS.PhysicalOps
import LuckOS.Runs

/-!
# Runs that are computed

How many frames an operation takes can be computed in the state of `Paging`, and so can the runs in which all of them
lie below the tables of the kernel. Each of these runs takes place in memory.
-/

namespace LuckOS

open ByteMemory PageWalk BootLoader FrameContents Outcome Runs
open Paging (Pte PageDir isUserPage isUserTable)

namespace PhysicalPaging

/-- One operation as a step of the system. -/
def OpStep (s : PhysicalPaging) (op : UserOp) (t : PhysicalPaging) : Prop := ∃ bs, s.userOp op = .ok (bs, t)

/-- The number of frames that a page fault takes, in the state. -/
def faultFramesOn (s : Paging) (p : Nat) : Nat :=
  if !(s.getPde (p / 1024)).present then 2
  else if !(s.getPte p).present then 1
  else if !(s.getPte p).rw && decide (0 < (s.frameCowRefCounts (s.getPte p).frame).getD 0) then 1
  else 0

/-- The mapped pages behind the page tables that are present. -/
def userPagesOn (s : Paging) : List Nat :=
  ((List.range' 1 767).filter fun i => (s.getPde i).present).flatMap fun i =>
    (List.range' (i * 1024) 1024).filter fun p => (s.getPte p).present

/-- The number of frames that an operation takes, in the state. -/
def UserOp.framesOn (s : Paging) : UserOp → Nat
  | .read addr => if (s.getPte (addr.1 / pageSize)).present then 0 else faultFramesOn s (addr.1 / pageSize)
  | .write addr _ =>
    if (s.getPte (addr.1 / pageSize)).present && (s.getPte (addr.1 / pageSize)).rw then 0
    else faultFramesOn s (addr.1 / pageSize)
  | .fault addr => faultFramesOn s (addr.1 / pageSize)
  | .fork heap => 1 + s.userTablesNum + unmapped s (heap.dirPages ++ heap.tablePages ++
      (userPagesOn s).flatMap heap.countPages ++ heap.freePages).toFinset
  | .release => 0
  | .switchTo _ => 0
  | .heapFaults pages => unmapped s pages.1.toFinset

def sparesOn (s : Paging) (op : UserOp) : Bool := decide (op.framesOn s ≤ s.phyFramesMap.freeBelow 0x100)

def stepOn (s : Paging) (op : UserOp) : Option Paging := (op.onPaging s).toOption.map Prod.snd

variable {M N : PhysicalPaging} {s t : Paging} {op : UserOp} {ops : List UserOp} {p : Nat}

/-- An operation that spares the tables returns, and the memory keeps to the state. -/
theorem Represents.opStep (h : Represents M s) (hstep : Guarded Spares OpStep M op N) : ∃ t, Represents N t := by
  obtain ⟨hspares, bs, hrun⟩ := hstep
  obtain ⟨r, -, r', hr', -, hrepresents⟩ := h.userOp hspares
  obtain rfl := Except.ok.inj (hrun.symm.trans hr')
  exact ⟨r.2, hrepresents⟩

namespace Represents

theorem faultFrames_eq (h : Represents M s) (hp : isUserPage p) : M.faultFrames p = faultFramesOn s p := by
  have hpage := changeable_user hp
  rw [faultFrames, faultFramesOn, h.simulates.hasTable_eq hpage.lt]
  cases hpresent : (s.getPde (p / 1024)).present with
  | false => rfl
  | true => rw [h.simulates.entry_eq hpage.lt hpage.window hpresent, h.simulates.counts]

theorem mem_userPages_iff (h : Represents M s) : p ∈ M.userPages ↔ p ∈ userPagesOn s := by
  rw [userPagesOn, List.mem_flatMap]
  constructor
  · intro hmem
    rw [userPages, List.mem_filter, List.mem_range'_1] at hmem
    obtain ⟨hrange, hpresent⟩ := hmem
    have hp : isUserPage p := decide_eq_true ⟨by omega, by omega⟩
    rw [h.permitted_eq hp (c := fun e => e.present) fun _ he => he] at hpresent
    have htable : (s.getPde (p / 1024)).present := by
      rw [Paging.getPte_user hp] at hpresent
      exact h.wf.tables _ h.wf.crt_lt _ hp hpresent
    refine ⟨p / 1024, List.mem_filter.mpr ⟨List.mem_range'_1.mpr (by omega), htable⟩, ?_⟩
    exact List.mem_filter.mpr ⟨List.mem_range'_1.mpr (by omega), hpresent⟩
  · rintro ⟨i, hi, hp⟩
    obtain ⟨hi, -⟩ := List.mem_filter.mp hi
    obtain ⟨hp, hpresent⟩ := List.mem_filter.mp hp
    rw [List.mem_range'_1] at hi hp
    exact h.mem_userPages (decide_eq_true ⟨by omega, by omega⟩) hpresent

theorem cloneFrames_eq (h : Represents M s) (heap : LentHeap) :
    M.framesNeeded (.fork heap) = UserOp.framesOn s (.fork heap) := by
  have hset : (M.clonePages heap.toCloneHeap).toFinset = (heap.dirPages ++ heap.tablePages ++
      (userPagesOn s).flatMap heap.countPages ++ heap.freePages).toFinset := by
    ext q
    simp only [clonePages, List.mem_toFinset, List.mem_append, List.mem_flatMap, h.mem_userPages_iff]
  rw [framesNeeded, cloneFrames, h.simulates.heapFrames_eq (clonePages_heap heap.toCloneHeap M), h.userTables_length, hset]
  rfl

/-- An operation takes as many frames in memory as in the state. -/
theorem framesNeeded_eq (h : Represents M s) (op : UserOp) : M.framesNeeded op = op.framesOn s := by
  cases op with
  | read addr =>
    have haddr : isUserPage (addr.1 / pageSize) := addr.2
    have hpresent := h.permitted_eq haddr (c := fun e => e.present) fun _ he => he
    rw [framesNeeded, UserOp.framesOn, h.faultFrames_eq haddr, hpresent]
  | write addr value =>
    have haddr : isUserPage (addr.1 / pageSize) := addr.2
    have hpermitted := h.permitted_eq haddr (c := fun e => e.present && e.rw)
      fun _ he => (Bool.and_eq_true_iff.mp he).1
    rw [framesNeeded, UserOp.framesOn, h.faultFrames_eq haddr, hpermitted]
  | fault addr => exact h.faultFrames_eq addr.2
  | fork heap => exact h.cloneFrames_eq heap
  | release => rfl
  | switchTo d => rfl
  | heapFaults pages => exact h.simulates.heapFrames_eq pages.2

/-- An operation that is computed in the state takes place in memory. -/
theorem stepOn (h : Represents M s) (hstep : Guarded (fun s op => sparesOn s op = true) (Steps PhysicalPaging.stepOn) s op t) :
    ∃ N, Guarded Spares OpStep M op N ∧ Represents N t := by
  obtain ⟨hspares, hstep⟩ := hstep
  rw [sparesOn, decide_eq_true_eq, ← h.framesNeeded_eq, ← h.simulates.phyFramesMap] at hspares
  obtain ⟨r, hr, r', hr', -, hrepresents⟩ := h.userOp hspares
  rw [Steps, PhysicalPaging.stepOn, hr] at hstep
  obtain rfl := Option.some.inj hstep
  exact ⟨r'.2, ⟨hspares, r'.1, hr'⟩, hrepresents⟩

/-- A run that is computed in the state takes place in memory. -/
theorem run (h : Represents M s) (hrun : execute (permit sparesOn PhysicalPaging.stepOn) s ops = some t) :
    ∃ N, Run (Guarded Spares OpStep) M ops N ∧ Represents N t := by
  have hguarded : Run (Guarded (fun s op => sparesOn s op = true) (Steps PhysicalPaging.stepOn)) s ops t :=
    run_of_execute_permit id hrun
  refine @Run.simulate _ _ _ _ _ _ _ _ (fun s M => Represents M s) ?_ hguarded M h
  exact fun hs hstep => hs.stepOn hstep

end Represents

end PhysicalPaging

end LuckOS
