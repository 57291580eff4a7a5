import LuckOS.KernelThreads

/-!
# The code of the kernel threads

Code fits if every lock it takes is released, every lock it releases is held, and the
blocking sequences are complete. All functions have code that fits, and executing a
statement keeps this. The locks that a thread holds can be read off its code.
-/

namespace LuckOS

open Function Runs

namespace Stmt

/-- The first operation on a lock is its release. -/
def releases (l : YieldLock) : List Stmt → Bool
  | [] => false
  | .lock l' :: c => if l' = l then false else releases l c
  | .unlock l' :: c => if l' = l then true else releases l c
  | _ :: c => releases l c

/-- The statements that a dead thread executes. -/
def isFinal : Stmt → Bool
  | .lock _ | .unlock _ | .record | .wake _ | .remove _ _ | .add _ | .leave => true
  | _ => false

/-- The code does not start inside of the wake-up of a thread. -/
def startsCalm : List Stmt → Bool
  | .remove _ _ :: _ => false
  | .add _ :: _ => false
  | _ => true

/-- A lock that comes with a queue of waiting threads. -/
def hasQueue : YieldLock → Bool
  | .mutex _ | .cond _ => true
  | _ => false

/-- The rest of the code suits a statement. -/
def suits : Stmt → List Stmt → Prop
  | .lock l, c => releases l c = true
  | .unlock l, c => releases l c = false
  | .check p, c => ∀ l, releases l c = decide (l = .process p)
  | .test l, c => (∀ l', releases l' c = decide (l' = l)) ∧ l ≠ .kheap
  | .append l, c => hasQueue l = true ∧ ∃ c', c = .mark :: .unlock l :: .yield :: .lock l :: c'
  | .mark, c => ∃ l c', c = .unlock l :: .yield :: .lock l :: c'
  | .wake l, c => hasQueue l = true ∧ releases l c = true
  | .remove l n, c => hasQueue l = true ∧ releases l c = true ∧ ∃ c', c = .add n :: c' ∧ startsCalm c' = true
  | .yield, c => (∃ l c', c = .lock l :: c') ∧ ∀ l, releases l c = false
  | .die, c => .record ∈ c ∧ ∀ s ∈ c, s.isFinal = true
  | .leave, c => c = []
  | _, _ => True

/-- The code is complete from every statement on. -/
def Fits : List Stmt → Prop
  | [] => True
  | s :: c => s.suits c ∧ ((∀ l n, s ≠ .remove l n) → startsCalm c = true) ∧ Fits c

variable {l l' : YieldLock} {s : Stmt} {c rest : List Stmt}

theorem releases_lock : releases l (.lock l' :: c) = (decide (l' ≠ l) && releases l c) := by
  by_cases h : l' = l <;> simp [releases, h]

theorem releases_unlock : releases l (.unlock l' :: c) = (decide (l' = l) || releases l c) := by
  by_cases h : l' = l <;> simp [releases, h]

/-- The blocking sequence fits in front of the code behind the loop, and holds the same locks. -/
theorem fits_blockOn (hc : Fits (.test l :: rest)) : Fits (blockOn l ++ rest) := by
  have hrel : ∀ l', releases l' (.test l :: rest) = decide (l' = l) := hc.1.1
  have htest : Fits (.lock l :: .test l :: rest) := by
    refine ⟨?_, fun _ => rfl, hc⟩
    simp [suits, hrel]
  have hyield : ∀ l', releases l' (.lock l :: .test l :: rest) = false := by
    intro l'
    rw [releases_lock, hrel]
    by_cases h : l = l' <;> simp [h, eq_comm]
  have hmark : Fits (.mark :: .unlock l :: .yield :: .lock l :: .test l :: rest) := by
    refine ⟨⟨l, _, rfl⟩, fun _ => rfl, hyield l, fun _ => rfl, ⟨⟨l, _, rfl⟩, hyield⟩, fun _ => rfl, htest⟩
  cases l with
  | process p => exact hmark
  | mutex m => exact ⟨⟨rfl, _, rfl⟩, fun _ => rfl, hmark⟩
  | cond c => exact ⟨⟨rfl, _, rfl⟩, fun _ => rfl, hmark⟩
  | kheap => exact absurd rfl hc.1.2

theorem releases_blockOn (hc : Fits (.test l :: rest)) (l' : YieldLock) :
    releases l' (blockOn l ++ rest) = releases l' rest := by
  have hrel : releases l rest = true := by simp [hc.1.1 l]
  have hbody : releases l' ([.mark, .unlock l, .yield, .lock l, .test l] ++ rest) = releases l' rest := by
    by_cases h : l = l'
    · subst h
      simp [releases, hrel]
    · simp [releases, h]
  cases l <;> exact hbody

end Stmt

open Stmt

/-- Behind the check of `process_wait` only the lock of the process is held. -/
theorem Stmt.releases_processWait (p : Nat) (l : YieldLock) :
    releases l ([.test (.process p)] ++ hashTableRemove ++ [.unlock (.process p)] ++ addDeadProcess) =
      decide (l = .process p) := by
  cases l <;>
    simp [releases, hashTableRemove, addDeadProcess, heapCall, condVarNotify, deadResourceLock, eq_comm]

/-- The code of every function fits. -/
theorem Call.fits_body (f : Call) : Fits f.body := by
  cases f with
  | processWait p =>
    refine ⟨?_, fun _ => rfl, Stmt.releases_processWait p, fun _ => rfl, ?_⟩
    · simp [suits, releases, Stmt.hashTableRemove, Stmt.addDeadProcess, Stmt.heapCall, Stmt.condVarNotify, deadResourceLock]
    · refine ⟨⟨fun l => Stmt.releases_processWait p l, by simp⟩, fun _ => rfl, ?_⟩
      simp [Fits, suits, releases, startsCalm, hasQueue, Stmt.hashTableRemove, Stmt.addDeadProcess, Stmt.heapCall, Stmt.condVarNotify,
        deadResourceLock]
  | mutexLock m => simp [Call.body, Stmt.mutexLock, Fits, suits, releases, startsCalm, eq_comm]
  | mutexUnlock m => simp [Call.body, Stmt.mutexUnlock, Fits, suits, releases, startsCalm, hasQueue]
  | condVarWait c => simp [Call.body, Stmt.condVarWait, Fits, suits, releases, startsCalm, eq_comm]
  | notifyLocked c => simp [Call.body, Stmt.notifyLocked, Stmt.condVarNotify, Fits, suits, releases, startsCalm, hasQueue]
  | scheduleThreadExit p =>
    cases p <;>
    simp [Call.body, Stmt.scheduleThreadExit, Stmt.removeProcessThread, Stmt.hashTableRemove, Stmt.addDeadTask, Stmt.heapCall, Stmt.condVarNotify,
      deadResourceLock, Fits, suits, releases, startsCalm, isFinal, hasQueue]
  | heapCall => simp [Call.body, Stmt.heapCall, Fits, suits, releases, startsCalm]

/-- Every function starts with no lock held, and not inside of a wake-up. -/
theorem Call.releases_body (f : Call) (l : YieldLock) : releases l f.body = false := by
  rcases f with _ | _ | _ | _ | _ | p | _
  case scheduleThreadExit => cases p <;> cases l <;>
    simp [Call.body, Stmt.scheduleThreadExit, Stmt.removeProcessThread, Stmt.hashTableRemove, Stmt.addDeadTask,
      Stmt.heapCall, Stmt.condVarNotify, deadResourceLock, releases]
  all_goals cases l <;>
    simp [Call.body, Stmt.mutexLock, Stmt.mutexUnlock, Stmt.condVarWait, Stmt.notifyLocked, Stmt.processWait,
      Stmt.hashTableRemove, Stmt.addDeadProcess, Stmt.heapCall, Stmt.condVarNotify, deadResourceLock, releases]

theorem Call.startsCalm_body (f : Call) : startsCalm f.body = true := by
  cases f with
  | scheduleThreadExit p => cases p <;> rfl
  | _ => rfl

namespace KernelThreads

/-- The code of the threads fits, and the holder of a lock is the thread whose code
releases it. -/
structure Locked (k : KernelThreads) : Prop where
  fits : ∀ t, Fits (k.code t)
  holds : ∀ l t, k.holder l = some t ↔ releases l (k.code t) = true

variable {k k' : KernelThreads} {s : Stmt} {rest c : List Stmt} {answer : Bool}

theorem Locked.fits_crt (h : k.Locked) (hcode : k.code k.crt = s :: rest) : Fits (s :: rest) := by
  rw [← hcode]
  exact h.fits k.crt

/-- Other threads and other locks are not concerned by a step of the current thread. -/
theorem Locked.update (h : k.Locked) (hc : Fits c) {holder : YieldLock → Option Nat}
    (hcrt : ∀ l, holder l = some k.crt ↔ releases l c = true)
    (hother : ∀ l t, t ≠ k.crt → (holder l = some t ↔ k.holder l = some t)) (k' : KernelThreads)
    (hcode : k'.code = update k.code k.crt c) (hholder : k'.holder = holder) : k'.Locked := by
  refine ⟨fun t => ?_, fun l t => ?_⟩
  · rw [hcode]
    by_cases ht : t = k.crt
    · rw [ht, update_self]
      exact hc
    · rw [update_of_ne ht]
      exact h.fits t
  · rw [hcode, hholder]
    by_cases ht : t = k.crt
    · rw [ht, update_self]
      exact hcrt l
    · rw [update_of_ne ht]
      exact (hother l t ht).trans (h.holds l t)

/-- The current thread goes on with code that holds the same locks. -/
theorem Locked.goto (h : k.Locked) (hc : Fits c) (hrel : ∀ l, releases l c = releases l (k.code k.crt))
    (k' : KernelThreads) (hcode : k'.code = Function.update k.code k.crt c) (hholder : k'.holder = k.holder) :
    k'.Locked := by
  refine h.update hc (fun l => ?_) (fun _ _ _ => Iff.rfl) k' hcode hholder
  rw [hrel]
  exact h.holds l k.crt

theorem Locked.lock {l : YieldLock} (h : k.Locked) (hcode : k.code k.crt = .lock l :: rest) (hfree : k.holder l = none)
    (k' : KernelThreads) (hcode' : k'.code = Function.update k.code k.crt rest)
    (hholder : k'.holder = Function.update k.holder l (some k.crt)) : k'.Locked := by
  have hfits := h.fits_crt hcode
  have hrel : releases l rest = true := hfits.1
  refine h.update hfits.2.2 (fun l' => ?_) (fun l' t ht => ?_) k' hcode' hholder
  · by_cases hl : l' = l
    · subst hl
      simp [hrel]
    · rw [Function.update_of_ne hl, h.holds, hcode, releases_lock, Bool.and_eq_true, decide_eq_true_eq]
      exact ⟨And.right, fun hrel => ⟨Ne.symm hl, hrel⟩⟩
  · by_cases hl : l' = l
    · subst hl
      simp [hfree, ht.symm]
    · rw [Function.update_of_ne hl]

theorem Locked.unlock {l : YieldLock} (h : k.Locked) (hcode : k.code k.crt = .unlock l :: rest)
    (k' : KernelThreads) (hcode' : k'.code = Function.update k.code k.crt rest)
    (hholder : k'.holder = Function.update k.holder l none) : k'.Locked := by
  have hfits := h.fits_crt hcode
  have hself : k.holder l = some k.crt := by
    rw [h.holds, hcode]
    simp [releases]
  have hrel : releases l rest = false := hfits.1
  refine h.update hfits.2.2 (fun l' => ?_) (fun l' t ht => ?_) k' hcode' hholder
  · by_cases hl : l' = l
    · subst hl
      simp [hrel]
    · rw [Function.update_of_ne hl, h.holds, hcode, releases_unlock, Bool.or_eq_true, decide_eq_true_eq]
      exact ⟨fun hor => hor.resolve_left (Ne.symm hl), .inr⟩
  · by_cases hl : l' = l
    · subst hl
      simp [hself, ht.symm]
    · rw [Function.update_of_ne hl]

/-- Executing a statement keeps the discipline. -/
theorem Locked.exec (h : k.Locked) (hcode : k.code k.crt = s :: rest) (hexec : k.exec answer rest s = some k') :
    k'.Locked := by
  have hfits := h.fits_crt hcode
  have hsame : (∀ l, releases l (s :: rest) = releases l rest) → ∀ l, releases l rest = releases l (k.code k.crt) := by
    intro heq l
    rw [hcode, heq]
  cases s with
  | lock l =>
    cases hholder : k.holder l with
    | none =>
      simp only [KernelThreads.exec, hholder, Option.some.injEq] at hexec
      subst hexec
      exact h.lock hcode hholder _ rfl rfl
    | some t =>
      simp only [KernelThreads.exec, hholder, Option.map_eq_some_iff] at hexec
      obtain ⟨sched, -, rfl⟩ := hexec
      exact ⟨h.fits, h.holds⟩
  | unlock l =>
    obtain rfl := Option.some.inj hexec
    exact h.unlock hcode _ rfl rfl
  | check p =>
    obtain rfl := Option.some.inj hexec
    cases answer with
    | true => exact h.goto hfits.2.2 (hsame fun _ => rfl) _ rfl rfl
    | false =>
      refine h.goto (c := [.unlock (.process p)]) ⟨rfl, fun _ => rfl, trivial⟩ (fun l => ?_) _ rfl rfl
      rw [hcode]
      have hrel : releases l (.check p :: rest) = decide (l = .process p) := hfits.1 l
      rw [hrel]
      simp [releases, eq_comm]
  | test l =>
    obtain rfl := Option.some.inj hexec
    cases hpass : k.passes l answer with
    | true => exact h.goto hfits.2.2 (hsame fun _ => rfl) _ (by simp [KernelThreads.goto]) rfl
    | false =>
      refine h.goto (fits_blockOn hfits) (fun l' => ?_) _ (by simp [KernelThreads.goto]) rfl
      rw [releases_blockOn hfits, hcode]
      rfl
  | append l =>
    obtain rfl := Option.some.inj hexec
    exact h.goto hfits.2.2 (hsame fun _ => rfl) _ rfl rfl
  | mark =>
    obtain rfl := Option.some.inj hexec
    exact h.goto hfits.2.2 (hsame fun _ => rfl) _ rfl rfl
  | yield =>
    obtain ⟨sched, -, rfl⟩ := Option.map_eq_some_iff.mp hexec
    exact h.goto hfits.2.2 (hsame fun _ => rfl) _ rfl rfl
  | holdNo m =>
    obtain rfl := Option.some.inj hexec
    exact h.goto hfits.2.2 (hsame fun _ => rfl) _ rfl rfl
  | wake l =>
    simp only [KernelThreads.exec] at hexec
    split_ifs at hexec
    · obtain ⟨n, -, rfl⟩ := Option.map_eq_some_iff.mp hexec
      obtain ⟨hqueue, hrel⟩ := hfits.1
      have hcalm := hfits.2.1 (by simp)
      refine h.goto (c := .remove l n :: .add n :: rest) ?_ (fun l' => ?_) _ rfl rfl
      · exact ⟨⟨hqueue, hrel, rest, rfl, hcalm⟩, by simp, trivial, fun _ => hcalm, hfits.2.2⟩
      · rw [hcode]
        rfl
    · obtain rfl := Option.some.inj hexec
      exact h.goto hfits.2.2 (hsame fun _ => rfl) _ rfl rfl
  | remove l n =>
    obtain rfl := Option.some.inj hexec
    exact h.goto hfits.2.2 (hsame fun _ => rfl) _ rfl rfl
  | add n =>
    obtain rfl := Option.some.inj hexec
    exact h.goto hfits.2.2 (hsame fun _ => rfl) _ rfl rfl
  | die =>
    obtain rfl := Option.some.inj hexec
    exact h.goto hfits.2.2 (hsame fun _ => rfl) _ rfl rfl
  | record =>
    obtain rfl := Option.some.inj hexec
    exact h.goto hfits.2.2 (hsame fun _ => rfl) _ rfl rfl
  | leave =>
    obtain ⟨sched, -, rfl⟩ := Option.map_eq_some_iff.mp hexec
    exact h.goto hfits.2.2 (hsame fun _ => rfl) _ rfl rfl

theorem Locked.step {a : Action} (h : k.Locked) (hstep : k.step a = some k') : k'.Locked := by
  cases a with
  | spawn t =>
    simp only [KernelThreads.step] at hstep
    split_ifs at hstep
    obtain rfl := Option.some.inj hstep
    exact ⟨h.fits, h.holds⟩
  | call f =>
    simp only [KernelThreads.step] at hstep
    split_ifs at hstep with hcall
    obtain rfl := Option.some.inj hstep
    refine h.goto f.fits_body (fun l => ?_) _ rfl rfl
    rw [f.releases_body, hcall.2.1]
    rfl
  | run answer =>
    simp only [KernelThreads.step] at hstep
    split at hstep
    · cases hstep
    · exact h.exec (by assumption) hstep
  | preempt =>
    obtain ⟨sched, -, rfl⟩ := Option.map_eq_some_iff.mp hstep
    exact ⟨h.fits, h.holds⟩
  | wakeParent t p =>
    simp only [KernelThreads.step] at hstep
    split_ifs at hstep
    obtain rfl := Option.some.inj hstep
    exact ⟨h.fits, h.holds⟩

theorem start_locked : start.Locked := ⟨fun _ => trivial, fun l t => by simp [start, releases]⟩

end KernelThreads

end LuckOS
