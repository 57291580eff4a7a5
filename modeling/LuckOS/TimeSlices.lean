import LuckOS.RunCosts
import LuckOS.TaskRuns
import Mathlib.Algebra.Group.Nat.Defs

/-!
# Time slices

The task queues with the fields `ticks`, `priority` and `need_reschedule` of the threads. The
timer counts the ticks of the current thread and marks it at the end of its time slice, and
the keyboard handler marks it behind its loop. `schedule`, which is called at the end of a
handler, switches only away from a marked thread. The waiting time of a ready thread is
bounded along runs: a switch moves it forward by one place in `ready_tasks`, and only
`add_thread_node_to_schedule_head` moves it back.
-/

namespace LuckOS

open Function Runs Scheduler Queues

/-- The fields are those of the threads; `priority` is a `uint8`, and `ticks` a `uint32`. The handlers
in `activates` belong to the keyboard and have not executed their last statement. -/
structure TimeSlices where
  tasks : TaskQueues
  priority : Nat → Nat
  ticks : Nat → Nat
  needReschedule : Nat → Bool
  activates : Nat → Bool

namespace TimeSlices

/-- A thread has its priority from its creation. A thread that is forked inherits the mark of its parent. -/
def start (priority : Nat → Nat) (inherited : Nat → Bool) : TimeSlices where
  tasks := TaskQueues.start
  priority := fun t => priority t % 2 ^ 8
  ticks := fun _ => 0
  needReschedule := fun t => decide (2 < t) && inherited t
  activates := fun _ => false

def crt (k : TimeSlices) : Nat := k.tasks.crt

/-- The handlers that interrupt the current thread. -/
def depth (k : TimeSlices) : Nat := (k.tasks.stack k.crt).length

/-- `timer_callback`. -/
def timerCallback (k : TimeSlices) : TimeSlices :=
  let ticks := (k.ticks k.crt + 1) % 2 ^ 32
  { k with
    ticks := update k.ticks k.crt ticks
    needReschedule := if k.priority k.crt ≤ ticks then update k.needReschedule k.crt true
      else k.needReschedule }

/-- What `do_context_switch` does to the fields of the thread that is switched out. -/
def endSlice (k : TimeSlices) : TimeSlices :=
  { k with ticks := update k.ticks k.crt 0, needReschedule := update k.needReschedule k.crt false }

/-- Whether `schedule` calls `do_context_switch`. -/
def Preempts (k : TimeSlices) : Prop :=
  k.tasks.preemptCount k.crt = 0 ∧ 0 < (k.tasks.sched.queues.list .ready).size ∧
    k.needReschedule k.crt = true

instance (k : TimeSlices) : Decidable k.Preempts := inferInstanceAs (Decidable (_ ∧ _))

/-- `schedule` at the end of a handler, and the return to the code that it interrupted. -/
def schedule (k : TimeSlices) (rest : List Nat) : TimeSlices :=
  let tasks := { k.tasks with stack := update k.tasks.stack k.crt rest }
  if k.Preempts then { k.endSlice with tasks := tasks.resume tasks.sched.doContextSwitch }
  else { k with tasks := { tasks with enabled := true } }

/-- The loop of the handler `i` is over. -/
def Woken (k : TimeSlices) (i : Nat) : Prop := k.tasks.adding i = none ∧ k.tasks.node i = none

instance (k : TimeSlices) (i : Nat) : Decidable (k.Woken i) := inferInstanceAs (Decidable (_ ∧ _))

/-- One step of the handler `i` that runs on the stack of the current thread. -/
def handle (k : TimeSlices) (i : Nat) (rest : List Nat) : TimeSlices :=
  if k.Woken i then
    if k.activates i then
      { k with needReschedule := update k.needReschedule k.crt true, activates := update k.activates i false }
    else if k.tasks.enabled then k.schedule rest
    else { k with tasks := { k.tasks with enabled := true } }
  else { k with tasks := k.tasks.handle i rest }

end TimeSlices

/-- Whether the next step of the current thread, outside of the handlers, calls `do_context_switch`. -/
def TaskQueues.switches (k : TaskQueues) (answer : Bool) : TaskPc → Bool
  | .yield | .readYield | .exitSwitch | .cleanYield | .cleanNext => true
  | .spawnAlloc _ | .exitDetach | .exitAlloc | .cleanDestroy => !answer
  | .exitLock | .cleanLock => k.deadLock.isSome
  | _ => false

namespace TimeSlices

open TaskQueues (Action)

/-- One step of the current thread outside of the handlers. -/
def exec (k : TimeSlices) (answer : Bool) : Option TimeSlices :=
  (k.tasks.exec answer (k.tasks.pc k.crt)).map fun tasks =>
    { (if k.tasks.switches answer (k.tasks.pc k.crt) then k.endSlice else k) with tasks := tasks }

def step (k : TimeSlices) : Action → Option TimeSlices
  | .call f => (k.tasks.step (.call f)).map fun tasks => { k with tasks := tasks }
  | .run answer =>
    if k.tasks.crashed then none
    else match k.tasks.stack k.crt with
      | [] => k.exec answer
      | i :: rest => some (k.handle i rest)
  | .timer => (k.tasks.step .timer).map fun tasks => { k.timerCallback with tasks := tasks }
  | .keyboard => (k.tasks.step .keyboard).map fun tasks =>
    { k with tasks := tasks, activates := update k.activates k.tasks.handlers true }

/-- The handler `i` is at the call of `schedule`. -/
def Returns (k : TimeSlices) (i : Nat) : Prop :=
  k.Woken i ∧ k.activates i = false ∧ k.tasks.enabled = true

instance (k : TimeSlices) (i : Nat) : Decidable (k.Returns i) := inferInstanceAs (Decidable (_ ∧ _))

/-! ## What is counted along a run -/

/-- The calls of `do_context_switch`. -/
def switches (k : TimeSlices) : Action → Nat
  | .run answer =>
    match k.tasks.stack k.crt with
    | [] => if k.tasks.switches answer (k.tasks.pc k.crt) then 1 else 0
    | i :: _ => if k.Returns i ∧ k.Preempts then 1 else 0
  | _ => 0

/-- The calls of `add_thread_node_to_schedule_head`. -/
def headInsertions (k : TimeSlices) : Action → Nat
  | .run _ =>
    match k.tasks.stack k.crt with
    | [] => 0
    | i :: _ => if (k.tasks.adding i).isSome then 1 else 0
  | _ => 0

/-- The handlers that return while preemption is disabled. -/
def unpreempted (k : TimeSlices) : Action → Nat
  | .run _ =>
    match k.tasks.stack k.crt with
    | [] => 0
    | i :: _ => if k.Returns i ∧ 0 < k.tasks.preemptCount k.crt then 1 else 0
  | _ => 0

/-- The interrupts of the timer. -/
def timerTicks (_ : TimeSlices) : Action → Nat
  | .timer => 1
  | _ => 0

/-- No more than `depth` handlers are nested. -/
def NestsBelow (depth : Nat) (k : TimeSlices) : Action → Prop
  | .timer | .keyboard => k.depth < depth
  | _ => True

end TimeSlices

/-! ## What a step of the task queues does to `ready_tasks` -/

namespace TaskQueues

variable {k k' : TaskQueues} {q q' : Queue WaitList → List Nat}
  {s s' : Scheduler WaitList Nat} {t n : Nat}
  {xs ys : List Nat} {turns late : Nat} {p : TaskPc}

/-- The thread `t`, which was in `ready_tasks`, runs, or it is still there, `turns` places further forward but for
`late` places. -/
def Advances (t : Nat) (xs : List Nat) (turns late : Nat) (s : Scheduler WaitList Nat) : Prop :=
  s.crt = t ∨ ∃ q, s.queues.Represents q ∧ t ∈ q .ready ∧ (q .ready).idxOf t + turns ≤ xs.idxOf t + late

theorem Advances.stay (hrep : s.queues.Represents q) (hq : q .ready = xs) (ht : t ∈ xs) :
    Advances t xs 0 0 s :=
  .inr ⟨q, hrep, hq ▸ ht, Nat.le_of_eq (congrArg (List.idxOf t) hq)⟩

theorem Advances.append (hrep : s.queues.Represents q) (hq : q .ready = xs ++ ys) (ht : t ∈ xs) :
    Advances t xs 0 0 s := by
  refine .inr ⟨q, hrep, ?_, ?_⟩
  · rw [hq]
    exact List.mem_append_left _ ht
  · rw [hq]
    exact Nat.le_of_eq (List.idxOf_append_of_mem ht)

theorem idxOf_insertSecond (ht : t ∈ xs) : (insertSecond n xs).idxOf t ≤ xs.idxOf t + 1 := by
  cases xs with
  | nil => cases ht
  | cons x xs =>
    rw [insertSecond, List.idxOf_cons, List.idxOf_cons, List.idxOf_cons]
    cases x == t <;> cases n == t <;> simp

theorem Advances.insertSecond (hrep : s.queues.Represents q) (hq : q .ready = insertSecond n xs)
    (ht : t ∈ xs) :
    Advances t xs 0 1 s := by
  refine .inr ⟨q, hrep, ?_, ?_⟩
  · rw [hq]
    exact mem_insertSecond.mpr (.inr ht)
  · rw [hq]
    exact idxOf_insertSecond ht

/-- A switch takes the head of `ready_tasks`. -/
theorem advances_doContextSwitch (h : s.Placed q) (hfree : s.Requeues → ∀ w, s.crt ∉ q (.waiting w))
    (ht : t ∈ q .ready) :
    ∃ s', s.doContextSwitch = some s' ∧ Advances t (q .ready) 1 0 s' := by
  obtain ⟨n, xs, hq⟩ := List.exists_cons_of_ne_nil (List.ne_nil_of_mem ht)
  refine ⟨s.switchTo n, ?_, ?_⟩
  · rw [Scheduler.doContextSwitch, h.head?_ready, hq]
    rfl
  · by_cases hn : n = t
    · exact .inl (by rw [switchTo_crt, hn])
    · rw [hq] at ht ⊢
      have hxs : t ∈ xs := (List.mem_cons.mp ht).resolve_left (Ne.symm hn)
      have hfront : (s.requeued xs).idxOf t = xs.idxOf t := by
        rw [requeued]
        split_ifs
        · exact List.idxOf_append_of_mem hxs
        · rfl
      refine .inr ⟨_, switchTo_queues h hq hfree, ?_, ?_⟩
      · rw [update_self]
        exact mem_requeued.mpr (.inl hxs)
      · rw [update_self, hfront]
        exact Nat.le_of_eq (List.idxOf_cons_ne _ hn).symm

/-- A thread that yields while another one is ready does not queue the idle thread. -/
theorem advances_threadYield (h : s.Placed q) (hfree : s.Requeues → ∀ w, s.crt ∉ q (.waiting w))
    (ht : t ∈ q .ready) :
    ∃ s', s.threadYield = some s' ∧ Advances t (q .ready) 1 0 s' := by
  have hmain : s.queueMain = s := by
    rw [Scheduler.queueMain, h.represents.size_eq, if_neg]
    exact Nat.ne_of_gt (List.length_pos_of_mem ht)
  rw [Scheduler.threadYield, hmain]
  exact advances_doContextSwitch h hfree ht

theorem Steady.yield_advances (h : Steady k q) (hsched : k'.sched = k.sched) (ht : t ∈ q .ready) :
    Advances t (q .ready) 1 0 k'.threadYield.sched := by
  obtain ⟨s, hs, hadv⟩ := advances_threadYield h.sleepers.placed h.sleepers.requeues_free ht
  rw [TaskQueues.threadYield, hsched, hs]
  exact hadv

theorem Steady.stays (h : Steady k q) (ht : t ∈ q .ready) : Advances t (q .ready) 0 0 k.sched :=
  .stay h.sleepers.placed.represents rfl ht

theorem TaskInv.tryLock_advances (h : TaskInv k q) (answer : Bool) (p' : TaskPc) (ht : t ∈ q .ready) :
    Advances t (q .ready) (if (!answer) = true then 1 else 0) 0 (k.tryLock answer p').sched := by
  cases answer with
  | true => exact h.stays ht
  | false => exact h.yield_advances rfl ht

theorem TaskInv.lockDead_advances (h : TaskInv k q) (p' : TaskPc) (ht : t ∈ q .ready) :
    Advances t (q .ready) (if k.deadLock.isSome = true then 1 else 0) 0 (k.lockDead p').sched := by
  rw [TaskQueues.lockDead]
  cases k.deadLock with
  | none => exact h.stays ht
  | some _ => exact h.yield_advances rfl ht

/-- A node goes to the end of a waiting list. -/
theorem TaskInv.sleep_advances (h : TaskInv k q) (hp : k.pc k.crt = p) (hcrt : k.crt ≠ k.sched.main)
    (hpark : p.parked = false) (hdie : p.afterDie = false) (w : WaitList) (ht : t ∈ q .ready) :
    Advances t (q .ready) 0 0 (k.sched.appendWaiting w).markThreadBlock := by
  have hrun := h.crt_running hp hcrt hpark hdie
  have hfree := h.sleepers.not_listed hcrt (h.sleepers.not_waiting (by simp [crt, hrun]))
    (by simp [crt, hrun])
  exact .stay (h.sleepers.placed.appendWaiting (w := w) hfree hcrt).represents
    (update_of_ne (by simp) ..) ht

theorem TaskInv.add_advances (h : TaskInv k q) {n : Nat} (hmain : n ≠ k.sched.main)
    (hwait : ∀ w, n ∉ q (.waiting w)) (hready : k.sched.status n ≠ some .ready) (ht : t ∈ q .ready) :
    Advances t (q .ready) 0 0 (k.sched.addThreadNode n) := by
  have hrep := h.sleepers.placed.represents.append (i := .ready)
    (h.sleepers.not_listed hmain hwait hready)
  exact .append hrep (update_self ..) ht

theorem notify_sched (k : TaskQueues) : k.notify.sched = k.sched := by
  rw [TaskQueues.notify]
  split_ifs
  · cases (k.sched.queues.list (.waiting .deadResource)).head <;> rfl
  · rfl

/-- A step of the current thread outside of the handlers moves the ready threads forward by one place if it
switches, and otherwise leaves them in place. -/
theorem TaskInv.exec_advances {answer : Bool} (h : TaskInv k q) (hp : k.pc k.crt = p)
    (hstep : k.exec answer p = some k')
    (ht : t ∈ q .ready) : Advances t (q .ready) (if k.switches answer p = true then 1
      else 0) 0 k'.sched := by
  have hcrt : k.crt ≠ k.sched.main := by
    refine h.crt_ne_main ?_
    rintro huser
    rw [hp] at huser
    subst huser
    cases hstep
  have hself := h.threads k.crt
  rw [hp] at hself
  cases p with
  | user => cases hstep
  | spawnAdd m =>
    rw [TaskQueues.exec] at hstep
    split_ifs at hstep with hm
    obtain rfl := Option.some.inj hstep
    refine h.add_advances ?_ (h.sleepers.not_waiting (by simp [hm])) (by simp [hm]) ht
    rintro rfl
    exact h.sleepers.mainCreated hm
  | readChar =>
    obtain rfl := Option.some.inj hstep
    change Advances t (q .ready) 0 0 (k.readKeyboard answer).sched
    rw [readKeyboard]
    split_ifs
    · exact h.stays ht
    · exact h.sleep_advances hp hcrt rfl rfl .keyboard ht
  | cleanSleep =>
    obtain rfl := Option.some.inj hstep
    exact h.sleep_advances hp hcrt rfl rfl .deadResource ht
  | exitNotify =>
    obtain rfl := Option.some.inj hstep
    rw [notify_sched]
    exact h.stays ht
  | exitTake n =>
    obtain rfl := Option.some.inj hstep
    obtain ⟨rfl, hhead⟩ := hself.takes rfl
    obtain ⟨xs, hq⟩ := List.head?_eq_some_iff.mp hhead
    exact .stay (h.sleepers.takeClean hq).placed.represents (update_of_ne (by simp) ..) ht
  | exitAdd n =>
    obtain rfl := Option.some.inj hstep
    obtain ⟨rfl, hwait, hlist⟩ := hself.wakes rfl
    exact h.add_advances h.sleepers.cleanNotMain hlist (by simp [hwait]) ht
  | exitSwitch =>
    obtain rfl := Option.some.inj hstep
    obtain ⟨s, hs, hadv⟩ := advances_doContextSwitch h.sleepers.placed h.sleepers.requeues_free ht
    rw [hs]
    exact hadv
  | yield | readYield | cleanYield | cleanNext =>
    obtain rfl := Option.some.inj hstep
    exact h.yield_advances rfl ht
  | spawnAlloc _ | exitDetach | exitAlloc | cleanDestroy =>
    obtain rfl := Option.some.inj hstep
    exact h.tryLock_advances answer _ ht
  | exitLock | cleanLock =>
    obtain rfl := Option.some.inj hstep
    exact h.lockDead_advances _ ht
  | readEnter | exitMark | exitRecord | exitUnlock | cleanTest | cleanUnlock | cleanMove | cleanStrayUnlock =>
    obtain rfl := Option.some.inj hstep
    exact h.stays ht

/-- In the loop of a handler, a thread is moved back by one place for each thread that is woken. -/
theorem TaskInv.handle_advances (h : TaskInv k q) {i : Nat} (rest : List Nat)
    (hloop : ¬ (k.adding i = none ∧ k.node i = none))
    (ht : t ∈ q .ready) :
    Advances t (q .ready) 0 (if (k.adding i).isSome then 1 else 0) (k.handle i rest).sched := by
  rw [TaskQueues.handle]
  cases hadding : k.adding i with
  | some n =>
    have hsleep := h.sleepers.addThreadNodeHead hadding
    exact .insertSecond hsleep.placed.represents (update_self ..) ht
  | none =>
    cases hnode : k.node i with
    | some n =>
      obtain ⟨xs, -, hsleep⟩ := h.sleepers.takeHandler hnode hadding
      exact .stay hsleep.placed.represents (update_of_ne (by simp) ..) ht
    | none => exact absurd ⟨hadding, hnode⟩ hloop

theorem TaskInv.keyboard_advances (h : TaskInv k q) (ht : t ∈ q .ready) :
    Advances t (q .ready) 0 0 k.keyboard.sched := by
  refine .stay h.sleepers.keyboard.placed.represents ?_ ht
  rw [update_of_ne (by simp), update_of_ne (by simp)]

/-! ## Frames -/

theorem resume_stack (k : TaskQueues) (r : Option (Scheduler WaitList Nat)) :
    (k.resume r).stack = k.stack := by
  cases r <;> rfl

theorem tryLock_stack (k : TaskQueues) (answer : Bool) (p : TaskPc) :
    (k.tryLock answer p).stack = k.stack := by
  cases answer
  · exact resume_stack ..
  · rfl

theorem lockDead_stack (k : TaskQueues) (p : TaskPc) : (k.lockDead p).stack = k.stack := by
  rw [lockDead]
  cases k.deadLock
  · rfl
  · exact resume_stack ..

theorem readKeyboard_stack (k : TaskQueues) (answer : Bool) :
    (k.readKeyboard answer).stack = k.stack := by
  cases answer <;> rfl

theorem notify_stack (k : TaskQueues) : k.notify.stack = k.stack := by
  rw [TaskQueues.notify]
  split_ifs
  · cases (k.sched.queues.list (.waiting .deadResource)).head <;> rfl
  · rfl

/-- Only the handlers change the stacks. -/
theorem exec_stack {answer : Bool} (hstep : k.exec answer p = some k') : k'.stack = k.stack := by
  cases p with
  | user => cases hstep
  | spawnAdd m =>
    rw [TaskQueues.exec] at hstep
    split_ifs at hstep
    obtain rfl := Option.some.inj hstep
    rfl
  | readChar =>
    obtain rfl := Option.some.inj hstep
    exact readKeyboard_stack ..
  | exitNotify =>
    obtain rfl := Option.some.inj hstep
    exact notify_stack k
  | yield | readYield | cleanYield | cleanNext | exitSwitch =>
    obtain rfl := Option.some.inj hstep
    exact resume_stack ..
  | spawnAlloc _ | exitDetach | exitAlloc | cleanDestroy =>
    obtain rfl := Option.some.inj hstep
    exact tryLock_stack ..
  | exitLock | cleanLock =>
    obtain rfl := Option.some.inj hstep
    exact lockDead_stack ..
  | readEnter | exitMark | exitRecord | exitUnlock | exitTake _ | exitAdd _ | cleanTest | cleanSleep | cleanUnlock
  | cleanMove | cleanStrayUnlock =>
    obtain rfl := Option.some.inj hstep
    rfl

/-- Without a switch the current thread goes on. -/
theorem exec_crt {answer : Bool} (hstep : k.exec answer p = some k')
    (hstay : k.switches answer p = false) :
    k'.crt = k.crt := by
  cases p with
  | user => cases hstep
  | spawnAdd m =>
    rw [TaskQueues.exec] at hstep
    split_ifs at hstep
    obtain rfl := Option.some.inj hstep
    rfl
  | readChar =>
    obtain rfl := Option.some.inj hstep
    cases answer <;> rfl
  | exitNotify =>
    obtain rfl := Option.some.inj hstep
    exact congrArg Scheduler.crt k.notify_sched
  | yield | readYield | cleanYield | cleanNext | exitSwitch => cases hstay
  | spawnAlloc _ | exitDetach | exitAlloc | cleanDestroy =>
    obtain rfl := Option.some.inj hstep
    cases answer with
    | true => rfl
    | false => cases hstay
  | exitLock | cleanLock =>
    obtain rfl := Option.some.inj hstep
    have hfree : k.deadLock = none :=
      Option.not_isSome_iff_eq_none.mp (by simpa [TaskQueues.switches] using hstay)
    rw [lockDead, hfree]
    rfl
  | readEnter | exitMark | exitRecord | exitUnlock | exitTake _ | exitAdd _ | cleanTest | cleanSleep | cleanUnlock
  | cleanMove | cleanStrayUnlock =>
    obtain rfl := Option.some.inj hstep
    rfl

theorem handle_frame {i : Nat} (rest : List Nat) (hloop : ¬ (k.adding i = none ∧ k.node i = none)) :
    (k.handle i rest).crt = k.crt ∧ (k.handle i rest).stack = k.stack := by
  rw [TaskQueues.handle]
  cases hadding : k.adding i with
  | some n => exact ⟨rfl, rfl⟩
  | none =>
    cases hnode : k.node i with
    | some n => exact ⟨rfl, rfl⟩
    | none => exact absurd ⟨hadding, hnode⟩ hloop

end TaskQueues

namespace TimeSlices

open TaskQueues (Action TaskInv Sound Advances)

variable {k k' : TimeSlices} {q : Queue WaitList → List Nat} {a : Action} {i t n bound depth : Nat}
  {rest : List Nat}

/-! ## The invariant of the task queues -/

/-- A handler is removed from the stack. -/
theorem pop_inv (h : TaskInv k.tasks q) (rest : List Nat) :
    TaskInv { k.tasks with stack := update k.tasks.stack k.crt rest } q :=
    h.congr rfl rfl rfl rfl rfl rfl rfl

theorem schedule_sound (h : TaskInv k.tasks q) (rest : List Nat) : Sound (k.schedule rest).tasks := by
  have hpop := pop_inv h rest
  rw [TimeSlices.schedule]
  split_ifs with hpreempts
  · refine hpop.toSteady.doContextSwitch (List.ne_nil_of_length_pos ?_)
    rw [← h.sleepers.placed.represents.size_eq]
    exact hpreempts.2.1
  · exact ⟨q, hpop.congr rfl rfl rfl rfl rfl rfl rfl⟩

theorem handle_returns (h : k.Returns i) : k.handle i rest = k.schedule rest := by
  rw [TimeSlices.handle, if_pos h.1, if_neg (by simp [h.2.1]), if_pos h.2.2]

theorem handle_loop (h : ¬ k.Woken i) :
    k.handle i rest = { k with tasks := k.tasks.handle i rest } := by
  rw [TimeSlices.handle, if_neg h]

/-- The steps behind the loop of a handler, up to the call of `schedule`. -/
theorem handle_before (rest : List Nat) (hwoken : k.Woken i) (hnot : ¬ k.Returns i) :
    k.handle i rest = { k with
        needReschedule := update k.needReschedule k.crt true, activates :=
        update k.activates i false } ∨
      k.handle i rest = { k with tasks := { k.tasks with enabled := true } } := by
  rw [TimeSlices.handle, if_pos hwoken]
  split_ifs with hactivates henabled
  · exact .inl rfl
  · exact absurd ⟨hwoken, Bool.eq_false_iff.mpr hactivates, henabled⟩ hnot
  · exact .inr rfl

theorem handle_sound (h : TaskInv k.tasks q) (i : Nat) (rest : List Nat) :
    Sound (k.handle i rest).tasks := by
  by_cases hwoken : k.Woken i
  · by_cases hreturns : k.Returns i
    · rw [handle_returns hreturns]
      exact schedule_sound h rest
    · rcases handle_before rest hwoken hreturns with heq | heq
      · exact ⟨q, heq ▸ h⟩
      · rw [heq]
        exact ⟨q, h.congr rfl rfl rfl rfl rfl rfl rfl⟩
  · rw [handle_loop hwoken]
    exact h.handle i rest

theorem step_run (answer : Bool) (hstep : k.step (.run answer) = some k') :
    k.tasks.stack k.crt = [] ∧ k.exec answer = some k' ∨
      ∃ i rest, k.tasks.stack k.crt = i :: rest ∧ k.handle i rest = k' := by
  rw [TimeSlices.step] at hstep
  split_ifs at hstep
  cases hstack : k.tasks.stack k.crt with
  | nil =>
    rw [hstack] at hstep
    exact .inl ⟨rfl, hstep⟩
  | cons i rest =>
    rw [hstack] at hstep
    exact .inr ⟨i, rest, rfl, Option.some.inj hstep⟩

theorem step_sound (h : Sound k.tasks) (hstep : k.step a = some k') : Sound k'.tasks := by
  obtain ⟨q, hq⟩ := h
  cases a with
  | run answer =>
    rcases step_run answer hstep with ⟨-, hexec⟩ | ⟨i, rest, -, rfl⟩
    · obtain ⟨tasks, htasks, rfl⟩ := Option.map_eq_some_iff.mp hexec
      exact hq.exec rfl htasks
    · exact handle_sound hq i rest
  | call f | timer | keyboard =>
    obtain ⟨tasks, htasks, rfl⟩ := Option.map_eq_some_iff.mp hstep
    exact hq.step htasks

/-! ## The place of a ready thread -/

theorem schedule_advances (h : TaskInv k.tasks q) (rest : List Nat) (ht : t ∈ q .ready) :
    Advances t (q .ready) (if k.Preempts then 1 else 0) 0 (k.schedule rest).tasks.sched := by
  rw [TimeSlices.schedule]
  split_ifs
  · obtain ⟨s, hs, hadv⟩ :=
      TaskQueues.advances_doContextSwitch h.sleepers.placed h.sleepers.requeues_free ht
    change Advances t _ 1 0 (TaskQueues.resume _ (k.tasks.sched.doContextSwitch)).sched
    rw [hs]
    exact hadv
  · exact h.stays ht

theorem handle_advances (h : TaskInv k.tasks q) (i : Nat) (rest : List Nat) (ht : t ∈ q .ready) :
    Advances t (q .ready) (if k.Returns i ∧ k.Preempts then 1 else 0) (if (k.tasks.adding i).isSome
      then 1 else 0)
      (k.handle i rest).tasks.sched := by
  by_cases hwoken : k.Woken i
  · rw [hwoken.1, Option.isSome_none, if_neg Bool.false_ne_true]
    by_cases hreturns : k.Returns i
    · rw [handle_returns hreturns]
      simpa [hreturns] using schedule_advances h rest ht
    · rw [if_neg (not_and.mpr fun hr => absurd hr hreturns)]
      rcases handle_before rest hwoken hreturns with heq | heq
      · rw [heq]
        exact h.stays ht
      · rw [heq]
        exact h.stays ht
  · rw [handle_loop hwoken, if_neg (not_and.mpr fun hr => absurd hr.1 hwoken)]
    exact h.handle_advances rest hwoken ht

theorem step_advances (h : TaskInv k.tasks q) (hstep : k.step a = some k') (ht : t ∈ q .ready) :
    Advances t (q .ready) (k.switches a) (k.headInsertions a) k'.tasks.sched := by
  cases a with
  | run answer =>
    rw [switches, headInsertions]
    rcases step_run answer hstep with ⟨hstack, hexec⟩ | ⟨i, rest, hstack, rfl⟩
    · rw [hstack]
      obtain ⟨tasks, htasks, rfl⟩ := Option.map_eq_some_iff.mp hexec
      exact h.exec_advances rfl htasks ht
    · rw [hstack]
      exact handle_advances h i rest ht
  | call f =>
    obtain ⟨tasks, htasks, rfl⟩ := Option.map_eq_some_iff.mp hstep
    rw [TaskQueues.step] at htasks
    split_ifs at htasks
    obtain rfl := Option.some.inj htasks
    exact h.stays ht
  | timer =>
    obtain ⟨tasks, htasks, rfl⟩ := Option.map_eq_some_iff.mp hstep
    rw [TaskQueues.step] at htasks
    split_ifs at htasks
    obtain rfl := Option.some.inj htasks
    exact h.stays ht
  | keyboard =>
    obtain ⟨tasks, htasks, rfl⟩ := Option.map_eq_some_iff.mp hstep
    rw [TaskQueues.step] at htasks
    split_ifs at htasks
    obtain rfl := Option.some.inj htasks
    exact h.keyboard_advances ht

/-- The thread `t` is in `ready_tasks`, behind `n` others. -/
def Waiting (t : Nat) (k : TimeSlices) (n : Nat) : Prop :=
  ∃ q, TaskInv k.tasks q ∧ t ∈ q .ready ∧ (q .ready).idxOf t = n

theorem step_waiting (h : Waiting t k n) (hstep : k.step a = some k') (hne : k'.crt ≠ t) :
    ∃ m, Waiting t k' m ∧ k.switches a + m ≤ k.headInsertions a + n := by
  obtain ⟨q, hq, ht, rfl⟩ := h
  obtain ⟨q', hq'⟩ := step_sound ⟨q, hq⟩ hstep
  rcases step_advances hq hstep ht with hcrt | ⟨q'', hrep, ht', hplace⟩
  · exact absurd hcrt hne
  · obtain heq : q'' .ready = q' .ready :=
      (hrep.holds .ready).unique (hq'.sleepers.placed.represents.holds .ready)
    refine ⟨(q' .ready).idxOf t, ⟨q', hq', heq ▸ ht', rfl⟩, ?_⟩
    rw [heq] at hplace
    omega

/-! ## The slice of the current thread -/

/-- The fields of the threads and the stacks are in order: a thread without mark has not used up its time slice. -/
structure Paced (bound depth : Nat) (k : TimeSlices) : Prop where
  priority : ∀ t, k.priority t ≤ bound ∧ k.priority t < 2 ^ 8
  unmarked : ∀ t, k.needReschedule t = false → k.ticks t = 0 ∨ k.ticks t < k.priority t
  nested : ∀ t, (k.tasks.stack t).length ≤ depth

/-- A bound on the interrupts of the timer that the current thread has been hit by since it was switched to. -/
def used (bound : Nat) (k : TimeSlices) : Nat :=
  if k.needReschedule k.crt then bound + k.depth else k.ticks k.crt

theorem Paced.used_le (h : Paced bound depth k) : k.used bound ≤ bound + depth := by
  have hnested := h.nested k.crt
  have hpriority := (h.priority k.crt).1
  rw [used, TimeSlices.depth]
  split_ifs with hneed
  · omega
  · have hunmarked := h.unmarked k.crt (Bool.eq_false_iff.mpr hneed)
    omega

/-- What a step does to the slice: the ticks are paid by the switches, by the handlers that return without preemption
and by what the current thread has used. -/
def Pays (bound depth : Nat) (k : TimeSlices) (a : Action) (k' : TimeSlices) : Prop :=
  Paced bound depth k' ∧ (0 < (k.tasks.sched.queues.list .ready).size →
    k.timerTicks a + k.used bound ≤ k'.used bound + (bound + depth) * k.switches a + k.unpreempted a)

theorem Paced.endSlice {tasks : TaskQueues} (h : Paced bound depth k)
    (hnested : ∀ t, (tasks.stack t).length ≤ depth) :
    Paced bound depth { k.endSlice with tasks := tasks } := by
  refine ⟨h.priority, fun t ht => ?_, hnested⟩
  by_cases heq : t = k.crt
  · exact .inl (by simp [TimeSlices.endSlice, heq])
  · have hneed : k.needReschedule t = false := by
      simpa [TimeSlices.endSlice, heq] using ht
    simpa [TimeSlices.endSlice, heq] using h.unmarked t hneed

theorem switches_of_nil (answer : Bool) (hstack : k.tasks.stack k.crt = []) :
    k.switches (.run answer) = if k.tasks.switches answer (k.tasks.pc k.crt) = true then 1 else 0 := by
  rw [switches, hstack]

theorem switches_of_cons (answer : Bool) (hstack : k.tasks.stack k.crt = i :: rest) :
    k.switches (.run answer) = if k.Returns i ∧ k.Preempts then 1 else 0 := by
  rw [switches, hstack]

theorem unpreempted_of_cons (answer : Bool) (hstack : k.tasks.stack k.crt = i :: rest) :
    k.unpreempted (.run answer) = if k.Returns i ∧ 0 < k.tasks.preemptCount k.crt then 1 else 0 := by
  rw [unpreempted, hstack]

/-- A step that is not an interrupt of the timer and does not switch. -/
theorem Pays.of_used (h : Paced bound depth k')
    (hused : 0 < (k.tasks.sched.queues.list .ready).size →
      k.used bound ≤ k'.used bound + k.unpreempted a)
    (ha : k.timerTicks a = 0) : Pays bound depth k a k' := by
  refine ⟨h, fun hready => ?_⟩
  have hpaid := hused hready
  omega

theorem Pays.of_switch (h : Paced bound depth k) (h' : Paced bound depth k')
    (hswitch : k.switches a = 1)
    (ha : k.timerTicks a = 0) : Pays bound depth k a k' := by
  refine ⟨h', fun _ => ?_⟩
  have hused := h.used_le
  rw [hswitch]
  omega

theorem Paced.exec {answer : Bool} (h : Paced bound depth k) (hstack : k.tasks.stack k.crt = [])
    (hexec : k.exec answer = some k') : Pays bound depth k (.run answer) k' := by
  obtain ⟨tasks, htasks, rfl⟩ := Option.map_eq_some_iff.mp hexec
  have hsame := TaskQueues.exec_stack htasks
  have hnested : ∀ t, (tasks.stack t).length ≤ depth := fun t => hsame ▸ h.nested t
  by_cases hswitch : k.tasks.switches answer (k.tasks.pc k.crt) = true
  · rw [if_pos hswitch]
    exact .of_switch h (h.endSlice hnested) ((switches_of_nil answer hstack).trans (if_pos hswitch)) rfl
  · have hcrt := TaskQueues.exec_crt htasks (Bool.eq_false_iff.mpr hswitch)
    rw [if_neg hswitch]
    refine .of_used ⟨h.priority, h.unmarked, hnested⟩ ?_ rfl
    have hused : ({ k with tasks := tasks } : TimeSlices).used bound = k.used bound := by
      rw [used, used, TimeSlices.depth, TimeSlices.depth, TimeSlices.crt, TimeSlices.crt, hcrt, hsame]
    rw [hused]
    exact fun _ => Nat.le_add_right ..

theorem nested_pop (h : Paced bound depth k) (hstack : k.tasks.stack k.crt = i :: rest) (t : Nat) :
    (update k.tasks.stack k.crt rest t).length ≤ depth := by
  have hold := h.nested t
  by_cases ht : t = k.crt
  · subst ht
    rw [hstack, List.length_cons] at hold
    rw [update_self]
    omega
  · rwa [update_of_ne ht]

/-- `schedule` switches away from a thread that is marked, unless preemption is disabled, and leaves the
others alone. -/
theorem Paced.schedule {answer : Bool} (h : Paced bound depth k)
    (hstack : k.tasks.stack k.crt = i :: rest)
    (hreturns : k.Returns i) : Pays bound depth k (.run answer) (k.schedule rest) := by
  have hnested := nested_pop h hstack
  by_cases hpreempts : k.Preempts
  · rw [TimeSlices.schedule, if_pos hpreempts]
    refine .of_switch h (h.endSlice ?_)
      ((switches_of_cons answer hstack).trans (if_pos ⟨hreturns, hpreempts⟩)) rfl
    intro t
    rw [TaskQueues.resume_stack]
    exact hnested t
  · rw [TimeSlices.schedule, if_neg hpreempts]
    refine .of_used ⟨h.priority, h.unmarked, hnested⟩ (fun hready => ?_) rfl
    change _ ≤ (if k.needReschedule k.crt = true
      then bound + (update k.tasks.stack k.crt rest k.crt).length
      else k.ticks k.crt) + _
    rw [unpreempted_of_cons answer hstack, used, TimeSlices.depth, hstack, update_self,
      List.length_cons]
    split_ifs with hneed hheld
    · omega
    · refine absurd ⟨?_, hready, hneed⟩ hpreempts
      by_contra hzero
      exact hheld ⟨hreturns, by omega⟩
    · omega
    · omega

theorem Paced.mark (h : Paced bound depth k) (activates : Nat → Bool) :
    Paced bound depth { k with
      needReschedule := update k.needReschedule k.crt true, activates := activates } := by
  refine ⟨h.priority, fun t ht => h.unmarked t ?_, h.nested⟩
  by_cases heq : t = k.crt
  · simp [heq] at ht
  · simpa [heq] using ht

theorem Paced.used_le_mark (h : Paced bound depth k) (activates : Nat → Bool) : k.used bound ≤
    ({ k with needReschedule := update k.needReschedule k.crt true, activates := activates } : TimeSlices).used bound := by
  have hmark : ({ k with
    needReschedule := update k.needReschedule k.crt true, activates := activates } :
      TimeSlices).used bound = bound + k.depth := if_pos (update_self ..)
  rw [hmark, used]
  split_ifs with hneed
  · exact Nat.le_refl _
  · have hunmarked := h.unmarked k.crt (Bool.eq_false_iff.mpr hneed)
    have hpriority := (h.priority k.crt).1
    omega

theorem Paced.handle {answer : Bool} (h : Paced bound depth k)
    (hstack : k.tasks.stack k.crt = i :: rest) :
    Pays bound depth k (.run answer) (k.handle i rest) := by
  by_cases hwoken : k.Woken i
  · by_cases hreturns : k.Returns i
    · rw [handle_returns hreturns]
      exact h.schedule hstack hreturns
    · rcases handle_before rest hwoken hreturns with heq | heq
      · rw [heq]
        exact .of_used (h.mark _) (fun _ => Nat.le_add_right_of_le (h.used_le_mark _)) rfl
      · rw [heq]
        exact .of_used ⟨h.priority, h.unmarked, h.nested⟩ (fun _ => Nat.le_add_right ..) rfl
  · obtain ⟨hcrt, hsame⟩ := TaskQueues.handle_frame rest hwoken
    rw [handle_loop hwoken]
    refine .of_used ⟨h.priority, h.unmarked, fun t => ?_⟩ ?_ rfl
    · change ((k.tasks.handle i rest).stack t).length ≤ depth
      rw [hsame]
      exact h.nested t
    · have hused : ({ k with tasks := k.tasks.handle i rest } : TimeSlices).used bound =
        k.used bound := by
        rw [used, used, TimeSlices.depth, TimeSlices.depth, TimeSlices.crt, TimeSlices.crt, hcrt, hsame]
      rw [hused]
      exact fun _ => Nat.le_add_right ..

theorem nested_push (h : Paced bound depth k) (hguard : k.depth < depth) (t : Nat) :
    (update k.tasks.stack k.crt (k.tasks.handlers :: k.tasks.stack k.crt) t).length ≤ depth := by
  by_cases ht : t = k.crt
  · subst ht
    rw [update_self, List.length_cons]
    exact hguard
  · rw [update_of_ne ht]
    exact h.nested t

theorem timerCallback_need (k : TimeSlices) : k.timerCallback.needReschedule k.crt =
    (decide (k.priority k.crt ≤ (k.ticks k.crt + 1) % 2 ^ 32) || k.needReschedule k.crt) := by
  rw [timerCallback]
  split_ifs with hend
  · rw [decide_eq_true hend, Bool.true_or]
    exact update_self ..
  · rw [decide_eq_false hend, Bool.false_or]

theorem timerCallback_ticks (k : TimeSlices) :
    k.timerCallback.ticks k.crt = (k.ticks k.crt + 1) % 2 ^ 32 :=
  update_self ..

theorem timerCallback_of_ne (k : TimeSlices) (ht : t ≠ k.crt) :
    k.timerCallback.needReschedule t = k.needReschedule t ∧ k.timerCallback.ticks t = k.ticks t := by
  rw [timerCallback]
  split_ifs <;> simp [ht]

/-- An interrupt of the timer is paid by the thread that it hits. -/
theorem Paced.timer (h : Paced bound depth k) (hguard : k.depth < depth) :
    Pays bound depth k .timer { k.timerCallback with tasks := k.tasks.timer } := by
  have hneed := k.timerCallback_need
  have hticks := k.timerCallback_ticks
  refine ⟨⟨h.priority, fun t ht => ?_, nested_push h hguard⟩, fun _ => ?_⟩
  · change k.timerCallback.needReschedule t = false at ht
    change k.timerCallback.ticks t = 0 ∨ k.timerCallback.ticks t < k.priority t
    by_cases heq : t = k.crt
    · subst heq
      rw [hneed, Bool.or_eq_false_iff, decide_eq_false_iff_not, ← hticks] at ht
      exact .inr (Nat.not_le.mp ht.1)
    · obtain ⟨hsame, hsame'⟩ := k.timerCallback_of_ne heq
      rw [hsame']
      exact h.unmarked t (hsame ▸ ht)
  · have hpriority := h.priority k.crt
    have hunmarked := h.unmarked k.crt
    change 1 + k.used bound ≤ (if k.timerCallback.needReschedule k.crt = true then
      bound + (update k.tasks.stack k.crt (k.tasks.handlers :: k.tasks.stack k.crt) k.crt).length
      else k.timerCallback.ticks k.crt) + _ + _
    rw [hneed, hticks, update_self, List.length_cons, used, TimeSlices.depth]
    cases hmarked : k.needReschedule k.crt with
    | true =>
      rw [Bool.or_true, if_pos rfl, if_pos rfl]
      omega
    | false =>
      have hless := hunmarked hmarked
      rw [Bool.or_false, if_neg Bool.false_ne_true]
      by_cases hend : k.priority k.crt ≤ (k.ticks k.crt + 1) % 2 ^ 32
      · rw [if_pos (decide_eq_true hend)]
        omega
      · rw [if_neg (decide_eq_true_iff.not.mpr hend)]
        omega

theorem Paced.keyboard (h : Paced bound depth k) (hguard : k.depth < depth) (activates : Nat → Bool) :
    Pays bound depth k .keyboard { k with tasks := k.tasks.keyboard, activates := activates } := by
  refine .of_used ⟨h.priority, h.unmarked, nested_push h hguard⟩ (fun _ => ?_) rfl
  change k.used bound ≤ (if k.needReschedule k.crt = true then
    bound + (update k.tasks.stack k.crt (k.tasks.handlers :: k.tasks.stack k.crt) k.crt).length
    else k.ticks k.crt) + _
  rw [update_self, List.length_cons, used, TimeSlices.depth]
  split_ifs <;> omega

theorem Paced.step (h : Paced bound depth k) (hguard : NestsBelow depth k a)
    (hstep : k.step a = some k') :
    Pays bound depth k a k' := by
  cases a with
  | run answer =>
    rcases step_run answer hstep with ⟨hstack, hexec⟩ | ⟨i, rest, hstack, rfl⟩
    · exact h.exec hstack hexec
    · exact h.handle hstack
  | call f =>
    obtain ⟨tasks, htasks, rfl⟩ := Option.map_eq_some_iff.mp hstep
    rw [TaskQueues.step] at htasks
    split_ifs at htasks
    obtain rfl := Option.some.inj htasks
    exact .of_used ⟨h.priority, h.unmarked, h.nested⟩ (fun _ => Nat.le_add_right ..) rfl
  | timer =>
    obtain ⟨tasks, htasks, rfl⟩ := Option.map_eq_some_iff.mp hstep
    rw [TaskQueues.step] at htasks
    split_ifs at htasks
    obtain rfl := Option.some.inj htasks
    exact h.timer hguard
  | keyboard =>
    obtain ⟨tasks, htasks, rfl⟩ := Option.map_eq_some_iff.mp hstep
    rw [TaskQueues.step] at htasks
    split_ifs at htasks
    obtain rfl := Option.some.inj htasks
    exact h.keyboard hguard _

/-! ## Runs -/

section Runs

variable {priority : Nat → Nat} {inherited : Nat → Bool} {as bs : List Action}

theorem run_sound (h : Run (Steps step) (start priority inherited) as k) : Sound k.tasks :=
  @Run.invariant _ _ _ _ _ _ (fun k => Sound k.tasks) step_sound h TaskQueues.start_sound

theorem start_paced (hbound : ∀ t, priority t % 2 ^ 8 ≤ bound) :
    Paced bound depth (start priority inherited) := by
  refine ⟨fun t => ⟨hbound t, Nat.mod_lt _ (by decide)⟩, fun t _ => .inl rfl, fun t => Nat.zero_le _⟩

theorem run_paced (hbound : ∀ t, priority t % 2 ^ 8 ≤ bound)
    (h : Run (Guarded (NestsBelow depth) (Steps step)) (start priority inherited) as k) :
    Paced bound depth k :=
  h.invariant (fun hpaced hstep => (hpaced.step hstep.1 hstep.2).1) (start_paced hbound)

theorem waiting_of_mem (hsound : Sound k.tasks) (hq : k.tasks.sched.queues.Represents q)
    (ht : t ∈ q .ready) :
    Waiting t k ((q .ready).idxOf t) := by
  obtain ⟨q', hq'⟩ := hsound
  have heq := (hq.holds .ready).unique (hq'.sleepers.placed.represents.holds .ready)
  exact ⟨q', hq', heq ▸ ht, by rw [heq]⟩

theorem Waiting.ready_pos (h : Waiting t k n) : 0 < (k.tasks.sched.queues.list .ready).size := by
  obtain ⟨q, hq, ht, -⟩ := h
  rw [hq.sleepers.placed.represents.size_eq]
  exact List.length_pos_of_mem ht

/-- As long as a ready thread does not run, it is moved forward by every switch, and back only by the threads that
are inserted at the head. -/
theorem switches_of_avoids (h : Run (fun s a s' => Steps step s a s' ∧ ¬ s'.crt = t) k bs k')
    (hwaits : Waiting t k n) :
    total step switches k bs ≤ total step headInsertions k bs + n := by
  obtain ⟨m, -, hle⟩ := h.amortised (f := step) (c := switches) (d := headInsertions)
    (p := Waiting t) And.left (fun hpot hstep => step_waiting hpot hstep.1 hstep.2) hwaits
  omega

/-- A ready thread runs, at the latest, when there were more switches than threads in front of it and insertions at the
head. -/
theorem ready_thread_runs (has : Run (Steps step) (start priority inherited) as k)
    (hq : k.tasks.sched.queues.Represents q) (ht : t ∈ q .ready) (hbs : Run (Steps step) k bs k')
    (hlong : (q .ready).idxOf t + total step headInsertions k bs < total step switches k bs) :
    ∃ cs ds l, bs = cs ++ ds ∧ Run (Steps step) k cs l ∧ Run (Steps step) l ds k' ∧ l.crt = t := by
  rcases hbs.visits_or_avoids (fun l => l.crt = t) with hvisit | ⟨-, havoid⟩
  · exact hvisit
  · have hle := switches_of_avoids havoid (waiting_of_mem (run_sound has) hq ht)
    omega

/-- A ready thread that does not run is paced by the threads that do. -/
def Slack (t bound depth : Nat) (k : TimeSlices) (n : Nat) : Prop :=
  (∃ m, Waiting t k m) ∧ Paced bound depth k ∧ n + k.used bound = bound + depth

theorem Slack.step (h : Slack t bound depth k n) (hguard : NestsBelow depth k a)
    (hstep : k.step a = some k')
    (hne : k'.crt ≠ t) :
    ∃ m, Slack t bound depth k' m ∧
      k.timerTicks a + m ≤ (bound + depth) * k.switches a + k.unpreempted a + n := by
  obtain ⟨⟨place, hwaits⟩, hpaced, hslack⟩ := h
  obtain ⟨place', hwaits', -⟩ := step_waiting hwaits hstep hne
  obtain ⟨hpaced', hpays⟩ := hpaced.step hguard hstep
  have hcost := hpays hwaits.ready_pos
  have hused := hpaced'.used_le
  exact ⟨bound + depth - k'.used bound, ⟨⟨place', hwaits'⟩, hpaced', by omega⟩, by omega⟩

theorem ticks_of_avoids
    (h : Run (fun s a s' => Guarded (NestsBelow depth) (Steps step) s a s' ∧ ¬ s'.crt = t) k bs k')
    (hwaits : Waiting t k n) (hpaced : Paced bound depth k) :
    total step timerTicks k bs ≤ (bound + depth) * total step switches k bs +
      total step unpreempted k bs +
      (bound + depth) := by
  have hslack : Slack t bound depth k (bound + depth - k.used bound) :=
    ⟨⟨n, hwaits⟩, hpaced, Nat.sub_add_cancel hpaced.used_le⟩
  obtain ⟨m, -, hle⟩ := h.amortised (f := step) (c := timerTicks)
    (d := fun s a => (bound + depth) * s.switches a + s.unpreempted a) (p := Slack t bound depth)
    (fun hstep => hstep.1.2) (fun hpot hstep => hpot.step hstep.1.1 hstep.1.2 hstep.2) hslack
  rw [total_add, total_mul] at hle
  omega

/-- If at most `depth` handlers are nested, each thread in front of a ready thread takes at most its priority and
`depth` interrupts of the timer, apart from those that return while preemption is disabled. -/
theorem ready_thread_runs_in_time (hbound : ∀ t, priority t % 2 ^ 8 ≤ bound)
    (has : Run (Guarded (NestsBelow depth) (Steps step)) (start priority inherited) as k)
    (hq : k.tasks.sched.queues.Represents q) (ht : t ∈ q .ready)
    (hbs : Run (Guarded (NestsBelow depth) (Steps step)) k bs k')
    (hlong : (bound + depth) * ((q .ready).idxOf t + total step headInsertions k bs + 1) +
      total step unpreempted k bs <
      total step timerTicks k bs) :
    ∃ cs ds l, bs = cs ++ ds ∧ Run (Steps step) k cs l ∧ Run (Steps step) l ds k' ∧ l.crt = t := by
  have hwaits := waiting_of_mem (run_sound has.unguard) hq ht
  rcases hbs.visits_or_avoids (fun l => l.crt = t) with ⟨cs, ds, l, heq, hcs, hds, hl⟩ | ⟨-, havoid⟩
  · exact ⟨cs, ds, l, heq, hcs.unguard, hds.unguard, hl⟩
  · have hswitches := switches_of_avoids (havoid.mono fun hstep => ⟨hstep.1.2, hstep.2⟩) hwaits
    have hticks := ticks_of_avoids havoid hwaits (run_paced hbound has)
    have hmul := Nat.mul_le_mul_left (bound + depth) hswitches
    rw [Nat.mul_add] at hmul hlong
    rw [Nat.mul_add] at hlong
    omega

instance (depth : Nat) (k : TimeSlices) : (a : Action) → Decidable (NestsBelow depth k a)
  | .timer => inferInstanceAs (Decidable (k.depth < depth))
  | .keyboard => inferInstanceAs (Decidable (k.depth < depth))
  | .call _ => isTrue trivial
  | .run _ => isTrue trivial

/-- All threads have the priority 1. -/
def startShort : TimeSlices := start (fun _ => 1) fun _ => false

/-- The timer interrupts the current thread `n` times. -/
def ticking (n : Nat) : List Action := (List.replicate n [Action.timer, .run true, .run true]).flatten

theorem startShort_represents :
    startShort.tasks.sched.queues.Represents (update (fun _ => []) .ready [TaskQueues.clean, 2]) :=
  TaskQueues.start_sleepers.placed.represents

theorem ticking_runs : ∃ k, Run (Guarded (NestsBelow 1) (Steps step)) startShort (ticking 5) k := by
  have hcheck : (execute (permit (fun k a => decide (NestsBelow 1 k a)) step) startShort
    (ticking 5)).isSome = true := by
    decide +kernel
  obtain ⟨k, hk⟩ := Option.isSome_iff_exists.mp hcheck
  exact ⟨k, run_of_execute_permit of_decide_eq_true hk⟩

theorem second_thread_runs : ∃ cs ds l k, ticking 5 = cs ++ ds ∧ Run (Steps step) startShort cs l ∧
    Run (Steps step) l ds k ∧ l.crt = 2 := by
  obtain ⟨k, hk⟩ := ticking_runs
  obtain ⟨cs, ds, l, hrun⟩ := ready_thread_runs (t := 2) (.nil startShort) startShort_represents
    (by decide) hk.unguard
    (by decide +kernel)
  exact ⟨cs, ds, l, k, hrun⟩

theorem second_thread_runs_in_time :
    ∃ cs ds l k, ticking 5 = cs ++ ds ∧ Run (Steps step) startShort cs l ∧
    Run (Steps step) l ds k ∧ l.crt = 2 := by
  obtain ⟨k, hk⟩ := ticking_runs
  have hbound : ∀ t : Nat, (fun _ => 1) t % 2 ^ 8 ≤ 1 := fun _ => show 1 % 2 ^ 8 ≤ 1 by decide
  obtain ⟨cs, ds, l, hrun⟩ := ready_thread_runs_in_time (t := 2) hbound
    (.nil startShort) startShort_represents
    (by decide) hk (by decide +kernel)
  exact ⟨cs, ds, l, k, hrun⟩

end Runs

end TimeSlices

end LuckOS
