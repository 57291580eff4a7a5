import LuckOS.LinkedList

/-!
# The scheduler of `task/scheduler.c`

The node of a thread is linked into `ready_tasks` and into the waiting lists of the
synchronisation primitives, all of which share its two link fields. A thread is named by
its node. Sections with interrupts disabled are single functions. `Placed` says where the
nodes are, depending on the status of the threads; every function of the scheduler keeps it.
-/

set_option linter.unusedSectionVars false

namespace LuckOS

open Function Queues

universe u v

/-- `task_status`. -/
inductive TaskStatus where
  | running
  | ready
  | blocked
  | waiting
  | hanging
  | dead
  deriving DecidableEq

/-- `ready_tasks` and the waiting lists. -/
inductive Queue (ω : Type u) where
  | ready
  | waiting (w : ω)
  deriving DecidableEq

/-- The state of the scheduler. A thread without status has not been created yet. The main
thread is the idle thread. -/
structure Scheduler (ω : Type u) (τ : Type v) where
  queues : Queues (Queue ω) τ
  status : τ → Option TaskStatus
  crt : τ
  main : τ

namespace Scheduler

variable {ω : Type u} {τ : Type v} [DecidableEq ω] [DecidableEq τ]

/-- The current thread goes back to the end of `ready_tasks`, unless it is the main thread. -/
def Requeues (s : Scheduler ω τ) : Prop := s.status s.crt = some .running ∧ s.crt ≠ s.main

instance (s : Scheduler ω τ) : Decidable s.Requeues := inferInstanceAs (Decidable (_ ∧ _))

/-- The part of `do_context_switch` behind the choice of the next thread. -/
def switchTo (s : Scheduler ω τ) (head : τ) : Scheduler ω τ :=
  let queues := s.queues.remove .ready head
  let (status, queues) := if s.Requeues then (update s.status s.crt (some .ready), queues.append .ready s.crt)
    else (s.status, queues)
  { s with queues := queues, status := update status head (some .running), crt := head }

/-- `do_context_switch`. With no ready task it follows a null pointer. -/
def doContextSwitch (s : Scheduler ω τ) : Option (Scheduler ω τ) := (s.queues.list .ready).head.map s.switchTo

/-- `schedule`, for a thread that is to be rescheduled. -/
def schedule (s : Scheduler ω τ) : Option (Scheduler ω τ) :=
  if 0 < (s.queues.list .ready).size then s.doContextSwitch else some s

/-- The idle thread is queued if there is no other one. -/
def queueMain (s : Scheduler ω τ) : Scheduler ω τ :=
  if (s.queues.list .ready).size = 0 then { s with queues := s.queues.append .ready s.main } else s

/-- `schedule_thread_yield`. -/
def threadYield (s : Scheduler ω τ) : Option (Scheduler ω τ) := s.queueMain.doContextSwitch

/-- `add_thread_node_to_schedule`. -/
def addThreadNode (s : Scheduler ω τ) (node : τ) : Scheduler ω τ :=
  { s with
    status := if s.status node = some .dead then s.status else update s.status node (some .ready)
    queues := s.queues.append .ready node }

/-- `add_thread_node_to_schedule_head`. -/
def addThreadNodeHead (s : Scheduler ω τ) (node : τ) : Scheduler ω τ :=
  { s with status := update s.status node (some .ready), queues := s.queues.insertToHead .ready node }

/-- `schedule_mark_thread_block`. -/
def markThreadBlock (s : Scheduler ω τ) : Scheduler ω τ := { s with status := update s.status s.crt (some .waiting) }

/-- The first statement of `schedule_thread_exit` behind the detaching. -/
def markThreadDead (s : Scheduler ω τ) : Scheduler ω τ := { s with status := update s.status s.crt (some .dead) }

/-- The current thread is linked into a waiting list. -/
def appendWaiting (s : Scheduler ω τ) (w : ω) : Scheduler ω τ := { s with queues := s.queues.append (.waiting w) s.crt }

/-- A node is unlinked from a waiting list. -/
def removeWaiting (s : Scheduler ω τ) (w : ω) (node : τ) : Scheduler ω τ :=
  { s with queues := s.queues.remove (.waiting w) node }

/-- Apart from the main thread, only the current thread is running, and the ready threads
are those of `ready_tasks`. -/
structure Placed (s : Scheduler ω τ) (q : Queue ω → List τ) : Prop where
  represents : s.queues.Represents q
  running : ∀ t, t ≠ s.main → s.status t = some .running → t = s.crt
  ready : ∀ t, t ≠ s.main → s.status t = some .ready → t ∈ q .ready
  queued : ∀ t, t ≠ s.main → t ∈ q .ready → s.status t = some .ready
  mainWaits : ∀ w, s.main ∉ q (.waiting w)
  mainRuns : s.main = s.crt → s.main ∉ q .ready

variable {s t : Scheduler ω τ} {q : Queue ω → List τ} {n : τ} {w : ω} {xs : List τ}

theorem Placed.head?_ready (h : s.Placed q) : (s.queues.list .ready).head = (q .ready).head? := h.represents.head_eq _

theorem Placed.crt_not_ready (h : s.Placed q) (hrun : s.Requeues) : s.crt ∉ q .ready := by
  intro hmem
  have hready := h.queued s.crt hrun.2 hmem
  rw [hrun.1] at hready
  cases hready

/-- What is left in `ready_tasks` behind a switch. -/
def requeued (s : Scheduler ω τ) (xs : List τ) : List τ := if s.Requeues then xs ++ [s.crt] else xs

theorem mem_requeued {m : τ} : m ∈ s.requeued xs ↔ m ∈ xs ∨ s.Requeues ∧ m = s.crt := by
  rw [requeued]
  split_ifs with hrun <;> simp [hrun]

theorem switchTo_queues (h : s.Placed q) (hq : q .ready = n :: xs) (hfree : s.Requeues → ∀ w, s.crt ∉ q (.waiting w)) :
    (s.switchTo n).queues.Represents (update q .ready (s.requeued xs)) := by
  have hremove := h.represents.remove (show q .ready = [] ++ n :: xs from hq)
  rw [switchTo, requeued]
  split_ifs with hrun
  · have hnot := h.crt_not_ready hrun
    rw [hq] at hnot
    have hcrt : ∀ j, s.crt ∉ update q .ready ([] ++ xs) j := by
      intro j
      cases j with
      | ready =>
        rw [update_self]
        exact fun hmem => hnot (List.mem_cons_of_mem _ hmem)
      | waiting w =>
        rw [update_of_ne (by simp)]
        exact hfree hrun w
    have happend := hremove.append (i := .ready) hcrt
    rw [update_self, update_idem] at happend
    exact happend
  · exact hremove

theorem switchTo_status (s : Scheduler ω τ) (n : τ) : (s.switchTo n).status =
    update (if s.Requeues then update s.status s.crt (some .ready) else s.status) n (some .running) := by
  rw [switchTo]
  split_ifs <;> rfl

theorem switchTo_crt (s : Scheduler ω τ) (n : τ) : (s.switchTo n).crt = n := by
  rw [switchTo]

theorem switchTo_main (s : Scheduler ω τ) (n : τ) : (s.switchTo n).main = s.main := by
  rw [switchTo]

/-- The status of a thread that is not switched to changes only if it is sent back. -/
theorem switchTo_status_of_ne {m : τ} (hne : m ≠ n) : (s.switchTo n).status m =
    if s.Requeues ∧ m = s.crt then some .ready else s.status m := by
  rw [switchTo_status, update_of_ne hne]
  by_cases hrun : s.Requeues <;> by_cases hm : m = s.crt <;> simp [hrun, hm]

theorem Placed.switchTo (h : s.Placed q) (hq : q .ready = n :: xs)
    (hfree : s.Requeues → ∀ w, s.crt ∉ q (.waiting w)) : (s.switchTo n).Placed (update q .ready (s.requeued xs)) := by
  have hnodup := (h.represents.holds .ready).nodup
  rw [hq, List.nodup_cons] at hnodup
  have hmain := s.switchTo_main n
  refine ⟨switchTo_queues h hq hfree, ?_, ?_, ?_, ?_, ?_⟩
  · intro m hm hrun
    rw [switchTo_crt]
    by_contra hne
    rw [switchTo_status_of_ne hne] at hrun
    split_ifs at hrun with hcrt
    · cases hrun
    · have heq := h.running m (hmain ▸ hm) hrun
      subst heq
      exact hcrt ⟨⟨hrun, hmain ▸ hm⟩, rfl⟩
  · intro m hm hready
    rw [update_self, mem_requeued]
    have hne : m ≠ n := by
      rintro rfl
      rw [switchTo_status, update_self] at hready
      cases hready
    rw [switchTo_status_of_ne hne] at hready
    split_ifs at hready with hcrt
    · exact .inr hcrt
    · have hmem := h.ready m (hmain ▸ hm) hready
      rw [hq] at hmem
      exact .inl ((List.mem_cons.mp hmem).resolve_left hne)
  · intro m hm hmem
    rw [update_self, mem_requeued] at hmem
    have hne : m ≠ n := by
      rintro rfl
      rcases hmem with hmem | ⟨hrun, heq⟩
      · exact hnodup.1 hmem
      · exact h.crt_not_ready hrun (by rw [← heq, hq]; exact List.mem_cons_self ..)
    rw [switchTo_status_of_ne hne]
    split_ifs with hcrt
    · rfl
    · refine h.queued m (hmain ▸ hm) ?_
      rw [hq]
      exact List.mem_cons_of_mem _ (hmem.resolve_right hcrt)
  · intro w
    rw [update_of_ne (by simp), hmain]
    exact h.mainWaits w
  · intro heq
    rw [hmain, switchTo_crt] at heq
    rw [update_self, mem_requeued, hmain]
    rintro (hmem | ⟨hrun, hcrt⟩)
    · exact hnodup.1 (heq ▸ hmem)
    · exact hrun.2 hcrt.symm

/-- What a switch changes. -/
structure Switched (s : Scheduler ω τ) (q : Queue ω → List τ) (t : Scheduler ω τ) (q' : Queue ω → List τ) : Prop where
  placed : t.Placed q'
  waits : ∀ w, q' (.waiting w) = q (.waiting w)
  others : ∀ m, m ≠ t.crt → t.status m = if s.Requeues ∧ m = s.crt then some .ready else s.status m
  next : t.status t.crt = some .running
  chosen : t.crt ≠ s.main → s.status t.crt = some .ready
  main : t.main = s.main

/-- A switch leaves waiting and dead threads alone, and makes none. -/
theorem Switched.status_iff {q' : Queue ω → List τ} {x : Option TaskStatus} (h : s.Switched q t q') (hn : n ≠ s.main)
    (hrun : x ≠ some .running) (hready : x ≠ some .ready) : t.status n = x ↔ s.status n = x := by
  by_cases hcrt : n = t.crt
  · have hold := h.chosen (hcrt ▸ hn)
    rw [hcrt, h.next, hold]
    exact iff_of_false hrun.symm hready.symm
  · rw [h.others _ hcrt]
    split_ifs with hback
    · rw [hback.2, hback.1.1]
      exact iff_of_false hready.symm hrun.symm
    · rfl

theorem Switched.status_eq {q' : Queue ω → List τ} {x : TaskStatus} (h : s.Switched q t q') (hn : n ≠ s.main)
    (hx : s.status n = some x) (hrun : x ≠ .running) (hready : x ≠ .ready) : t.status n = some x :=
  (h.status_iff hn (by simpa using hrun) (by simpa using hready)).mpr hx

theorem Placed.doContextSwitch (h : s.Placed q) (hfree : s.Requeues → ∀ w, s.crt ∉ q (.waiting w))
    (hne : q .ready ≠ []) : ∃ t q', s.doContextSwitch = some t ∧ s.Switched q t q' := by
  obtain ⟨n, xs, hq⟩ := List.exists_cons_of_ne_nil hne
  refine ⟨s.switchTo n, update q .ready (s.requeued xs), ?_, h.switchTo hq hfree, ?_, ?_, ?_, ?_, s.switchTo_main n⟩
  · rw [Scheduler.doContextSwitch, h.head?_ready, hq]
    rfl
  · intro w
    rw [update_of_ne (by simp)]
  · intro m hm
    rw [switchTo_crt] at hm
    exact switchTo_status_of_ne hm
  · rw [switchTo_crt, switchTo_status, update_self]
  · intro hmain
    rw [switchTo_crt] at hmain ⊢
    exact h.queued n hmain (by simp [hq])

/-- `schedule` switches to another thread if there is one. -/
theorem Placed.schedule (h : s.Placed q) (hfree : s.Requeues → ∀ w, s.crt ∉ q (.waiting w)) :
    s.schedule = some s ∨ ∃ t q', s.schedule = some t ∧ s.Switched q t q' := by
  rw [Scheduler.schedule, h.represents.size_eq]
  split_ifs with hpos
  · exact .inr (h.doContextSwitch hfree (List.ne_nil_of_length_pos hpos))
  · exact .inl rfl

theorem Placed.queueMain (h : s.Placed q) (hcrt : s.crt ≠ s.main) :
    ∃ q', s.queueMain.Placed q' ∧ (∀ w, q' (.waiting w) = q (.waiting w)) ∧ q' .ready ≠ [] := by
  rw [Scheduler.queueMain, h.represents.size_eq]
  split_ifs with hzero
  · have hempty : q .ready = [] := List.length_eq_zero_iff.mp hzero
    have hfresh : ∀ j, s.main ∉ q j := by
      intro j
      cases j with
      | ready => simp [hempty]
      | waiting w => exact h.mainWaits w
    refine ⟨update q .ready [s.main], ⟨?_, h.running, ?_, ?_, ?_, fun heq => absurd heq.symm hcrt⟩, ?_, by simp⟩
    · have happend := h.represents.append (i := .ready) hfresh
      rwa [hempty] at happend
    · intro m hm hready
      have hmem := h.ready m hm hready
      rw [hempty] at hmem
      cases hmem
    · intro m hm hmem
      rw [update_self, List.mem_singleton] at hmem
      exact absurd hmem hm
    · intro w
      rw [update_of_ne (by simp)]
      exact h.mainWaits w
    · intro w
      rw [update_of_ne (by simp)]
  · exact ⟨q, h, fun _ => rfl, fun heq => hzero (by rw [heq]; rfl)⟩

theorem queueMain_status (s : Scheduler ω τ) : s.queueMain.status = s.status := by
  rw [Scheduler.queueMain]
  split_ifs <;> rfl

theorem queueMain_crt (s : Scheduler ω τ) : s.queueMain.crt = s.crt := by
  rw [Scheduler.queueMain]
  split_ifs <;> rfl

theorem queueMain_main (s : Scheduler ω τ) : s.queueMain.main = s.main := by
  rw [Scheduler.queueMain]
  split_ifs <;> rfl

theorem requeues_queueMain : s.queueMain.Requeues ↔ s.Requeues := by
  rw [Requeues, Requeues, queueMain_status, queueMain_crt, queueMain_main]

/-- `schedule_thread_yield` always switches. -/
theorem Placed.threadYield (h : s.Placed q) (hcrt : s.crt ≠ s.main)
    (hfree : s.Requeues → ∀ w, s.crt ∉ q (.waiting w)) : ∃ t q', s.threadYield = some t ∧ s.Switched q t q' := by
  obtain ⟨q', hplaced, hwaits, hne⟩ := h.queueMain hcrt
  have hfree' : s.queueMain.Requeues → ∀ w, s.queueMain.crt ∉ q' (.waiting w) := by
    intro hrun w
    rw [queueMain_crt, hwaits]
    exact hfree (requeues_queueMain.mp hrun) w
  obtain ⟨t, q'', hswitch, hs⟩ := hplaced.doContextSwitch hfree' hne
  refine ⟨t, q'', hswitch, hs.placed, fun w => (hs.waits w).trans (hwaits w), ?_, hs.next, ?_, hs.main.trans s.queueMain_main⟩
  · intro m hm
    rw [hs.others m hm, queueMain_crt, queueMain_status]
    exact if_congr (and_congr requeues_queueMain Iff.rfl) rfl rfl
  · intro hmain
    rw [← queueMain_status]
    exact hs.chosen (by rwa [queueMain_main])

/-- A thread is linked into `ready_tasks` and made ready. -/
theorem Placed.makeReady {queues : Queues (Queue ω) τ} (h : s.Placed q) (hmain : n ≠ s.main)
    (hrep : queues.Represents (update q .ready xs)) (hmem : ∀ m, m ∈ xs ↔ m = n ∨ m ∈ q .ready) :
    ({ s with queues := queues, status := update s.status n (some .ready) } : Scheduler ω τ).Placed
      (update q .ready xs) := by
  refine ⟨hrep, ?_, ?_, ?_, ?_, ?_⟩
  · intro m hm hrun
    by_cases heq : m = n
    · subst heq
      simp at hrun
    · exact h.running m hm (by simpa [heq] using hrun)
  · intro m hm hready
    rw [update_self, hmem]
    by_cases heq : m = n
    · exact .inl heq
    · exact .inr (h.ready m hm (by simpa [heq] using hready))
  · intro m hm hready
    rw [update_self, hmem] at hready
    by_cases heq : m = n
    · simp [heq]
    · simpa [heq] using h.queued m hm (hready.resolve_left heq)
  · intro w
    rw [update_of_ne (by simp)]
    exact h.mainWaits w
  · intro heq
    rw [update_self, hmem]
    rintro (hn | hready)
    · exact hmain hn.symm
    · exact h.mainRuns heq hready

theorem Placed.addThreadNode (h : s.Placed q) (hfree : ∀ j, n ∉ q j) (hmain : n ≠ s.main)
    (hdead : s.status n ≠ some .dead) :
    (s.addThreadNode n).Placed (update q .ready (q .ready ++ [n])) := by
  rw [Scheduler.addThreadNode, if_neg hdead]
  refine h.makeReady hmain (h.represents.append hfree) fun m => ?_
  rw [List.mem_append, List.mem_singleton, or_comm]

theorem addThreadNode_status (hdead : s.status n ≠ some .dead) (m : τ) :
    (s.addThreadNode n).status m = if m = n then some .ready else s.status m := by
  rw [Scheduler.addThreadNode, if_neg hdead]
  exact update_apply ..

theorem Placed.addThreadNodeHead (h : s.Placed q) (hfree : ∀ j, n ∉ q j) (hmain : n ≠ s.main) :
    (s.addThreadNodeHead n).Placed (update q .ready (insertSecond n (q .ready))) :=
  h.makeReady hmain (h.represents.insertToHead hfree) fun _ => mem_insertSecond

/-- A thread outside of `ready_tasks` gets another status. -/
theorem Placed.setStatus {x : TaskStatus} (h : s.Placed q) (hready : n ≠ s.main → n ∉ q .ready) (hx : x ≠ .ready)
    (hx' : x ≠ .running) :
    ({ s with status := update s.status n (some x) } : Scheduler ω τ).Placed q := by
  refine ⟨h.represents, ?_, ?_, ?_, h.mainWaits, h.mainRuns⟩
  · intro m hm hrun
    by_cases heq : m = n
    · subst heq
      simp [hx'] at hrun
    · exact h.running m hm (by simpa [heq] using hrun)
  · intro m hm hrun
    by_cases heq : m = n
    · subst heq
      simp [hx] at hrun
    · exact h.ready m hm (by simpa [heq] using hrun)
  · intro m hm hmem
    have hne : m ≠ n := by
      rintro rfl
      exact hready hm hmem
    simpa [hne] using h.queued m hm hmem

/-- A change of a waiting list. -/
theorem Placed.setWaiting {queues : Queues (Queue ω) τ} (h : s.Placed q)
    (hrep : queues.Represents (update q (.waiting w) xs)) (hmain : s.main ∉ xs) :
    ({ s with queues := queues } : Scheduler ω τ).Placed (update q (.waiting w) xs) := by
  have hready : update q (.waiting w) xs .ready = q .ready := update_of_ne (by simp) ..
  refine ⟨hrep, h.running, ?_, ?_, ?_, ?_⟩
  · rw [hready]
    exact h.ready
  · rw [hready]
    exact h.queued
  · intro v
    by_cases heq : v = w
    · subst heq
      rwa [update_self]
    · rw [update_of_ne (by simpa using heq)]
      exact h.mainWaits v
  · rw [hready]
    exact h.mainRuns

theorem Placed.appendWaiting (h : s.Placed q) (hfree : ∀ j, s.crt ∉ q j) (hmain : s.crt ≠ s.main) :
    (s.appendWaiting w).Placed (update q (.waiting w) (q (.waiting w) ++ [s.crt])) := by
  refine h.setWaiting (h.represents.append hfree) fun hmem => ?_
  rcases List.mem_append.mp hmem with hmem | hmem
  · exact h.mainWaits w hmem
  · exact hmain (List.mem_singleton.mp hmem).symm

theorem Placed.removeWaiting (h : s.Placed q) (hq : q (.waiting w) = n :: xs) :
    (s.removeWaiting w n).Placed (update q (.waiting w) xs) := by
  refine h.setWaiting (h.represents.remove (show q (.waiting w) = [] ++ n :: xs from hq)) fun hmem => h.mainWaits w ?_
  rw [hq]
  exact List.mem_cons_of_mem _ hmem

end Scheduler

end LuckOS
