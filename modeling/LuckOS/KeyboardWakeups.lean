import LuckOS.TaskQueues

/-!
# The readers woken by a keyboard interrupt

`keyboard_interrupt_handler` run without an interruption moves the waiting readers to a
list of its own, unlinks them one by one and puts each to the head of `ready_tasks`. A
node that is put to the head of a list goes behind its first node, if there is one.
-/

namespace LuckOS

open Function Runs Queues

namespace Scheduler

/-- The loop of `keyboard_interrupt_handler` over the list of the handler `i`. -/
def wakeLoop (i : Nat) : Nat → Option Nat → Scheduler WaitList Nat → Option (Scheduler WaitList Nat)
  | _, none, s => some s
  | 0, some _, _ => none
  | rounds + 1, some node, s =>
    let nextNode := s.queues.links.next node
    wakeLoop i rounds nextNode ((s.removeWaiting (.handler i) node).addThreadNodeHead node)

/-- `keyboard_interrupt_handler`, from `linked_list_move` to the end of its loop. -/
def keyboardInterruptHandler (s : Scheduler WaitList Nat) (i rounds : Nat) : Option (Scheduler WaitList Nat) :=
  let s := { s with queues := s.queues.move (.waiting (.handler i)) (.waiting .keyboard) }
  wakeLoop i rounds (s.queues.list (.waiting (.handler i))).head s

/-- The ready queue after the nodes are put to its head one after the other. -/
def headInserted (woken ready : List Nat) : List Nat := woken.foldl (fun ready n => insertSecond n ready) ready

theorem headInserted_cons (woken : List Nat) (r : Nat) (ready : List Nat) :
    headInserted woken (r :: ready) = r :: (woken.reverse ++ ready) := by
  induction woken generalizing ready with
  | nil => rfl
  | cons n woken ih =>
    change headInserted woken (r :: n :: ready) = _
    rw [ih, List.reverse_cons, List.append_assoc]
    rfl

theorem headInserted_nil (n : Nat) (woken : List Nat) : headInserted (n :: woken) [] = n :: woken.reverse := by
  change headInserted woken [n] = _
  rw [headInserted_cons, List.append_nil]

/-- The woken nodes come first exactly if no thread was ready before. -/
theorem headInserted_first_iff {woken ready : List Nat} (hne : woken ≠ []) (hapart : ∀ n ∈ woken, n ∉ ready) :
    (∃ first, first.Perm woken ∧ headInserted woken ready = first ++ ready) ↔ ready = [] := by
  constructor
  · rintro ⟨first, hperm, heq⟩
    by_contra hready
    obtain ⟨r, ready, rfl⟩ := List.exists_cons_of_ne_nil hready
    cases first with
    | nil => exact hne hperm.nil_eq.symm
    | cons n first =>
      rw [headInserted_cons, List.cons_append, List.cons.injEq] at heq
      have hn : n ∈ woken := hperm.mem_iff.mp (List.mem_cons_self ..)
      exact hapart n hn (by simp [heq.1])
  · rintro rfl
    obtain ⟨n, woken, rfl⟩ := List.exists_cons_of_ne_nil hne
    refine ⟨n :: woken.reverse, (List.reverse_perm woken).cons n, ?_⟩
    rw [headInserted_nil, List.append_nil]

variable {s : Scheduler WaitList Nat} {q : Queue WaitList → List Nat}

/-- The loop takes all nodes from the list of the handler. -/
theorem wakeLoop_spec (i : Nat) {woken : List Nat} (h : s.queues.Represents q) (hwoken : q (.waiting (.handler i)) = woken)
    {rounds : Nat} (hrounds : woken.length ≤ rounds) :
    ∃ s', wakeLoop i rounds woken.head? s = some s' ∧
      s'.queues.Represents (update (update q (.waiting (.handler i)) []) .ready (headInserted woken (q .ready))) := by
  induction woken generalizing s q rounds with
  | nil =>
    have hq : update (update q (.waiting (.handler i)) []) .ready (headInserted [] (q .ready)) = q := by
      rw [← hwoken, update_eq_self, hwoken]
      exact update_eq_self _ q
    refine ⟨s, ?_, by rwa [hq]⟩
    cases rounds <;> rfl
  | cons n woken ih =>
    have hholds := h.holds (.waiting (.handler i))
    rw [hwoken] at hholds
    obtain ⟨-, hnext, -⟩ := hholds.linked
    obtain ⟨hn, -⟩ := List.nodup_cons.mp hholds.nodup
    have hremoved := h.remove (show q (.waiting (.handler i)) = [] ++ n :: woken from hwoken)
    have hfree : ∀ j, n ∉ update q (.waiting (.handler i)) woken j := by
      intro j hj
      by_cases heq : j = .waiting (.handler i)
      · rw [heq, update_self] at hj
        exact hn hj
      · rw [update_of_ne heq] at hj
        exact heq (h.apart hj (by rw [hwoken]; exact List.mem_cons_self ..))
    have hadded := hremoved.insertToHead (i := .ready) hfree
    cases rounds with
    | zero => cases hrounds
    | succ rounds =>
      rw [List.length_cons] at hrounds
      obtain ⟨s', hloop, hs'⟩ := ih (s := (s.removeWaiting (.handler i) n).addThreadNodeHead n) hadded (by simp)
        (Nat.le_of_succ_le_succ hrounds)
      refine ⟨s', ?_, ?_⟩
      · rw [List.head?_cons, wakeLoop, hnext, Option.or_none]
        exact hloop
      · convert hs' using 1
        funext j
        rcases j with - | w
        · simp [headInserted]
        · by_cases hw : w = .handler i
          · simp [hw]
          · simp [hw]

/-- The handler empties `waiting_tasks` and puts the readers to the head of `ready_tasks` one after the other. -/
theorem keyboardInterruptHandler_spec (h : s.queues.Represents q) (i : Nat) {rounds : Nat}
    (hrounds : (q (.waiting .keyboard)).length ≤ rounds) : ∃ s' q', s.keyboardInterruptHandler i rounds = some s' ∧
      s'.queues.Represents q' ∧ q' (.waiting .keyboard) = [] ∧
      q' .ready = headInserted (q (.waiting .keyboard)) (q .ready) := by
  have hne : (.waiting (.handler i) : Queue WaitList) ≠ .waiting .keyboard := by simp
  have hmoved := h.move hne
  obtain ⟨s', hloop, hs'⟩ := wakeLoop_spec i
    (s := { s with queues := s.queues.move (.waiting (.handler i)) (.waiting .keyboard) }) hmoved (by simp) hrounds
  refine ⟨s', _, ?_, hs', by simp, by simp⟩
  rw [keyboardInterruptHandler, hmoved.head_eq]
  simpa using hloop

/-- The handler empties `waiting_tasks`. The readers it wakes precede all threads that were
ready before exactly if there were none. -/
theorem woken_first_iff (h : s.queues.Represents q) (hwaiting : q (.waiting .keyboard) ≠ []) (i rounds : Nat)
    (hrounds : (q (.waiting .keyboard)).length ≤ rounds) :
    ∃ s' q', s.keyboardInterruptHandler i rounds = some s' ∧ s'.queues.Represents q' ∧ q' (.waiting .keyboard) = [] ∧
      ((∃ first, first.Perm (q (.waiting .keyboard)) ∧ q' .ready = first ++ q .ready) ↔ q .ready = []) := by
  obtain ⟨s', q', hhandler, hs', hempty, hready⟩ := keyboardInterruptHandler_spec h i hrounds
  have hapart : ∀ n ∈ q (.waiting .keyboard), n ∉ q .ready := fun n hn hready => by
    cases h.apart hn hready
  refine ⟨s', q', hhandler, hs', hempty, ?_⟩
  rw [hready]
  exact headInserted_first_iff hwaiting hapart

/-- A state in which the threads `ready` are ready and the threads `waiting` wait for a key. -/
def sampleReaders (ready waiting : List Nat) : Scheduler WaitList Nat :=
  let queues := ready.foldl (fun s n => s.append .ready n) ⟨⟨fun _ => none, fun _ => none⟩, fun _ => .init⟩
  ⟨waiting.foldl (fun s n => s.append (.waiting .keyboard) n) queues, fun _ => none, 0, 0⟩

theorem represents_sampleReaders : (sampleReaders [] [2, 3]).queues.Represents
    (update (fun _ => []) (.waiting .keyboard) [2, 3]) := by
  have hinit : Represents (⟨⟨fun _ => none, fun _ => none⟩, fun _ => .init⟩ : Queues (Queue WaitList) Nat) fun _ => [] :=
    ⟨fun _ => LinkedList.holds_init, fun hn => by cases hn⟩
  have hfirst := hinit.append (i := .waiting .keyboard) (n := 2) (by simp)
  have hsecond := hfirst.append (i := .waiting .keyboard) (n := 3) fun j => by
    by_cases hj : j = .waiting .keyboard <;> simp [hj]
  rw [update_self, update_idem] at hsecond
  exact hsecond

/-- Two readers are woken while no thread is ready. -/
theorem sample_woken_first : ∃ s' q', (sampleReaders [] [2, 3]).keyboardInterruptHandler 0 2 = some s' ∧
    s'.queues.Represents q' ∧ ∃ first, first.Perm [2, 3] ∧ q' .ready = first := by
  obtain ⟨s', q', hhandler, hs', -, hiff⟩ := woken_first_iff represents_sampleReaders (by simp) 0 2 (by simp)
  obtain ⟨first, hperm, hready⟩ := hiff.mpr (by simp)
  exact ⟨s', q', hhandler, hs', first, by simpa using hperm, by simpa using hready⟩

/-- With a thread in the ready queue the woken reader goes behind it. -/
theorem ready_thread_stays_first : ∃ s', (sampleReaders [2] [3]).keyboardInterruptHandler 0 1 = some s' ∧
    (s'.queues.list .ready).head = some 2 ∧ s'.queues.links.next 2 = some 3 ∧ s'.queues.links.next 3 = none ∧
    (s'.queues.list (.waiting .keyboard)).size = 0 ∧ ¬ ∃ first : List Nat, first.Perm [3] ∧ [2, 3] = first ++ [2] := by
  have hrun : ((sampleReaders [2] [3]).keyboardInterruptHandler 0 1).any (fun s' =>
      decide ((s'.queues.list .ready).head = some 2 ∧ s'.queues.links.next 2 = some 3 ∧ s'.queues.links.next 3 = none ∧
        (s'.queues.list (.waiting .keyboard)).size = 0)) = true := by decide +kernel
  obtain ⟨s', hhandler, hs'⟩ := Option.any_eq_true .. |>.mp hrun
  obtain ⟨hhead, hnext, hlast, hempty⟩ := of_decide_eq_true hs'
  refine ⟨s', hhandler, hhead, hnext, hlast, hempty, ?_⟩
  rintro ⟨first, hperm, heq⟩
  rw [List.perm_singleton.mp hperm] at heq
  cases heq

end Scheduler

namespace TaskQueues

variable {k : TaskQueues}

/-- The steps of a handler that is not interrupted are those of its loop. -/
theorem run_wakeLoop {i rounds : Nat} {rest : List Nat} {s' : Scheduler WaitList Nat} (hcrashed : k.crashed = false)
    (hstack : k.stack k.crt = i :: rest) (hadding : k.adding i = none)
    (hloop : Scheduler.wakeLoop i rounds (k.node i) k.sched = some s') :
    ∃ steps k', Run (Steps step) k (List.replicate steps (.run true)) k' ∧ k'.sched = s' ∧ k'.node i = none ∧
      k'.adding i = none ∧ k'.stack = k.stack := by
  induction rounds generalizing k with
  | zero =>
    cases hnode : k.node i with
    | none =>
      rw [hnode, Scheduler.wakeLoop] at hloop
      exact ⟨0, k, .nil k, Option.some.inj hloop, hnode, hadding, rfl⟩
    | some n =>
      rw [hnode] at hloop
      cases hloop
  | succ rounds ih =>
    cases hnode : k.node i with
    | none =>
      rw [hnode, Scheduler.wakeLoop] at hloop
      exact ⟨0, k, .nil k, Option.some.inj hloop, hnode, hadding, rfl⟩
    | some n =>
      rw [hnode, Scheduler.wakeLoop] at hloop
      have hunlink : step k (.run true) = some (k.handle i rest) := by
        simp [step, hcrashed, hstack]
      have hfirst : k.handle i rest = { k with
          sched := k.sched.removeWaiting (.handler i) n
          node := update k.node i (k.sched.queues.links.next n)
          adding := update k.adding i (some n) } := by
        simp only [handle, hadding, hnode]
      have hadd : step (k.handle i rest) (.run true) = some ((k.handle i rest).handle i rest) := by
        have hcrt : (k.handle i rest).crt = k.crt := by rw [hfirst]; rfl
        have hrest : (k.handle i rest).crashed = false ∧ (k.handle i rest).stack k.crt = i :: rest := by
          rw [hfirst]
          exact ⟨hcrashed, hstack⟩
        simp [step, hcrt, hrest]
      have hsecond : (k.handle i rest).handle i rest = { k with
          sched := (k.sched.removeWaiting (.handler i) n).addThreadNodeHead n
          node := update k.node i (k.sched.queues.links.next n)
          adding := update (update k.adding i (some n)) i none
          enabled := true } := by
        rw [hfirst]
        simp only [handle, update_self]
      rw [hsecond] at hadd
      obtain ⟨steps, k', hrun, hsched, hend, hnone, hsame⟩ := ih (k := { k with
          sched := (k.sched.removeWaiting (.handler i) n).addThreadNodeHead n
          node := update k.node i (k.sched.queues.links.next n)
          adding := update (update k.adding i (some n)) i none
          enabled := true }) hcrashed hstack (update_self ..) (by simpa using hloop)
      exact ⟨steps + 2, k', .cons hunlink (.cons hadd hrun), hsched, hend, hnone, hsame⟩

/-- The interrupt handler of the task queues, run without an interruption, does what
`keyboard_interrupt_handler` does. -/
theorem run_keyboard {rounds : Nat} {s' : Scheduler WaitList Nat} (hcrashed : k.crashed = false) (henabled : k.enabled = true)
    (hadding : k.adding k.handlers = none) (hhandler : k.sched.keyboardInterruptHandler k.handlers rounds = some s') :
    ∃ steps k', Run (Steps step) k (.keyboard :: List.replicate steps (.run true)) k' ∧ k'.sched = s' ∧
      k'.node k.handlers = none ∧ k'.adding k.handlers = none := by
  have hstep : step k .keyboard = some k.keyboard := by simp [step, hcrashed, henabled]
  have hhead : (k.sched.queues.move (.waiting (.handler k.handlers)) (.waiting .keyboard)).list
      (.waiting (.handler k.handlers)) = k.sched.queues.list (.waiting .keyboard) := by
    simp [Queues.move, LinkedList.move]
  rw [Scheduler.keyboardInterruptHandler, hhead] at hhandler
  have hnode : k.keyboard.node k.handlers = (k.sched.queues.list (.waiting .keyboard)).head := update_self ..
  have hstack : k.keyboard.stack k.crt = k.handlers :: k.stack k.crt := update_self ..
  rw [← hnode] at hhandler
  obtain ⟨steps, k', hrun, hsched, hend, hnone, -⟩ := run_wakeLoop (k := k.keyboard) hcrashed hstack hadding hhandler
  exact ⟨steps, k', .cons hstep hrun, hsched, hend, hnone⟩

/-- In the system of the task queues a handler that is not interrupted wakes all readers. -/
theorem keyboard_wakes_readers {q : Queue WaitList → List Nat} (hcrashed : k.crashed = false) (henabled : k.enabled = true)
    (hadding : k.adding k.handlers = none) (hq : k.sched.queues.Represents q) : ∃ steps k' q',
      Run (Steps step) k (.keyboard :: List.replicate steps (.run true)) k' ∧ k'.sched.queues.Represents q' ∧
      q' (.waiting .keyboard) = [] ∧ q' .ready = Scheduler.headInserted (q (.waiting .keyboard)) (q .ready) := by
  obtain ⟨s', q', hhandler, hs', hempty, hready⟩ := Scheduler.keyboardInterruptHandler_spec hq k.handlers (Nat.le_refl _)
  obtain ⟨steps, k', hrun, rfl, -, -⟩ := run_keyboard hcrashed henabled hadding hhandler
  exact ⟨steps, k', q', hrun, hs', hempty, hready⟩

end TaskQueues

end LuckOS
