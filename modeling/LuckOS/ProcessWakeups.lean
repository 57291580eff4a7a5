import LuckOS.ProcessPending
import LuckOS.Scheduler

/-!
# Wake-ups by `process_exit`

The processes of `task/process.c` on top of the scheduler. The current thread takes its steps
until it yields, exits or is preempted by the timer. `process_exit` adds the node in
`waiting_thread_node` of the parent to `ready_tasks` whenever `waiting_child_pid` fits. Both
fields survive the end of a wait, so that the parent may not be blocked at all.
-/

namespace LuckOS

open Function Runs

/-- The idle thread, the clean thread, and the threads of the processes. -/
inductive KernelThread where
  | idle
  | clean
  | process (p : Nat)
  deriving DecidableEq

/-- The loop of the clean thread. -/
inductive CleanPc where
  | test
  | yield
  | destroy
  deriving DecidableEq

/-- The places behind `thread->status = TASK_DEAD`. -/
def ProcessPc.dying : ProcessPc → Bool
  | exitRecord | exitSwitch | gone => true
  | _ => false

/-- The place between the mark as blocked and the yield. -/
def ProcessPc.parked : ProcessPc → Bool
  | waitYield _ => true
  | _ => false

/-- The processes, the scheduler with the waiting list of `dead_resource_cv`, the clean thread
and `dead_tasks`. -/
structure ScheduledProcesses where
  procs : Processes
  sched : Scheduler Unit KernelThread
  cleanPc : CleanPc
  deadTasks : List Nat
  crashed : Bool

namespace ScheduledProcesses

/-- The scheduler with the idle thread only. -/
def bare : Scheduler Unit KernelThread where
  queues := ⟨⟨fun _ => none, fun _ => none⟩, fun _ => .init⟩
  status := fun t => if t = .idle then some .running else none
  crt := .idle
  main := .idle

/-- The idle thread runs; the clean thread and the thread of the first process are ready. -/
def start : ScheduledProcesses where
  procs := .start
  sched := (bare.addThreadNode .clean).addThreadNode (.process 1)
  cleanPc := .test
  deadTasks := []
  crashed := false

/-- `cond_var_notify(&dead_resource_cv)`. -/
def notify (s : Scheduler Unit KernelThread) : Scheduler Unit KernelThread :=
  if (s.queues.list (.waiting ())).size ≠ 0 then
    match (s.queues.list (.waiting ())).head with
    | none => s
    | some n => (s.removeWaiting () n).addThreadNode n
  else s

/-- The wake-up in `process_exit`. A null node is followed. -/
def wakeParent (k : ScheduledProcesses) (p : Nat) : Option (Scheduler Unit KernelThread) :=
  match (k.procs.pcb p).parent with
  | none => none
  | some parent =>
    if Processes.Notifies (k.procs.pcb parent) (k.procs.pcb p).id then
      (k.procs.pcb parent).waitingThreadNode.map fun n => k.sched.addThreadNode (.process n)
    else some k.sched

/-- What the next step of the thread of a process does to the scheduler. The processes behind
the step are given. -/
def effect (k : ScheduledProcesses) (p : Nat) (procs : Processes) : Option (Scheduler Unit KernelThread) :=
  match k.procs.pc p with
  | .forkStart child => some (k.sched.addThreadNode (.process child))
  | .waitEnter _ | .waitAgain _ =>
    some (if (procs.pc p).parked then k.sched.markThreadBlock else k.sched)
  | .waitYield _ => k.sched.threadYield
  | .reap _ => some (notify k.sched)
  | .exitParent => k.wakeParent p
  | .exitThread => some k.sched.markThreadDead
  | .exitRecord => some (notify k.sched)
  | .exitSwitch => k.sched.doContextSwitch
  | _ => some k.sched

/-- A thread that runs behind its yield is not blocked any more. -/
def scheduled (k : ScheduledProcesses) (p : Nat) : Processes :=
  match k.procs.pc p with
  | .waitAgain _ => k.procs.wake (some p)
  | _ => k.procs

def threadStep (k : ScheduledProcesses) (p : Nat) : Option ScheduledProcesses :=
  ((k.scheduled p).advance p).map fun procs =>
    match k.effect p procs with
    | none => { k with crashed := true }
    | some sched => { k with
        procs := procs
        sched := sched
        deadTasks := if k.procs.pc p = .exitRecord then k.deadTasks ++ [p] else k.deadTasks }

/-- `kernel_clean_thread`: it sleeps until there are dead resources, takes them, and yields. -/
def cleanStep (k : ScheduledProcesses) : ScheduledProcesses :=
  match k.cleanPc with
  | .test =>
    if k.deadTasks = [] ∧ k.procs.deadProcesses = [] then
      { k with sched := (k.sched.appendWaiting ()).markThreadBlock, cleanPc := .yield }
    else { k with deadTasks := [], cleanPc := .destroy }
  | .destroy =>
    match k.procs.deadProcesses with
    | [] => { k with cleanPc := .yield }
    | p :: _ => { k with procs := k.procs.destroyProcess p }
  | .yield =>
    match k.sched.threadYield with
    | none => { k with crashed := true }
    | some sched => { k with sched := sched, cleanPc := .test }

/-- A system call of the current thread, its next step, or a timer interrupt. -/
inductive Action where
  | call (f : ProcessCall)
  | run
  | timer

def step (k : ScheduledProcesses) (a : Action) : Option ScheduledProcesses :=
  if k.crashed then none
  else match a, k.sched.crt with
    | .call f, .process p => if k.procs.pc p = .user then some { k with procs := k.procs.call p f } else none
    | .run, .process p => k.threadStep p
    | .run, .clean => some k.cleanStep
    | .timer, _ => k.sched.schedule.map fun sched => { k with sched := sched }
    | _, _ => none

/-! ## Threads and places -/

/-- The status of the thread of a process fits its place, and only the clean thread is in a
waiting list. -/
structure Agrees (procs : Processes) (c : CleanPc) (s : Scheduler Unit KernelThread)
    (q : Queue Unit → List KernelThread) : Prop where
  placed : s.Placed q
  main : s.main = .idle
  sleeper : ∀ {t}, t ∈ q (.waiting ()) ↔ t = .clean ∧ s.status .clean = some .waiting
  blocked : ∀ p, s.status (.process p) = some .waiting ↔ procs.blocked p = true
  unborn : ∀ p, s.status (.process p) = none ↔ procs.pc p = .unborn
  dying : ∀ p, s.status (.process p) = some .dead ↔ (procs.pc p).dying = true
  current : ∀ {p}, s.crt = .process p →
    s.status (.process p) = some .running ∨ (procs.pc p).parked = true ∨ (procs.pc p).dying = true
  cleaning : s.crt = .clean → s.status .clean = some .running ∨ c = .yield

variable {procs procs' : Processes} {c c' : CleanPc} {s t : Scheduler Unit KernelThread}
  {q q' : Queue Unit → List KernelThread} {n p : Nat} {pc : ProcessPc}

theorem Agrees.process_ne_main (h : Agrees procs c s q) (p : Nat) : KernelThread.process p ≠ s.main := by
  rw [h.main]
  exact KernelThread.noConfusion

theorem Agrees.not_ready (h : Agrees procs c s q) (hp : s.status (.process p) ≠ some .ready) :
    KernelThread.process p ∉ q .ready := fun hmem => hp (h.placed.queued _ (h.process_ne_main p) hmem)

/-- A process that is not ready is in no list. -/
theorem Agrees.free (h : Agrees procs c s q) (hp : s.status (.process p) ≠ some .ready) (j : Queue Unit) :
    KernelThread.process p ∉ q j := by
  cases j with
  | ready => exact h.not_ready hp
  | waiting w =>
    intro hmem
    cases (h.sleeper.mp hmem).1

theorem Agrees.requeues_free (h : Agrees procs c s q) (hrun : s.Requeues) (w : Unit) : s.crt ∉ q (.waiting w) := by
  intro hmem
  obtain ⟨hcrt, hstatus⟩ := h.sleeper.mp hmem
  rw [← hcrt, hrun.1] at hstatus
  cases hstatus

theorem Agrees.running (h : Agrees procs c s q) (hcrt : s.crt = .process p) (hpark : (procs.pc p).parked = false)
    (hdying : (procs.pc p).dying = false) : s.status (.process p) = some .running := by
  refine (h.current hcrt).resolve_right ?_
  simp [hpark, hdying]

/-- The processes change, and the scheduler does not. -/
theorem Agrees.frame (h : Agrees procs c s q) (hblocked : procs'.blocked = procs.blocked)
    (hunborn : ∀ p, procs'.pc p = .unborn ↔ procs.pc p = .unborn)
    (hdying : ∀ p, (procs'.pc p).dying = (procs.pc p).dying)
    (hcrt : ∀ {p}, s.crt = .process p →
      s.status (.process p) = some .running ∨ (procs'.pc p).parked = true ∨ (procs'.pc p).dying = true) :
    Agrees procs' c s q where
  placed := h.placed
  main := h.main
  sleeper := h.sleeper
  blocked := fun p => by rw [hblocked, h.blocked]
  unborn := fun p => by rw [hunborn, h.unborn]
  dying := fun p => by rw [hdying, h.dying]
  current := hcrt
  cleaning := h.cleaning

/-- The place of one thread changes. -/
theorem Agrees.goto (h : Agrees procs c s q) (hpc : procs'.pc = update procs.pc p pc)
    (hblocked : procs'.blocked = procs.blocked) (hborn : procs.pc p ≠ .unborn) (hborn' : pc ≠ .unborn)
    (hdying : pc.dying = (procs.pc p).dying)
    (hcrt : s.crt = .process p → s.status (.process p) = some .running ∨ pc.dying = true) : Agrees procs' c s q := by
  refine h.frame hblocked (fun r => ?_) (fun r => ?_) fun {r} hr => ?_
  · rw [hpc]
    by_cases heq : r = p
    · rw [heq, update_self]
      exact iff_of_false hborn' hborn
    · rw [update_of_ne heq]
  · rw [hpc]
    exact apply_place _ _ _ ProcessPc.dying hdying r
  · rw [hpc]
    by_cases heq : r = p
    · rw [heq, update_self]
      exact (hcrt (heq ▸ hr)).imp_right .inr
    · rw [update_of_ne heq]
      exact h.current hr

theorem Agrees.switched (h : Agrees procs c s q) (hs : s.Switched q t q') : Agrees procs c' t q' where
  placed := hs.placed
  main := hs.main.trans h.main
  sleeper := by
    intro m
    rw [hs.waits, h.sleeper]
    refine and_congr_right fun _ => ?_
    have hmain : KernelThread.clean ≠ s.main := by
      rw [h.main]
      exact KernelThread.noConfusion
    rw [hs.status_iff hmain (by simp) (by simp)]
  blocked := fun p => (hs.status_iff (h.process_ne_main p) (by simp) (by simp)).trans (h.blocked p)
  unborn := fun p => (hs.status_iff (h.process_ne_main p) (by simp) (by simp)).trans (h.unborn p)
  dying := fun p => (hs.status_iff (h.process_ne_main p) (by simp) (by simp)).trans (h.dying p)
  current := fun hcrt => .inl (hcrt ▸ hs.next)
  cleaning := fun hcrt => .inl (hcrt ▸ hs.next)

/-! ## Changes of the scheduler -/

/-- The thread of a process is made ready. -/
theorem Agrees.addProcess (h : Agrees procs c s q) (hready : s.status (.process n) ≠ some .ready)
    (hdead : s.status (.process n) ≠ some .dead)
    (hself : procs'.blocked n = false ∧ procs'.pc n ≠ .unborn ∧ (procs'.pc n).dying = false)
    (hothers : ∀ p, p ≠ n → procs'.blocked p = procs.blocked p ∧ (procs'.pc p = .unborn ↔ procs.pc p = .unborn) ∧
      (procs'.pc p).dying = (procs.pc p).dying)
    (hcrt : s.crt = .process p) (hne : p ≠ n) (hrun : s.status (.process p) = some .running) :
    ∃ q', Agrees procs' c (s.addThreadNode (.process n)) q' := by
  have hadd := h.placed.addThreadNode (h.free hready) (h.process_ne_main n) hdead
  have hstatus := Scheduler.addThreadNode_status hdead
  refine ⟨_, hadd, h.main, ?_, ?_, ?_, ?_, ?_, ?_⟩
  · intro m
    rw [update_of_ne (by simp), h.sleeper, hstatus, if_neg (by simp)]
  · intro r
    rw [hstatus]
    by_cases heq : r = n
    · simp [heq, hself.1]
    · rw [if_neg (by simpa using heq), h.blocked, (hothers r heq).1]
  · intro r
    rw [hstatus]
    by_cases heq : r = n
    · simp [heq, hself.2.1]
    · rw [if_neg (by simpa using heq), h.unborn, (hothers r heq).2.1]
  · intro r
    rw [hstatus]
    by_cases heq : r = n
    · simp [heq, hself.2.2]
    · rw [if_neg (by simpa using heq), h.dying, (hothers r heq).2.2]
  · intro r hr
    obtain rfl : p = r := KernelThread.process.inj (hcrt.symm.trans hr)
    rw [hstatus, if_neg (by simpa using hne)]
    exact .inl hrun
  · intro hclean
    cases hcrt.symm.trans hclean

/-- The current process is marked as blocked or dead. -/
theorem Agrees.mark {x : TaskStatus} (h : Agrees procs c s q) (hcrt : s.crt = .process p)
    (hrun : s.status (.process p) = some .running) (hx : x = .waiting ∨ x = .dead)
    (hpc : procs'.pc = update procs.pc p pc) (hborn : pc ≠ .unborn) (hpark : pc.parked = true ∨ pc.dying = true)
    (hdying : pc.dying = true ↔ x = .dead) (hself : procs'.blocked p = true ↔ x = .waiting)
    (hothers : ∀ r, r ≠ p → procs'.blocked r = procs.blocked r) :
    Agrees procs' c { s with status := update s.status s.crt (some x) } q := by
  have hstatus : ∀ m, update s.status s.crt (some x) m = if m = .process p then some x else s.status m := by
    intro m
    rw [hcrt, update_apply]
  have hnotReady : s.crt ∉ q .ready := by
    rw [hcrt]
    exact h.not_ready (by simp [hrun])
  refine ⟨h.placed.setStatus (fun _ => hnotReady) (by rcases hx with rfl | rfl <;> simp)
    (by rcases hx with rfl | rfl <;> simp), h.main, ?_, ?_, ?_, ?_, ?_, ?_⟩
  · intro m
    dsimp only
    rw [h.sleeper, hstatus, if_neg (by simp)]
  · intro r
    dsimp only
    rw [hstatus]
    by_cases heq : r = p
    · rw [heq, if_pos rfl, hself, Option.some_inj]
    · rw [if_neg (by simpa using heq), h.blocked, hothers r heq]
  · intro r
    dsimp only
    rw [hstatus, hpc]
    by_cases heq : r = p
    · rw [heq, if_pos rfl, update_self]
      exact iff_of_false (by simp) hborn
    · rw [if_neg (by simpa using heq), h.unborn, update_of_ne heq]
  · intro r
    dsimp only
    rw [hstatus, hpc]
    by_cases heq : r = p
    · rw [heq, if_pos rfl, update_self, hdying, Option.some_inj]
    · rw [if_neg (by simpa using heq), h.dying, update_of_ne heq]
  · intro r hr
    obtain rfl : p = r := KernelThread.process.inj (hcrt.symm.trans hr)
    rw [hpc, update_self]
    exact .inr hpark
  · intro hclean
    cases hcrt.symm.trans hclean

/-- `cond_var_notify` by a process. -/
theorem Agrees.notify (h : Agrees procs c s q) (hcrt : s.crt = .process p) : ∃ q', Agrees procs c (notify s) q' := by
  rw [ScheduledProcesses.notify]
  split_ifs with hsize
  · have hlist := h.placed.represents.size_eq (.waiting ())
    obtain ⟨m, xs, hq⟩ := List.exists_cons_of_length_pos (Nat.pos_of_ne_zero (hlist ▸ hsize))
    have hhead : (s.queues.list (.waiting ())).head = some m := by
      rw [h.placed.represents.head_eq, hq]
      rfl
    rw [hhead]
    obtain ⟨rfl, hstatus⟩ := h.sleeper.mp (by rw [hq]; exact List.mem_cons_self ..)
    have hxs : ∀ t, t ∉ xs := by
      intro t ht
      obtain ⟨rfl, -⟩ := h.sleeper.mp (by rw [hq]; exact List.mem_cons_of_mem _ ht)
      have hnodup := (h.placed.represents.holds (.waiting ())).nodup
      rw [hq, List.nodup_cons] at hnodup
      exact hnodup.1 ht
    have hmain : KernelThread.clean ≠ s.main := by
      rw [h.main]
      exact KernelThread.noConfusion
    have hfree : ∀ j, KernelThread.clean ∉ update q (.waiting ()) xs j := by
      intro j
      cases j with
      | ready =>
        rw [update_of_ne (by simp)]
        intro hmem
        have hready := h.placed.queued _ hmain hmem
        rw [hstatus] at hready
        cases hready
      | waiting w =>
        rw [update_self]
        exact hxs _
    have hdead : (s.removeWaiting () .clean).status .clean ≠ some .dead := by
      change s.status .clean ≠ some .dead
      rw [hstatus]
      simp
    have hadd := (h.placed.removeWaiting hq).addThreadNode hfree hmain hdead
    have hstatus' := Scheduler.addThreadNode_status hdead
    have hothers : ∀ r, ((s.removeWaiting () .clean).addThreadNode .clean).status (.process r) = s.status (.process r) :=
      fun r => (hstatus' _).trans (if_neg (by simp))
    refine ⟨_, hadd, h.main, ?_, ?_, ?_, ?_, ?_, ?_⟩
    · intro t
      rw [update_of_ne (by simp), update_self, hstatus', if_pos rfl]
      exact iff_of_false (hxs t) (by simp)
    · intro r
      rw [hothers, h.blocked]
    · intro r
      rw [hothers, h.unborn]
    · intro r
      rw [hothers, h.dying]
    · intro r hr
      rw [hothers]
      exact h.current hr
    · intro hr
      cases hcrt.symm.trans hr
  · exact ⟨q, h⟩

/-! ## Steps -/

/-- The parent whose thread is to be made ready by the next step of the current thread. -/
def waking (k : ScheduledProcesses) : Option Nat :=
  match k.sched.crt with
  | .process p =>
    if k.procs.pc p = .exitParent then
      (k.procs.pcb p).parent.filter fun parent => Processes.Notifies (k.procs.pcb parent) (k.procs.pcb p).id
    else none
  | _ => none

/-- The parent is in the loop of `process_wait`, and the test of the loop finds no child. -/
def Unserved (k : ScheduledProcesses) : Prop :=
  ∀ parent ∈ k.waking, ∃ pid ∈ (k.procs.pc parent).waiting,
    (Processes.takeExited (k.procs.pcb parent).exitChildren pid).1 = none

instance (k : ScheduledProcesses) : Decidable k.Unserved := inferInstanceAs (Decidable (∀ _ ∈ _, _))

/-- Processes, pending waits, and the status of the threads. -/
structure WakeInv (k : ScheduledProcesses) : Prop where
  family : Processes.FamilyInv k.procs
  pending : Processes.Pending k.procs
  agrees : ∃ q, Agrees k.procs k.cleanPc k.sched q

variable {k k' : ScheduledProcesses} {pid parent : Nat}

theorem waitRound_places (procs : Processes) (p pid : Nat) :
    (∃ child, (procs.waitRound p pid).pc = update procs.pc p (.reap child) ∧
      (procs.waitRound p pid).blocked = procs.blocked) ∨
    (procs.waitRound p pid).pc = update procs.pc p (.waitYield pid) ∧
      (procs.waitRound p pid).blocked = update procs.blocked p true := by
  rw [Processes.waitRound]
  split
  next child _ _ => exact .inl ⟨child, rfl, rfl⟩
  next => exact .inr ⟨rfl, rfl⟩

/-- A round of `process_wait` and the mark as blocked. -/
theorem Agrees.waitRound (h : Agrees procs c s q) (hcrt : s.crt = .process p)
    (hrun : s.status (.process p) = some .running) (hborn : procs.pc p ≠ .unborn) (hdying : (procs.pc p).dying = false) :
    Agrees (procs.waitRound p pid) c (if ((procs.waitRound p pid).pc p).parked then s.markThreadBlock else s) q := by
  rcases waitRound_places procs p pid with ⟨child, hpc, hblocked⟩ | ⟨hpc, hblocked⟩
  · rw [if_neg (by simp [hpc, ProcessPc.parked])]
    exact h.goto hpc hblocked hborn (by simp) (by rw [hdying]; rfl) fun _ => .inl hrun
  · rw [if_pos (by simp [hpc, ProcessPc.parked])]
    refine h.mark hcrt hrun (.inl rfl) hpc (by simp) (.inl rfl) (by simp [ProcessPc.dying]) (by simp [hblocked]) ?_
    intro r hr
    rw [hblocked, update_of_ne hr]

theorem Agrees.waitEnter (h : Agrees procs c s q) (hcrt : s.crt = .process p)
    (hrun : s.status (.process p) = some .running) (hp : procs.pc p = .waitEnter pid) :
    Agrees (procs.waitEnter p pid) c (if ((procs.waitEnter p pid).pc p).parked then s.markThreadBlock else s) q := by
  rw [Processes.waitEnter]
  by_cases hcheck : 0 < pid ∧ (procs.pcb p).children.get pid = none
  · rw [if_pos hcheck, if_neg (by simp [Processes.goto, ProcessPc.parked])]
    exact h.goto rfl rfl (by simp [hp]) (by simp) (by rw [hp]; rfl) fun _ => .inl hrun
  · rw [if_neg hcheck]
    have hset : Agrees (procs.setPcb p { procs.pcb p with
        waitingChildPid := if 0 < pid then pid else (procs.pcb p).id }) c s q :=
      h.frame rfl (fun _ => Iff.rfl) (fun _ => rfl) h.current
    have hborn : procs.pc p ≠ .unborn := by simp [hp]
    exact hset.waitRound hcrt hrun hborn ((congrArg ProcessPc.dying hp).trans rfl)

/-- Behind the fork, the thread of the child is ready. -/
theorem Agrees.forkStart {child : Nat} (h : Agrees procs c s q) (hl : Processes.Lives procs) (hcrt : s.crt = .process p)
    (hp : procs.pc p = .forkStart child) :
    ∃ q', Agrees ((procs.goto child .user).goto p .user) c (s.addThreadNode (.process child)) q' := by
  obtain ⟨-, -, hunborn⟩ := hl.newborn (p := p) (c := child) (by rw [hp]; rfl)
  have hne : p ≠ child := by
    rintro rfl
    rw [hp] at hunborn
    cases hunborn
  have hnone := (h.unborn child).mpr hunborn
  have hrun := h.running hcrt (by rw [hp]; rfl) (by rw [hp]; rfl)
  have hchild : ((procs.goto child .user).goto p .user).pc child = .user := by
    change update (update procs.pc child .user) p .user child = .user
    rw [update_of_ne hne.symm, update_self]
  have hblocked : procs.blocked child = false := by
    rw [← Bool.not_eq_true, ← h.blocked, hnone]
    simp
  refine h.addProcess (by simp [hnone]) (by simp [hnone]) ⟨hblocked, by simp [hchild], by rw [hchild]; rfl⟩ ?_ hcrt hne hrun
  intro r hr
  have hplace : ((procs.goto child .user).goto p .user).pc r = update procs.pc p .user r := by
    change update (update procs.pc child .user) p .user r = _
    rw [update_comm hne.symm, update_of_ne hr]
  refine ⟨rfl, ?_, ?_⟩
  · rw [hplace]
    by_cases heq : r = p
    · simp [heq, hp]
    · rw [update_of_ne heq]
  · rw [hplace]
    exact apply_place _ _ _ ProcessPc.dying (by rw [hp]; rfl) r

theorem mem_waking (hcrt : k.sched.crt = .process p) (hp : k.procs.pc p = .exitParent)
    (hparent : (k.procs.pcb p).parent = some parent)
    (hn : Processes.Notifies (k.procs.pcb parent) (k.procs.pcb p).id) : parent ∈ k.waking := by
  rw [waking, hcrt]
  simp [hp, hparent, hn]

/-- A parent that waits in vain is blocked. -/
theorem WakeInv.blocked (h : WakeInv k) (hpid : (k.procs.pc parent).waiting = some pid)
    (hnone : (Processes.takeExited (k.procs.pcb parent).exitChildren pid).1 = none) : k.procs.blocked parent = true := by
  obtain ⟨-, -, hspec⟩ := Processes.takeExited_spec (h.family.tables.valid parent) pid
  exact (h.pending.served hpid).resolve_right (hspec hnone).2

/-- The section of `process_exit` under the lock of the parent. -/
theorem WakeInv.exitParent (h : WakeInv k) (ha : Agrees k.procs k.cleanPc k.sched q) (hcrt : k.sched.crt = .process p)
    (hp : k.procs.pc p = .exitParent) (hok : k.Unserved) (hparent : (k.procs.pcb p).parent = some parent)
    (hwake : k.wakeParent p = some s) :
    ∃ q', Agrees ((k.procs.exitParent p parent).goto p .exitThread) k.cleanPc s q' := by
  obtain ⟨-, -, hpc, -, -, -, -, hblocked⟩ := Processes.exitParent_rest (k := k.procs) (p := p) parent
  have hrun := ha.running hcrt (by rw [hp]; rfl) (by rw [hp]; rfl)
  have hplace : ((k.procs.exitParent p parent).goto p .exitThread).pc = update k.procs.pc p .exitThread := by
    change update (k.procs.exitParent p parent).pc p .exitThread = _
    rw [hpc]
  simp only [wakeParent, hparent] at hwake
  split_ifs at hwake with hn
  · obtain ⟨pid, hpid, hnone⟩ := hok parent (mem_waking hcrt hp hparent hn)
    obtain ⟨hnode, -⟩ := h.family.sleeps.looping hpid
    rw [hnode] at hwake
    obtain rfl := Option.some.inj hwake
    have hwait := (ha.blocked parent).mpr (h.blocked hpid hnone)
    have hne : p ≠ parent := by
      rintro rfl
      rw [hrun] at hwait
      cases hwait
    have hblocked' : (k.procs.exitParent p parent).blocked = update k.procs.blocked parent false := by
      rw [hblocked, if_pos hn, hnode]
      rfl
    refine ha.addProcess (by simp [hwait]) (by simp [hwait]) ⟨?_, ?_, ?_⟩ ?_ hcrt hne hrun
    · exact (congrFun hblocked' parent).trans (update_self ..)
    · rw [hplace, update_of_ne hne.symm]
      intro hunborn
      rw [hunborn] at hpid
      cases hpid
    · rw [hplace, update_of_ne hne.symm]
      cases hpc' : k.procs.pc parent <;> simp [hpc', ProcessPc.waiting] at hpid <;> rfl
    · intro r hr
      refine ⟨(congrFun hblocked' r).trans (update_of_ne hr ..), ?_, ?_⟩
      · rw [hplace]
        by_cases heq : r = p
        · simp [heq, hp]
        · rw [update_of_ne heq]
      · rw [hplace]
        exact apply_place _ _ _ ProcessPc.dying (by rw [hp]; rfl) r
  · obtain rfl := Option.some.inj hwake
    exact ⟨q, ha.goto hplace (hblocked.trans (if_neg hn)) (by simp [hp]) (by simp) (by rw [hp]; rfl) fun _ => .inl hrun⟩

theorem WakeInv.effect (h : WakeInv k) (hcrt : k.sched.crt = .process p) (hok : k.Unserved)
    (hadv : k.procs.advance p = some procs) (heff : k.effect p procs = some s) :
    ∃ q, Agrees procs k.cleanPc s q := by
  obtain ⟨q, ha⟩ := h.agrees
  have hrunning := ha.running hcrt
  rw [Processes.advance] at hadv
  rw [ScheduledProcesses.effect] at heff
  cases hp : k.procs.pc p with
  | unborn | user | gone =>
    rw [hp] at hadv
    cases hadv
  | forkCreate =>
    rw [hp] at hadv heff hrunning
    obtain ⟨⟨id, pool⟩, -, rfl⟩ := Option.map_eq_some_iff.mp hadv
    obtain rfl := Option.some.inj heff
    exact ⟨q, ha.goto rfl rfl (by simp [hp]) (by simp) (by rw [hp]; rfl) fun _ => .inl (hrunning rfl rfl)⟩
  | forkAdd child | exitOwn code =>
    rw [hp] at hadv heff hrunning
    obtain rfl := Option.some.inj hadv
    obtain rfl := Option.some.inj heff
    exact ⟨q, ha.goto rfl rfl (by simp [hp]) (by simp) (by rw [hp]; rfl) fun _ => .inl (hrunning rfl rfl)⟩
  | forkStart child =>
    rw [hp] at hadv heff
    obtain rfl := Option.some.inj hadv
    obtain rfl := Option.some.inj heff
    exact ha.forkStart h.family.lives hcrt hp
  | waitEnter pid =>
    rw [hp] at hadv heff hrunning
    obtain rfl := Option.some.inj hadv
    obtain rfl := Option.some.inj heff
    exact ⟨q, ha.waitEnter hcrt (hrunning rfl rfl) hp⟩
  | waitYield pid =>
    rw [hp] at hadv heff
    obtain rfl := Option.some.inj hadv
    obtain ⟨t, q', hyield, hs⟩ := ha.placed.threadYield (hcrt ▸ ha.process_ne_main p) ha.requeues_free
    obtain rfl := Option.some.inj (hyield.symm.trans heff)
    refine ⟨q', (ha.switched hs).goto rfl rfl (by simp [hp]) (by simp) (by rw [hp]; rfl) fun hr => .inl ?_⟩
    rw [← hr]
    exact hs.next
  | waitAgain pid =>
    rw [hp] at hadv heff hrunning
    dsimp only at hadv
    split_ifs at hadv
    obtain rfl := Option.some.inj hadv
    obtain rfl := Option.some.inj heff
    exact ⟨q, ha.waitRound hcrt (hrunning rfl rfl) (by simp [hp]) (by rw [hp]; rfl)⟩
  | reap child =>
    rw [hp] at hadv heff hrunning
    obtain rfl := Option.some.inj hadv
    obtain rfl := Option.some.inj heff
    have hgoto : Agrees { k.procs.goto p .user with deadProcesses := k.procs.deadProcesses ++ [child] } k.cleanPc
        k.sched q := ha.goto rfl rfl (by simp [hp]) (by simp) (by rw [hp]; rfl) fun _ => .inl (hrunning rfl rfl)
    exact hgoto.notify hcrt
  | exitParent =>
    rw [hp] at hadv heff
    obtain ⟨parent, hparent, rfl⟩ := Option.map_eq_some_iff.mp hadv
    exact h.exitParent ha hcrt hp hok hparent heff
  | exitThread =>
    rw [hp] at hadv heff hrunning
    obtain rfl := Option.some.inj hadv
    obtain rfl := Option.some.inj heff
    have hrun := hrunning rfl rfl
    have hblocked : k.procs.blocked p ≠ true := by
      rw [Ne, ← ha.blocked, hrun]
      simp
    exact ⟨q, ha.mark hcrt hrun (.inr rfl) rfl (by simp) (.inr rfl) (by simp [ProcessPc.dying])
      (iff_of_false hblocked (by simp)) fun _ _ => rfl⟩
  | exitRecord =>
    rw [hp] at hadv heff
    obtain rfl := Option.some.inj hadv
    obtain rfl := Option.some.inj heff
    have hgoto : Agrees (k.procs.goto p .exitSwitch) k.cleanPc k.sched q :=
      ha.goto rfl rfl (by simp [hp]) (by simp) (by rw [hp]; rfl) fun _ => .inr rfl
    exact hgoto.notify hcrt
  | exitSwitch =>
    rw [hp] at hadv heff
    obtain rfl := Option.some.inj hadv
    have hne : q .ready ≠ [] := by
      intro hempty
      have hhead := ha.placed.head?_ready
      rw [hempty] at hhead
      rw [Scheduler.doContextSwitch, hhead] at heff
      cases heff
    obtain ⟨t, q', hswitch, hs⟩ := ha.placed.doContextSwitch ha.requeues_free hne
    obtain rfl := Option.some.inj (hswitch.symm.trans heff)
    exact ⟨q', (ha.switched hs).goto rfl rfl (by simp [hp]) (by simp) (by rw [hp]; rfl) fun _ => .inr rfl⟩

/-- A thread that runs is not blocked. -/
theorem WakeInv.scheduled_eq (h : WakeInv k) (hcrt : k.sched.crt = .process p) : k.scheduled p = k.procs := by
  obtain ⟨q, ha⟩ := h.agrees
  rw [scheduled]
  split
  next pid hp =>
    have hrun := ha.running hcrt (by rw [hp]; rfl) (by rw [hp]; rfl)
    have hblocked : k.procs.blocked p = false := by
      rw [← Bool.not_eq_true, ← ha.blocked, hrun]
      simp
    rw [Processes.wake, ← hblocked, update_eq_self]
  next => rfl

theorem WakeInv.threadStep (h : WakeInv k) (hcrt : k.sched.crt = .process p) (hok : k.Unserved)
    (hstep : k.threadStep p = some k') : WakeInv k' := by
  obtain ⟨procs, hadv, rfl⟩ := Option.map_eq_some_iff.mp hstep
  rw [h.scheduled_eq hcrt] at hadv
  split
  next => exact ⟨h.family, h.pending, h.agrees⟩
  next s heff =>
    exact ⟨h.family.step (a := .advance p) hadv, h.pending.advance h.family hadv, h.effect hcrt hok hadv heff⟩

/-- The clean thread goes to sleep. -/
theorem Agrees.sleep (h : Agrees procs c s q) (hcrt : s.crt = .clean) (hrun : s.status .clean = some .running) :
    Agrees procs .yield (s.appendWaiting ()).markThreadBlock
      (update q (.waiting ()) (q (.waiting ()) ++ [.clean])) := by
  have hmain : KernelThread.clean ≠ s.main := by
    rw [h.main]
    exact KernelThread.noConfusion
  have hready : KernelThread.clean ∉ q .ready := by
    intro hmem
    have hstatus := h.placed.queued _ hmain hmem
    rw [hrun] at hstatus
    cases hstatus
  have hwaits : ∀ t, t ∉ q (.waiting ()) := by
    intro t hmem
    have hstatus := (h.sleeper.mp hmem).2
    rw [hrun] at hstatus
    cases hstatus
  have hfree : ∀ j, s.crt ∉ q j := by
    rw [hcrt]
    intro j
    cases j with
    | ready => exact hready
    | waiting w => exact hwaits _
  have hplaced := h.placed.appendWaiting (w := ()) hfree (hcrt ▸ hmain)
  rw [hcrt] at hplaced
  have hothers : ∀ p, (s.appendWaiting ()).markThreadBlock.status (.process p) = s.status (.process p) := by
    intro p
    refine update_of_ne ?_ ..
    change KernelThread.process p ≠ s.crt
    rw [hcrt]
    simp
  refine ⟨hplaced.setStatus (fun _ => ?_) (by simp) (by simp), h.main, ?_, ?_, ?_, ?_, ?_, fun _ => .inr rfl⟩
  · rw [update_of_ne (by simp)]
    change s.crt ∉ q .ready
    rwa [hcrt]
  · intro t
    have hclean : (s.appendWaiting ()).markThreadBlock.status .clean = some .waiting := by
      change update s.status s.crt _ _ = _
      rw [hcrt, update_self]
    rw [update_self, hclean, List.mem_append, List.mem_singleton]
    simp [hwaits]
  · intro p
    rw [hothers, h.blocked]
  · intro p
    rw [hothers, h.unborn]
  · intro p
    rw [hothers, h.dying]
  · intro p hp
    cases hcrt.symm.trans hp

theorem WakeInv.cleanStep (h : WakeInv k) (hcrt : k.sched.crt = .clean) : WakeInv k.cleanStep := by
  obtain ⟨q, ha⟩ := h.agrees
  rw [ScheduledProcesses.cleanStep]
  cases hpc : k.cleanPc with
  | test =>
    have hrun := (ha.cleaning hcrt).resolve_right (by simp [hpc])
    dsimp only
    split_ifs
    · exact ⟨h.family, h.pending, _, ha.sleep hcrt hrun⟩
    · exact ⟨h.family, h.pending, q, { ha with cleaning := fun _ => .inl hrun }⟩
  | destroy =>
    have hrun := (ha.cleaning hcrt).resolve_right (by simp [hpc])
    dsimp only
    split
    next => exact ⟨h.family, h.pending, q, { ha with cleaning := fun _ => .inl hrun }⟩
    next p rest hdead =>
      have hmem : p ∈ k.procs.deadProcesses := by simp [hdead]
      rw [hpc] at ha
      refine ⟨h.family.step (a := .destroy p) (if_pos hmem), h.pending.destroy, q, ?_⟩
      exact ha.frame rfl (fun _ => Iff.rfl) (fun _ => rfl) ha.current
  | yield =>
    have hmain : k.sched.crt ≠ k.sched.main := by
      rw [hcrt, ha.main]
      exact KernelThread.noConfusion
    obtain ⟨t, q', hyield, hs⟩ := ha.placed.threadYield hmain ha.requeues_free
    rw [hyield]
    exact ⟨h.family, h.pending, q', ha.switched hs⟩

/-- A step in which `process_exit` wakes a parent that waits in vain, or nobody. -/
def Timely (k : ScheduledProcesses) : Action → Prop
  | .run => k.Unserved
  | _ => True

instance (k : ScheduledProcesses) (a : Action) : Decidable (k.Timely a) :=
  match a with
  | .run => inferInstanceAs (Decidable k.Unserved)
  | .call _ | .timer => isTrue trivial

theorem WakeInv.step {a : Action} (h : WakeInv k) (hok : k.Timely a) (hstep : k.step a = some k') : WakeInv k' := by
  obtain ⟨q, ha⟩ := h.agrees
  unfold ScheduledProcesses.step at hstep
  split_ifs at hstep
  split at hstep
  next f p hcrt =>
    split_ifs at hstep with hp
    obtain rfl := Option.some.inj hstep
    refine ⟨h.family.step (a := .call p f) (if_pos hp), h.pending.call f, q, ?_⟩
    have hrun := ha.running hcrt (by rw [hp]; rfl) (by rw [hp]; rfl)
    cases f <;> exact ha.goto rfl rfl (by simp [hp]) (by simp [ProcessCall.entry]) (by rw [hp]; rfl) fun _ => .inl hrun
  next p hcrt => exact h.threadStep hcrt hok hstep
  next hcrt =>
    obtain rfl := Option.some.inj hstep
    exact h.cleanStep hcrt
  next =>
    obtain ⟨s, hs, rfl⟩ := Option.map_eq_some_iff.mp hstep
    rcases ha.placed.schedule ha.requeues_free with hsame | ⟨t, q', hswitch, hsw⟩
    · obtain rfl := Option.some.inj (hsame.symm.trans hs)
      exact ⟨h.family, h.pending, q, ha⟩
    · obtain rfl := Option.some.inj (hswitch.symm.trans hs)
      exact ⟨h.family, h.pending, q', ha.switched hsw⟩
  next => cases hstep

theorem bare_placed : bare.Placed fun _ => [] := by
  refine ⟨⟨fun _ => LinkedList.holds_init, ?_⟩, ?_, ?_, ?_, ?_, ?_⟩ <;> simp +contextual [bare]

theorem start_wakeInv : WakeInv start := by
  have hfirst := bare_placed.addThreadNode (n := .clean) (by simp) (by decide) (by decide)
  have hsecond := hfirst.addThreadNode (n := .process 1) (by simp [update_apply]) (by decide) (by decide)
  have hstatus : ∀ m, start.sched.status m = if m = .process 1 then some .ready else
      if m = .clean then some .ready else bare.status m := by
    intro m
    rw [← Scheduler.addThreadNode_status (show bare.status .clean ≠ some .dead by decide) m]
    exact Scheduler.addThreadNode_status (by decide) m
  have hprocess : ∀ p, start.sched.status (.process p) = if p = 1 then some .ready else none := by
    intro p
    simp [hstatus, bare]
  have hpc : ∀ p, start.procs.pc p = if p = 1 then .user else .unborn := fun _ => rfl
  refine ⟨⟨Processes.start_inv, Processes.start_kids⟩, Processes.start_pending, _, hsecond, rfl, ?_, ?_, ?_, ?_, ?_, ?_⟩
  · intro t
    rw [hstatus]
    simp
  · intro p
    rw [hprocess]
    refine iff_of_false ?_ Bool.false_ne_true
    split_ifs <;> simp
  · intro p
    rw [hprocess, hpc]
    split_ifs <;> simp
  · intro p
    rw [hprocess, hpc]
    split_ifs <;> simp [ProcessPc.dying]
  · intro p hp
    cases hp
  · intro hp
    cases hp

/-- Whenever `process_exit` adds the node of the parent to `ready_tasks`, the node is that of a
thread that is blocked in `process_wait`, and it is in no list. -/
def WakesBlocked (k : ScheduledProcesses) : Prop :=
  ∀ parent ∈ k.waking, ∃ n ∈ (k.procs.pcb parent).waitingThreadNode, k.sched.status (.process n) = some .waiting ∧
    (k.procs.pc n).waiting.isSome ∧ ∃ q, k.sched.queues.Represents q ∧ ∀ j, KernelThread.process n ∉ q j

theorem WakeInv.wakesBlocked_iff (h : WakeInv k) : k.WakesBlocked ↔ k.Unserved := by
  obtain ⟨q, ha⟩ := h.agrees
  refine forall₂_congr fun parent _ => ⟨?_, ?_⟩
  · rintro ⟨n, hn, hstatus, -, -⟩
    obtain rfl := h.pending.nodes hn
    obtain ⟨pid, hpid, hunsat⟩ := h.family.sleeps.blocked ((ha.blocked n).mp hstatus)
    refine ⟨pid, hpid, ?_⟩
    obtain ⟨-, hsome, -⟩ := Processes.takeExited_spec (h.family.tables.valid n) pid
    cases htake : (Processes.takeExited (k.procs.pcb n).exitChildren pid).1 with
    | none => rfl
    | some child =>
      obtain ⟨key, hget, hkey, -⟩ := hsome child htake
      refine absurd ⟨key, child, hget, ?_⟩ hunsat
      exact (Nat.eq_zero_or_pos pid).imp_right hkey
  · rintro ⟨pid, hpid, hnone⟩
    have hwait := (ha.blocked parent).mpr (h.blocked hpid hnone)
    refine ⟨parent, (h.family.sleeps.looping hpid).1, hwait, ?_, q, ha.placed.represents, ha.free (by simp [hwait])⟩
    rw [hpid]
    rfl

/-- In a run in which `process_exit` only wakes parents that wait in vain, `ready_tasks` and the
waiting list stay lists, and the parents that are woken are exactly the blocked ones. -/
theorem wakes_blocked_iff {as : List Action} (hrun : Run (Guarded Timely (Steps step)) start as k) :
    (∃ q, k.sched.queues.Represents q) ∧ (k.WakesBlocked ↔ k.Unserved) := by
  have hinv : WakeInv k := hrun.invariant (fun h hstep => h.step hstep.1 hstep.2) start_wakeInv
  obtain ⟨q, ha⟩ := hinv.agrees
  exact ⟨⟨q, ha.placed.represents⟩, hinv.wakesBlocked_iff⟩

/-- The first process forks a child and waits for it, the child exits, and the same again. -/
def sampleWakeup : List Action :=
  [.timer, .run, .run, .call .fork, .run, .run, .run, .call (.wait 2), .run, .run,
    .call (.exit 7), .run, .run, .run, .run, .run, .run, .run,
    .call .fork, .run, .run, .run, .call (.wait 0), .run, .run, .run, .run, .run, .run, .call (.exit 8), .run]

theorem sample_wakes_blocked :
    ∃ k, Run (Guarded Timely (Steps step)) start sampleWakeup k ∧ k.waking = some 1 ∧ k.WakesBlocked := by
  have hcheck : (execute (permit (fun k a => decide (Timely k a)) step) start sampleWakeup).any
      (fun k => decide (k.waking = some 1 ∧ k.Unserved)) = true := by decide +kernel
  rw [Option.any_eq_true] at hcheck
  obtain ⟨k, hk, hstate⟩ := hcheck
  obtain ⟨hwaking, hok⟩ := of_decide_eq_true hstate
  have hrun := run_of_execute_permit of_decide_eq_true hk
  exact ⟨k, hrun, hwaking, (wakes_blocked_iff hrun).2.mpr hok⟩

/-- Two children exit while their parent waits for any child. -/
def sampleTwice : List Action :=
  [.timer, .run, .run, .call .fork, .run, .run, .run, .call .fork, .run, .run, .run, .call (.wait 0), .run, .run,
    .call (.exit 7), .run, .run, .run, .run, .run, .call (.exit 8), .run]

/-- The second child adds a node to `ready_tasks` that is in it already. -/
theorem sample_wakes_ready : ∃ k, Run (Steps step) start sampleTwice k ∧ k.waking = some 1 ∧
    (k.procs.pcb 1).waitingThreadNode = some 1 ∧ k.sched.status (.process 1) = some .ready ∧ ¬ k.WakesBlocked := by
  have hcheck : (execute step start sampleTwice).any (fun k => decide (k.waking = some 1 ∧
      (k.procs.pcb 1).waitingThreadNode = some 1 ∧ k.sched.status (.process 1) = some .ready)) = true := by decide +kernel
  rw [Option.any_eq_true] at hcheck
  obtain ⟨k, hk, hstate⟩ := hcheck
  obtain ⟨hwaking, hnode, hready⟩ := of_decide_eq_true hstate
  refine ⟨k, run_of_execute hk, hwaking, hnode, hready, fun h => ?_⟩
  obtain ⟨n, hn, hwait, -⟩ := h 1 hwaking
  rw [Option.mem_def, hnode] at hn
  obtain rfl := Option.some.inj hn
  rw [hready] at hwait
  cases hwait

end ScheduledProcesses

end LuckOS
