import LuckOS.ExecSteps

/-!
# Runs of `process_exec` and `process_exit`

In a run in which a thread tests or frees the other threads of its process only when none of
them is still on its way out of `process_exec`, the table of the threads is exact, one thread
runs the program, `process_exit` does not return, and no thread is freed.
-/

namespace LuckOS

open Function Runs

namespace ExecThreads

variable {pc : Nat → ExecPc} {q q' : Queue Empty → List Nat} {t u : Nat} {threads : HashTable Nat}
  {k k' : ExecThreads} {code : Int}

/-- `process_exit` does not return, the exit code is stored and delivered, and no freed thread is
in `ready_tasks`. -/
structure ExecSafe (k : ExecThreads) : Prop where
  exits : ∀ {t code}, k.passed t = some code → (k.pc t).exiting code = true
  ended : ∀ {t code}, k.passed t = some code → (k.pc t).ended = true → k.exited = true ∧ k.exitCode = code
  delivered : ∀ {t code}, k.passed t = some code → (k.pc t).delivered = true → k.exitChildren.get k.pid = some k.pid
  linked : ∃ q, k.sched.queues.Represents q ∧ ∀ t, k.freed t = true → t ∉ q .ready

theorem ExecInv.safe (h : ExecInv k) : ExecSafe k := by
  obtain ⟨q, hq⟩ := h.placing
  refine ⟨h.exits.exiting, h.exits.ended, h.exits.delivered, q, hq.placed.represents, fun t ht => ?_⟩
  rw [h.freed t] at ht
  cases ht

/-- A thread on its way out of `process_exec` is in the table, and in `ready_tasks` unless it runs. -/
theorem ExecInv.detaching (h : ExecInv k) {q : Queue Empty → List Nat} (hq : k.sched.queues.Represents q)
    (hu : (k.pc u).detaching = true) (hne : u ≠ k.sched.crt) : k.threads.get u = some u ∧ u ∈ q .ready := by
  obtain ⟨q', hq'⟩ := h.placing
  have hphase : (k.pc u).phase = .live := by
    cases hp : k.pc u <;> simp_all [ExecPc.detaching, ExecPc.phase]
  have hlisted : (k.pc u).listed = true := by
    cases hp : k.pc u <;> simp_all [ExecPc.detaching, ExecPc.listed]
  have hzero : u ≠ 0 := by
    rintro rfl
    rw [h.members.idle.1] at hu
    cases hu
  have hmain : u ≠ k.sched.main := hq'.main ▸ hzero
  have hready : k.sched.status u = some .ready :=
    (hq'.live hzero hphase).resolve_left fun hrun => hne (hq'.placed.running u hmain hrun)
  have hmem := hq'.placed.ready u hmain hready
  rw [h.members.listed, hlisted]
  exact ⟨rfl, by rwa [← (hq'.placed.represents.holds .ready).unique (hq.holds .ready)]⟩

/-- With a thread on its way out, the test of `process_exit` sends the thread back, and
`process_exec` frees a thread in `ready_tasks`. -/
theorem ExecInv.not_safe (h : ExecInv k) (hs : (k.pc k.sched.crt).sensitive = true) (hu : (k.pc u).detaching = true)
    (hne : u ≠ k.sched.crt) (hstep : k.advance k.sched.crt = some k') : ¬ ExecSafe k' := by
  intro hsafe
  rw [ExecThreads.advance] at hstep
  cases hp : k.pc k.sched.crt with
  | execDestroy =>
    rw [hp] at hstep
    obtain rfl := Option.some.inj hstep
    obtain ⟨q, hq, hfreed⟩ := hsafe.linked
    obtain ⟨hget, hmem⟩ := h.detaching hq hu hne
    refine hfreed u ?_ hmem
    change (k.freed u || k.threads.entries.any (·.2 == u)) = true
    rw [Bool.or_eq_true, List.any_eq_true]
    exact .inr ⟨(u, u), (HashTable.get_eq_some h.members.valid).mp hget, by simp⟩
  | exitCheck code load =>
    rw [hp] at hstep
    obtain rfl := Option.some.inj hstep
    obtain ⟨q, hq, -⟩ := hsafe.linked
    obtain ⟨hget, -⟩ := h.detaching hq hu hne
    have hself : k.threads.get k.sched.crt = some k.sched.crt := by
      rw [h.members.listed, hp]
      rfl
    have hsize : 1 < k.threads.size :=
      (HashTable.one_lt_size h.members.valid).mpr ⟨u, k.sched.crt, hne, by simp [hget], by simp [hself]⟩
    have hexit := hsafe.exits (t := k.sched.crt) (h.exits.called (by rw [hp]; rfl))
    simp [ExecThreads.goto, hsize, ExecPc.exiting] at hexit
  | _ => simp [hp, ExecPc.sensitive] at hs

/-- A thread that enters `process_exit` with the lock free and no other thread on its way out ends
the process with its own next steps, and delivers the code. -/
def ExitReaches (k : ExecThreads) : Prop :=
  ∀ code load, k.crashed = false → k.pc k.sched.crt = .exitLock code load → k.lock = none →
    (∀ u, u < k.created → u ≠ k.sched.crt → (k.pc u).detaching = false) →
    ∃ k', execute step k (List.replicate 5 .run) = some k' ∧ k'.exited = true ∧ k'.exitCode = code ∧
      k'.exitChildren.get k'.pid = some k'.pid

theorem ExecInv.exitReaches (h : ExecInv k) : ExitReaches k := by
  intro code load hcrashed hp hlock hok
  have hsize := h.members.size_le_one (t := k.sched.crt) (by rw [hp]; rfl) fun u hu => h.members.detached hok hu
  obtain ⟨-, -, hget⟩ := HashTable.put_spec h.exits.valid k.pid k.pid
  have hrun : execute ExecThreads.step k (List.replicate 5 .run) = some { k with
      pc := update k.pc k.sched.crt .exitThread
      lock := none
      threads := (k.threads.remove k.sched.crt).2.destroy
      exited := true
      exitCode := code
      exitChildren := (k.exitChildren.put k.pid k.pid).2 } := by
    simp [execute, List.replicate, ExecThreads.step, ExecThreads.advance, ExecThreads.acquire, ExecThreads.release, ExecThreads.goto,
      hcrashed, hp, hlock, hsize]
  exact ⟨_, hrun, rfl, rfl, by rw [hget, update_self]⟩

/-- In a run in which the other threads are tested and freed only when none is on its way out of
`process_exec`, `process_exit` ends the process and no thread in `ready_tasks` is freed. The next
step of the current thread keeps this if and only if it meets the condition as well. -/
theorem exec_safe_iff {as : List Action} (hrun : Run (Guarded Detached (Steps step)) start as k) :
    ExecSafe k ∧ ExitReaches k ∧ ∀ k', k.step .run = some k' → (ExecSafe k' ↔ k.Detached .run) := by
  have hinv : ExecInv k := hrun.invariant (fun h hstep => h.step hstep.1 hstep.2) start_inv
  refine ⟨hinv.safe, hinv.exitReaches, fun k' hstep => ⟨fun hsafe hs u _ hne => ?_, fun hok => (hinv.step hok hstep).safe⟩⟩
  rw [← Bool.not_eq_true]
  intro hu
  unfold ExecThreads.step at hstep
  dsimp only at hstep
  split_ifs at hstep
  exact hinv.not_safe hs hu hne hstep hsafe

/-- The first thread calls `process_exec`, its last steps included, and the new thread calls
`process_exit`. -/
def sampleExec : List Action :=
  [.timer, .exec, .run, .run, .run, .run, .run, .run, .run, .run, .run, .run, .run, .run, .run, .run, .run, .run,
    .run, .run, .exit 7, .run, .run, .run, .run, .run]

theorem sample_exec_safe : ∃ k, Run (Guarded Detached (Steps step)) start sampleExec k ∧ k.passed 2 = some 7 ∧
    k.pc 2 = .exitThread ∧ k.exited = true ∧ k.exitCode = 7 ∧ ExecSafe k := by
  have hcheck : (execute (permit (fun k a => decide (Detached k a)) step) start sampleExec).any
      (fun k => decide (k.passed 2 = some 7 ∧ k.pc 2 = .exitThread ∧ k.exited = true ∧ k.exitCode = 7)) = true := by
    decide +kernel
  rw [Option.any_eq_true] at hcheck
  obtain ⟨k, hk, hstate⟩ := hcheck
  obtain ⟨hpassed, hpc, hexited, hcode⟩ := of_decide_eq_true hstate
  have hrun := run_of_execute_permit of_decide_eq_true hk
  exact ⟨k, hrun, hpassed, hpc, hexited, hcode, (exec_safe_iff hrun).1⟩

/-- The first thread is preempted in `process_exec` behind `add_thread_to_schedule`. -/
def samplePreempted : List Action :=
  [.timer, .exec, .run, .run, .run, .run, .run, .run, .run, .run, .run, .run, .run, .run, .timer, .exit 7, .run, .run,
    .run]

/-- `process_exit` has returned to the new thread. -/
theorem sample_exit_returns : ∃ k, Run (Steps step) start samplePreempted k ∧ k.passed 2 = some 7 ∧ k.pc 2 = .user ∧
    k.exited = false ∧ ¬ ExecSafe k := by
  have hcheck : (execute step start samplePreempted).any
      (fun k => decide (k.passed 2 = some 7 ∧ k.pc 2 = .user ∧ k.exited = false)) = true := by decide +kernel
  rw [Option.any_eq_true] at hcheck
  obtain ⟨k, hk, hstate⟩ := hcheck
  obtain ⟨hpassed, hpc, hexited⟩ := of_decide_eq_true hstate
  refine ⟨k, run_of_execute hk, hpassed, hpc, hexited, fun hsafe => ?_⟩
  have hexit := hsafe.exits hpassed
  rw [hpc] at hexit
  cases hexit

end ExecThreads

end LuckOS
