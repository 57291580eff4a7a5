import LuckOS.Runs
import LuckOS.Scheduler

/-!
# Kernel threads under preemption

Threads execute the blocking functions of `sync/mutex.c`, `sync/cond_var.c`,
`task/process.c` and `task/scheduler.c`, one statement at a time. The code of a thread is
the list of the statements it has still to execute. Between two statements the timer may
interrupt the current thread and call `schedule`. A function that runs with interrupts
disabled is one statement.
-/

namespace LuckOS

open Function Runs

/-- The yieldlocks: `process->lock`, the `ydlock` of a mutex, the lock that is passed along
with a condition variable, and `kheap_lock`. -/
inductive YieldLock where
  | process (p : Nat)
  | mutex (m : Nat)
  | cond (c : Nat)
  | kheap
  deriving DecidableEq

/-- The condition variable `dead_resource_cv`. -/
def deadResourceCv : Nat := 0

def deadResourceLock : YieldLock := .cond deadResourceCv

/-- The statements. A waiting queue is named by the lock that guards it. -/
inductive Stmt where
  | lock (l : YieldLock)
  | unlock (l : YieldLock)
  | check (p : Nat)
  | test (l : YieldLock)
  | append (l : YieldLock)
  | mark
  | yield
  | holdNo (m : Nat)
  | wake (l : YieldLock)
  | remove (l : YieldLock) (n : Nat)
  | add (n : Nat)
  | die
  | record
  | leave
  deriving DecidableEq

namespace Stmt

/-- `kmalloc`, and `kfree` of a block. -/
def heapCall : List Stmt := [.lock .kheap, .unlock .kheap]

/-- `hash_table_remove` of an entry that exists. -/
def hashTableRemove : List Stmt := heapCall ++ heapCall

/-- The body of the waiting loops. `process_wait` stores its node instead of appending it. -/
def blockOn (l : YieldLock) : List Stmt :=
  (match l with
  | .process _ => []
  | _ => [.append l]) ++ [.mark, .unlock l, .yield, .lock l, .test l]

/-- `mutex_lock`. -/
def mutexLock (m : Nat) : List Stmt := [.lock (.mutex m), .test (.mutex m), .unlock (.mutex m)]

/-- `mutex_unlock`. -/
def mutexUnlock (m : Nat) : List Stmt := [.lock (.mutex m), .holdNo m, .wake (.mutex m), .unlock (.mutex m)]

/-- `cond_var_wait`. -/
def condVarWait (c : Nat) : List Stmt := [.lock (.cond c), .test (.cond c), .unlock (.cond c)]

/-- `cond_var_notify`. -/
def condVarNotify (c : Nat) : List Stmt := [.wake (.cond c)]

/-- `cond_var_notify` as it is called, with the lock of the condition variable held. -/
def notifyLocked (c : Nat) : List Stmt := [.lock (.cond c)] ++ condVarNotify c ++ [.unlock (.cond c)]

/-- `add_dead_task`. -/
def addDeadTask : List Stmt :=
  [.lock deadResourceLock] ++ heapCall ++ [.record] ++ condVarNotify deadResourceCv ++ [.unlock deadResourceLock]

/-- `add_dead_process`, without the list of dead processes. -/
def addDeadProcess : List Stmt :=
  [.lock deadResourceLock] ++ heapCall ++ condVarNotify deadResourceCv ++ [.unlock deadResourceLock]

/-- `process_wait`. -/
def processWait (p : Nat) : List Stmt :=
  [.lock (.process p), .check p, .test (.process p)] ++ hashTableRemove ++ [.unlock (.process p)] ++ addDeadProcess

/-- `remove_process_thread`. -/
def removeProcessThread (p : Nat) : List Stmt := [.lock (.process p)] ++ hashTableRemove ++ [.unlock (.process p)]

/-- `schedule_thread_exit`, of a thread of a process or of one without. -/
def scheduleThreadExit (p : Option Nat) : List Stmt :=
  (p.map removeProcessThread).getD [] ++ [.die] ++ addDeadTask ++ [.leave]

end Stmt

/-- The functions that a thread may call. -/
inductive Call where
  | mutexLock (m : Nat)
  | mutexUnlock (m : Nat)
  | condVarWait (c : Nat)
  | notifyLocked (c : Nat)
  | processWait (p : Nat)
  | scheduleThreadExit (p : Option Nat)
  | heapCall

def Call.body : Call → List Stmt
  | mutexLock m => Stmt.mutexLock m
  | mutexUnlock m => Stmt.mutexUnlock m
  | condVarWait c => Stmt.condVarWait c
  | notifyLocked c => Stmt.notifyLocked c
  | processWait p => Stmt.processWait p
  | scheduleThreadExit p => Stmt.scheduleThreadExit p
  | heapCall => Stmt.heapCall

/-- The scheduler, the locks with their holders, `hold` of the mutexes, the code of the
threads, and the threads that have been appended to `dead_tasks`. -/
structure KernelThreads where
  sched : Scheduler YieldLock Nat
  holder : YieldLock → Option Nat
  hold : Nat → Bool
  code : Nat → List Stmt
  deadTasks : List Nat

namespace KernelThreads

/-- The idle thread runs, and there is no other thread. -/
def start : KernelThreads where
  sched := ⟨⟨⟨fun _ => none, fun _ => none⟩, fun _ => .init⟩, fun t => if t = 0 then some .running else none, 0, 0⟩
  holder := fun _ => none
  hold := fun _ => false
  code := fun _ => []
  deadTasks := []

def crt (k : KernelThreads) : Nat := k.sched.crt

/-- The current thread goes on with some code. -/
def goto (k : KernelThreads) (code : List Stmt) : KernelThreads := { k with code := update k.code k.crt code }

/-- The condition of a waiting loop holds. For a mutex this is `atomic_exchange`; the
predicate of a condition variable and the children of a process are not modelled. -/
def passes (k : KernelThreads) (l : YieldLock) (answer : Bool) : Bool :=
  match l with
  | .mutex m => !k.hold m
  | _ => answer

/-- `hold` is set by the `atomic_exchange` in any case. -/
def exchange (k : KernelThreads) (l : YieldLock) : Nat → Bool :=
  match l with
  | .mutex m => update k.hold m true
  | _ => k.hold

/-- One statement of the current thread, with the rest of its code. -/
def exec (k : KernelThreads) (answer : Bool) (rest : List Stmt) : Stmt → Option KernelThreads
  | .lock l => match k.holder l with
    | none => some { k.goto rest with holder := update k.holder l (some k.crt) }
    | some _ => k.sched.threadYield.map fun sched => { k with sched := sched }
  | .unlock l => some { k.goto rest with holder := update k.holder l none }
  | .check p => some (k.goto (if answer then rest else [.unlock (.process p)]))
  | .test l => some { k.goto (if k.passes l answer then rest else Stmt.blockOn l ++ rest) with hold := k.exchange l }
  | .append l => some { k.goto rest with sched := k.sched.appendWaiting l }
  | .mark => some { k.goto rest with sched := k.sched.markThreadBlock }
  | .yield => k.sched.threadYield.map fun sched => { k.goto rest with sched := sched }
  | .holdNo m => some { k.goto rest with hold := update k.hold m false }
  | .wake l =>
    if (k.sched.queues.list (.waiting l)).size ≠ 0 then
      (k.sched.queues.list (.waiting l)).head.map fun n => k.goto (.remove l n :: .add n :: rest)
    else some (k.goto rest)
  | .remove l n => some { k.goto rest with sched := k.sched.removeWaiting l n }
  | .add n => some { k.goto rest with sched := k.sched.addThreadNode n }
  | .die => some { k.goto rest with sched := k.sched.markThreadDead }
  | .record => some { k.goto rest with deadTasks := k.crt :: k.deadTasks }
  | .leave => k.sched.doContextSwitch.map fun sched => { k.goto rest with sched := sched }

/-- A new thread is scheduled, the current thread calls a function or executes its next
statement, or the timer interrupts it. A thread that is blocked in `process_wait` is made
ready while the lock of the process is free. -/
inductive Action where
  | spawn (t : Nat)
  | call (f : Call)
  | run (answer : Bool)
  | preempt
  | wakeParent (t p : Nat)

/-- The lock of the first lock operation of some code. -/
def firstLock : List Stmt → Option YieldLock
  | [] => none
  | .lock l :: _ => some l
  | .unlock l :: _ => some l
  | _ :: rest => firstLock rest

def step (k : KernelThreads) : Action → Option KernelThreads
  | .spawn t => if k.sched.status t = none then some { k with sched := k.sched.addThreadNode t } else none
  | .call f =>
    if k.crt ≠ k.sched.main ∧ k.code k.crt = [] ∧ k.sched.status k.crt = some .running then some (k.goto f.body) else none
  | .run answer => match k.code k.crt with
    | [] => none
    | s :: rest => k.exec answer rest s
  | .preempt => k.sched.schedule.map fun sched => { k with sched := sched }
  | .wakeParent t p =>
    if t ≠ k.crt ∧ k.sched.status t = some .waiting ∧ firstLock (k.code t) = some (.process p) ∧
        k.holder (.process p) = none then
      some { k with sched := k.sched.addThreadNode t }
    else none

end KernelThreads

end LuckOS
