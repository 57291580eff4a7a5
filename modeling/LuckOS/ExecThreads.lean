import LuckOS.Runs
import LuckOS.HashTable
import LuckOS.Scheduler

/-!
# The threads of a process in `process_exec`

`process_exec` schedules a thread for the new program and exits its own, so that the process
has two threads for a while. `process_exit` returns if it finds two threads, and the next
`process_exec` frees all threads of the process but the current one. Both are right only if the
old thread has left the table of the threads by then.

Thread 0 is the idle thread. The names of threads are not used again. Calls of the hash table
are single steps, and so are the lock and the unlock of the process.
-/

namespace LuckOS

open Function Runs

/-- Where a thread of the process is. A `fresh` thread is not yet scheduled. The exit that
`process_exec` calls if it cannot load the program is marked. -/
inductive ExecPc where
  | unborn
  | fresh
  | user
  | execRemove
  | execDestroy
  | execLock
  | execInit
  | execUnlock
  | loadElf
  | addLock
  | addPut
  | addUnlock (new : Nat)
  | stackLock (new : Nat)
  | stackUnlock (new : Nat)
  | execSchedule (new : Nat)
  | detachLock
  | detachRemove
  | detachUnlock
  | exitLock (code : Int) (load : Bool)
  | exitCheck (code : Int) (load : Bool)
  | exitBack (load : Bool)
  | exitOwn (code : Int)
  | exitUnlock
  | exitParent
  | exitThread
  | exitRecord
  | exitSwitch
  | gone
  deriving DecidableEq

/-- The process with its lock and its threads, the table of the exited children of its parent,
and the scheduler. The last fields record the freed threads and the arguments of `process_exit`. -/
structure ExecThreads where
  sched : Scheduler Empty Nat
  pc : Nat → ExecPc
  created : Nat
  pid : Nat
  threads : HashTable Nat
  lock : Option Nat
  exited : Bool
  exitCode : Int
  exitChildren : HashTable Nat
  freed : Nat → Bool
  passed : Nat → Option Int
  crashed : Bool

namespace ExecThreads

/-- A process with one thread, which is ready. -/
def start : ExecThreads where
  sched := Scheduler.addThreadNode ⟨⟨⟨fun _ => none, fun _ => none⟩, fun _ => .init⟩,
    fun t => if t = 0 then some .running else none, 0, 0⟩ 1
  pc := fun t => if t = 1 then .user else .unborn
  created := 2
  pid := 2
  threads := (HashTable.init.put 1 1).2
  lock := none
  exited := false
  exitCode := 0
  exitChildren := .init
  freed := fun _ => false
  passed := fun _ => none
  crashed := false

def goto (k : ExecThreads) (t : Nat) (pc : ExecPc) : ExecThreads := { k with pc := update k.pc t pc }

/-- Behind a switch. -/
def resume (k : ExecThreads) : Option (Scheduler Empty Nat) → ExecThreads
  | none => { k with crashed := true }
  | some sched => { k with sched := sched }

/-- One round of `yieldlock_lock`. -/
def acquire (k : ExecThreads) (t : Nat) (pc : ExecPc) : ExecThreads :=
  match k.lock with
  | none => { k.goto t pc with lock := some t }
  | some _ => k.resume k.sched.threadYield

/-- `yieldlock_unlock`. -/
def release (k : ExecThreads) (t : Nat) (pc : ExecPc) : ExecThreads := { k.goto t pc with lock := none }

/-- `hash_table_destroy` of the threads, which frees the values. -/
def destroyThreads (k : ExecThreads) : ExecThreads :=
  { k with
    threads := k.threads.destroy
    freed := fun u => k.freed u || k.threads.entries.any (·.2 == u) }

/-- The next step of a thread. -/
def advance (k : ExecThreads) (t : Nat) : Option ExecThreads :=
  match k.pc t with
  | .unborn | .fresh | .user | .gone => none
  | .execRemove => some { k.goto t .execDestroy with threads := (k.threads.remove t).2 }
  | .execDestroy => some (k.destroyThreads.goto t .execLock)
  | .execLock => some (k.acquire t .execInit)
  | .execInit => some { k.goto t .execUnlock with threads := (HashTable.init.put t t).2 }
  | .execUnlock => some (k.release t .loadElf)
  | .loadElf => some (k.goto t .addLock)
  | .addLock => some (k.acquire t .addPut)
  | .addPut => some { (k.goto k.created .fresh).goto t (.addUnlock k.created) with
      threads := (k.threads.put k.created k.created).2
      created := k.created + 1 }
  | .addUnlock new => some (k.release t (.stackLock new))
  | .stackLock new => some (k.acquire t (.stackUnlock new))
  | .stackUnlock new => some (k.release t (.execSchedule new))
  | .execSchedule new => some { (k.goto new .user).goto t .detachLock with sched := k.sched.addThreadNode new }
  | .detachLock => some (k.acquire t .detachRemove)
  | .detachRemove => some { k.goto t .detachUnlock with threads := (k.threads.remove t).2 }
  | .detachUnlock => some (k.release t .exitThread)
  | .exitLock code load => some (k.acquire t (.exitCheck code load))
  | .exitCheck code load => some (k.goto t (if 1 < k.threads.size then .exitBack load else .exitOwn code))
  | .exitBack load => some (k.release t (if load then .addLock else .user))
  | .exitOwn code => some { k.goto t .exitUnlock with
      threads := (k.threads.remove t).2.destroy
      exited := true
      exitCode := code }
  | .exitUnlock => some (k.release t .exitParent)
  | .exitParent => some { k.goto t .exitThread with exitChildren := (k.exitChildren.put k.pid k.pid).2 }
  | .exitThread => some { k.goto t .exitRecord with sched := k.sched.markThreadDead }
  | .exitRecord => some (k.goto t .exitSwitch)
  | .exitSwitch => some ((k.goto t .gone).resume k.sched.doContextSwitch)

/-- The current thread calls `process_exit`. -/
def callExit (k : ExecThreads) (t : Nat) (code : Int) (load : Bool) : ExecThreads :=
  { k.goto t (.exitLock code load) with passed := update k.passed t (some code) }

/-- The current thread calls `process_exec` or `process_exit`, takes its next step, or fails to
load the program, or there is a timer interrupt. -/
inductive Action where
  | exec
  | exit (code : Int)
  | run
  | fail
  | timer

def step (k : ExecThreads) (a : Action) : Option ExecThreads :=
  if k.crashed then none
  else match a with
    | .exec => if k.pc k.sched.crt = .user then some (k.goto k.sched.crt .execRemove) else none
    | .exit code => if k.pc k.sched.crt = .user then some (k.callExit k.sched.crt code false) else none
    | .run => k.advance k.sched.crt
    | .fail => if k.pc k.sched.crt = .loadElf then some (k.callExit k.sched.crt (-1) true) else none
    | .timer => some (k.resume k.sched.schedule)

end ExecThreads

/-! ## Places -/

namespace ExecPc

inductive Phase where
  | hidden
  | live
  | dying
  deriving DecidableEq

/-- Not yet scheduled, scheduled, or behind `thread->status = TASK_DEAD`. -/
def phase : ExecPc → Phase
  | unborn | fresh => .hidden
  | exitRecord | exitSwitch | gone => .dying
  | _ => .live

/-- The thread is in the table of the process. -/
def listed : ExecPc → Bool
  | fresh | user | execRemove | execUnlock | loadElf | addLock | addPut | addUnlock _ | stackLock _ | stackUnlock _
  | execSchedule _ | detachLock | detachRemove | exitLock .. | exitCheck .. | exitBack _ | exitOwn _ => true
  | _ => false

/-- The thread that runs the program. -/
def active : ExecPc → Bool
  | fresh | user | execRemove | execDestroy | execLock | execInit | execUnlock | loadElf | addLock | addPut
  | exitLock .. | exitCheck .. | exitBack _ | exitOwn _ => true
  | _ => false

/-- `process_exec` has created the new thread, and has not yet removed its own from the table. -/
def detaching : ExecPc → Bool
  | addUnlock _ | stackLock _ | stackUnlock _ | execSchedule _ | detachLock | detachRemove => true
  | _ => false

/-- The thread has found no other thread. -/
def alone : ExecPc → Bool
  | execLock | execInit | execUnlock | loadElf | addLock | addPut | exitOwn _ => true
  | exitLock _ load | exitCheck _ load | exitBack load => load
  | _ => false

/-- The thread that is not yet scheduled. -/
def new : ExecPc → Option Nat
  | addUnlock n | stackLock n | stackUnlock n | execSchedule n => some n
  | _ => none

/-- The argument of `process_exit`. -/
def argument : ExecPc → Option Int
  | exitLock code _ | exitCheck code _ | exitOwn code => some code
  | _ => none

/-- The thread is in `process_exit` and does not return. -/
def exiting (code : Int) : ExecPc → Bool
  | exitLock c _ | exitCheck c _ | exitOwn c => c = code
  | exitUnlock | exitParent | exitThread | exitRecord | exitSwitch | gone => true
  | _ => false

/-- The thread is behind the section under the lock of the process. -/
def ended : ExecPc → Bool
  | exitUnlock | exitParent | exitThread | exitRecord | exitSwitch | gone => true
  | _ => false

/-- The thread is behind the section under the lock of the parent. -/
def delivered : ExecPc → Bool
  | exitThread | exitRecord | exitSwitch | gone => true
  | _ => false

/-- The next step depends on the other threads. -/
def sensitive : ExecPc → Bool
  | execDestroy | exitCheck .. => true
  | _ => false

theorem listed_cases {p : ExecPc} (h : p.listed = true) : p.active = true ∨ p.detaching = true := by
  cases p <;> simp_all [listed, active, detaching]

theorem active_of_alone {p : ExecPc} (h : p.alone = true) : p.active = true := by
  cases p <;> simp_all [alone, active]

theorem detaching_of_new {p : ExecPc} {n : Nat} (h : p.new = some n) : p.detaching = true := by
  cases p <;> simp_all [new, detaching]

theorem not_detaching {p : ExecPc} (h : p.active = true) : p.detaching = false := by
  cases p <;> simp_all [active, detaching]

end ExecPc

end LuckOS
