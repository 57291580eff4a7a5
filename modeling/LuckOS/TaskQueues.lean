import LuckOS.Runs
import LuckOS.Scheduler

/-!
# The task queues under interrupts

Threads yield, schedule new threads, read from the keyboard and exit, while the clean
thread waits for dead threads. Wherever interrupts are enabled, the timer or the keyboard
may interrupt the current thread. The keyboard handler moves the waiting readers to a
list of its own and makes them ready one by one. It enables interrupts on its way, so
that handlers are nested, and a thread may be switched out inside of a handler.
-/

namespace LuckOS

open Function Runs

/-- The waiting lists: that of `dead_resource_cv`, `waiting_tasks` of the keyboard, and the
lists `waiting_tasks_get` of the handlers. -/
inductive WaitList where
  | deadResource
  | keyboard
  | handler (i : Nat)
  deriving DecidableEq

/-- Where a thread is in the code of the kernel, outside of the handlers. A thread in `user`
may call a function. The last group is the loop of the clean thread. -/
inductive TaskPc where
  | user
  | yield
  | spawnAlloc (t : Nat)
  | spawnAdd (t : Nat)
  | readEnter
  | readChar
  | readYield
  | exitDetach
  | exitMark
  | exitLock
  | exitAlloc
  | exitRecord
  | exitNotify
  | exitTake (n : Nat)
  | exitAdd (n : Nat)
  | exitUnlock
  | exitSwitch
  | cleanLock
  | cleanTest
  | cleanSleep
  | cleanYield
  | cleanUnlock
  | cleanMove
  | cleanStrayUnlock
  | cleanDestroy
  | cleanNext
  deriving DecidableEq

/-- The functions that a thread may call. -/
inductive TaskCall where
  | threadYield
  | addThread (t : Nat)
  | readKeyboardChar
  | threadExit

def TaskCall.entry : TaskCall → TaskPc
  | threadYield => .yield
  | addThread t => .spawnAlloc t
  | readKeyboardChar => .readEnter
  | threadExit => .exitDetach

/-- The scheduler, the program counters, `preempt_count` of the threads, the interrupt flag,
the holder of `dead_resource_lock`, and `dead_tasks`. The handlers are numbered: `stack` are
those that interrupt a thread, `node` is the loop variable of a handler, and `adding` the
node it has unlinked and not yet made ready. The timer may ask for a switch at any tick. -/
structure TaskQueues where
  sched : Scheduler WaitList Nat
  pc : Nat → TaskPc
  preemptCount : Nat → Nat
  enabled : Bool
  deadLock : Option Nat
  deadTasks : List Nat
  stack : Nat → List Nat
  node : Nat → Option Nat
  adding : Nat → Option Nat
  handlers : Nat
  crashed : Bool

namespace TaskQueues

/-- The clean thread. -/
def clean : Nat := 1

/-- The idle thread runs; the clean thread and the first thread are ready. -/
def start : TaskQueues where
  sched := Scheduler.addThreadNode (Scheduler.addThreadNode
    ⟨⟨⟨fun _ => none, fun _ => none⟩, fun _ => .init⟩, fun t => if t = 0 then some .running else none, 0, 0⟩ clean) 2
  pc := fun t => if t = clean then .cleanLock else .user
  preemptCount := fun _ => 0
  enabled := true
  deadLock := none
  deadTasks := []
  stack := fun _ => []
  node := fun _ => none
  adding := fun _ => none
  handlers := 0
  crashed := false

def crt (k : TaskQueues) : Nat := k.sched.crt

def goto (k : TaskQueues) (pc : TaskPc) : TaskQueues := { k with pc := update k.pc k.crt pc }

/-- The end of a switch: the thread that is resumed enables interrupts. Without a ready task
a null pointer is followed. -/
def resume (k : TaskQueues) (r : Option (Scheduler WaitList Nat)) : TaskQueues :=
  match r with
  | none => { k with crashed := true }
  | some sched => { k with sched := sched, enabled := true }

/-- `schedule_thread_yield`. -/
def threadYield (k : TaskQueues) : TaskQueues := k.resume k.sched.threadYield

/-- `schedule` for a thread that is to be rescheduled. -/
def schedule (k : TaskQueues) : TaskQueues :=
  if 0 < k.preemptCount k.crt then { k with enabled := true } else k.resume k.sched.schedule

/-- A yieldlock whose contention is not modelled: with `answer` it is free. -/
def tryLock (k : TaskQueues) (answer : Bool) (pc : TaskPc) : TaskQueues :=
  if answer then k.goto pc else k.threadYield

/-- `yieldlock_lock(&dead_resource_lock)`. -/
def lockDead (k : TaskQueues) (pc : TaskPc) : TaskQueues :=
  match k.deadLock with
  | none => { k.goto pc with deadLock := some k.crt }
  | some _ => k.threadYield

def setPreempt (k : TaskQueues) (n : Nat) : TaskQueues := { k with preemptCount := update k.preemptCount k.crt n }

/-- `read_keyboard_char` with interrupts disabled: a character is returned, or the thread is
linked into `waiting_tasks` and marked as blocked. -/
def readKeyboard (k : TaskQueues) (answer : Bool) : TaskQueues :=
  let k := k.setPreempt (k.preemptCount k.crt - 1)
  if answer then k.goto .user
  else { k.goto .readYield with sched := (k.sched.appendWaiting .keyboard).markThreadBlock }

/-- `cond_var_notify(&dead_resource_cv)`, up to the choice of the head. -/
def notify (k : TaskQueues) : TaskQueues :=
  if (k.sched.queues.list (.waiting .deadResource)).size ≠ 0 then
    match (k.sched.queues.list (.waiting .deadResource)).head with
    | none => { k with crashed := true }
    | some n => k.goto (.exitTake n)
  else k.goto .exitUnlock

/-- One step of the current thread outside of the handlers. -/
def exec (k : TaskQueues) (answer : Bool) : TaskPc → Option TaskQueues
  | .user => none
  | .yield => some (k.goto .user).threadYield
  | .spawnAlloc t => some (k.tryLock answer (.spawnAdd t))
  | .spawnAdd t =>
    if k.sched.status t = none then some { k.goto .user with sched := k.sched.addThreadNode t, enabled := true } else none
  | .readEnter => some ((k.setPreempt (k.preemptCount k.crt + 1)).goto .readChar)
  | .readChar => some (k.readKeyboard answer)
  | .readYield => some (k.goto .readEnter).threadYield
  | .exitDetach => some (k.tryLock answer .exitMark)
  | .exitMark => some { k.goto .exitLock with sched := k.sched.markThreadDead }
  | .exitLock => some (k.lockDead .exitAlloc)
  | .exitAlloc => some (k.tryLock answer .exitRecord)
  | .exitRecord => some { k.goto .exitNotify with deadTasks := k.deadTasks ++ [k.crt] }
  | .exitNotify => some k.notify
  | .exitTake n => some { k.goto (.exitAdd n) with sched := k.sched.removeWaiting .deadResource n }
  | .exitAdd n => some { k.goto .exitUnlock with sched := k.sched.addThreadNode n, enabled := true }
  | .exitUnlock => some { k.goto .exitSwitch with deadLock := none }
  | .exitSwitch => some (k.resume k.sched.doContextSwitch)
  | .cleanLock => some (k.lockDead .cleanTest)
  | .cleanTest => some (k.goto (if k.deadTasks ≠ [] ∨ answer then .cleanUnlock else .cleanSleep))
  | .cleanSleep => some { k.goto .cleanYield with
      sched := (k.sched.appendWaiting .deadResource).markThreadBlock, deadLock := none }
  | .cleanYield => some (k.goto .cleanLock).threadYield
  | .cleanUnlock => some { k.goto .cleanMove with deadLock := none }
  | .cleanMove => some { k.goto .cleanStrayUnlock with deadTasks := [] }
  | .cleanStrayUnlock => some { k.goto .cleanDestroy with deadLock := none }
  | .cleanDestroy => some (k.tryLock answer .cleanNext)
  | .cleanNext => some (k.goto .cleanLock).threadYield

/-- One step of the handler `i` that runs on the stack of the current thread. At its end
interrupts are enabled, and `schedule` is called. -/
def handle (k : TaskQueues) (i : Nat) (rest : List Nat) : TaskQueues :=
  match k.adding i with
  | some n => { k with sched := k.sched.addThreadNodeHead n, adding := update k.adding i none, enabled := true }
  | none => match k.node i with
    | some n => { k with
        sched := k.sched.removeWaiting (.handler i) n
        node := update k.node i (k.sched.queues.links.next n)
        adding := update k.adding i (some n) }
    | none => if k.enabled then { k with stack := update k.stack k.crt rest }.schedule else { k with enabled := true }

/-- An interrupt with a handler that has nothing to wake, such as that of the timer. -/
def timer (k : TaskQueues) : TaskQueues :=
  { k with
    stack := update k.stack k.crt (k.handlers :: k.stack k.crt)
    handlers := k.handlers + 1
    enabled := false }

/-- The first part of `keyboard_interrupt_handler`, with interrupts disabled. -/
def keyboard (k : TaskQueues) : TaskQueues :=
  { k.timer with
    sched := { k.sched with queues := k.sched.queues.move (.waiting (.handler k.handlers)) (.waiting .keyboard) }
    node := update k.node k.handlers (k.sched.queues.list (.waiting .keyboard)).head }

inductive Action where
  | call (f : TaskCall)
  | run (answer : Bool)
  | timer
  | keyboard

def step (k : TaskQueues) : Action → Option TaskQueues
  | .call f =>
    if ¬ k.crashed ∧ k.crt ≠ k.sched.main ∧ k.stack k.crt = [] ∧ k.pc k.crt = .user then some (k.goto f.entry) else none
  | .run answer =>
    if k.crashed then none
    else match k.stack k.crt with
      | [] => k.exec answer (k.pc k.crt)
      | i :: rest => some (k.handle i rest)
  | .timer => if ¬ k.crashed ∧ k.enabled then some k.timer else none
  | .keyboard => if ¬ k.crashed ∧ k.enabled then some k.keyboard else none

end TaskQueues

end LuckOS
