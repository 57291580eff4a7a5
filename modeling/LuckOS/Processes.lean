import LuckOS.Runs
import LuckOS.HashTable
import LuckOS.IdPool

/-!
# The processes of `task/process.c`

Every process has one thread, and both have the same name. A section under the lock of a
process is one step. A thread that is not blocked may take its next step at any time, and a
thread may also be woken without a reason. Freed structs keep their contents, and their
names are not used again; the pids of destroyed processes are.
-/

namespace LuckOS

open Function Runs

/-- The fields of `pcb_t` that the functions use. The first process has no parent. -/
structure Pcb where
  id : Nat
  parent : Option Nat
  exited : Bool
  exitCode : Int
  children : HashTable Nat
  exitChildren : HashTable Nat
  waitingChildPid : Nat
  waitingThreadNode : Option Nat

/-- Where the thread of a process is. A thread in `user` may call a function; `unborn` is not
yet scheduled, and `gone` has been switched out for good. -/
inductive ProcessPc where
  | unborn
  | user
  | forkCreate
  | forkAdd (child : Nat)
  | forkStart (child : Nat)
  | waitEnter (pid : Nat)
  | waitYield (pid : Nat)
  | waitAgain (pid : Nat)
  | reap (child : Nat)
  | exitOwn (code : Int)
  | exitParent
  | exitThread
  | exitRecord
  | exitSwitch
  | gone
  deriving DecidableEq

/-- The system calls. -/
inductive ProcessCall where
  | fork
  | wait (pid : Nat)
  | exit (code : Int)

def ProcessCall.entry : ProcessCall → ProcessPc
  | fork => .forkCreate
  | wait pid => .waitEnter pid
  | exit code => .exitOwn code

/-- A successful `process_wait`: who called it, for which pid, the child that was collected,
and the status that was stored. -/
structure Collected where
  parent : Nat
  pid : Nat
  child : Nat
  status : Int

/-- The processes, the pool of their ids, and `dead_processes`. A thread is blocked between
its mark as `TASK_WAITING` and its wake-up. The last three fields record the arguments of
`process_exit`, the successful calls of `process_wait`, and the destroyed processes. -/
structure Processes where
  pcb : Nat → Pcb
  created : Nat
  pool : IdPool
  pc : Nat → ProcessPc
  blocked : Nat → Bool
  deadProcesses : List Nat
  passed : Nat → Option Int
  log : List Collected
  destroyed : Nat → Bool

namespace Processes

/-- `create_process`, up to the parent. -/
def newPcb (id : Nat) : Pcb := ⟨id, none, false, 0, .init, .init, 0, none⟩

/-- The main process, and the first process, whose thread is in `user`. -/
def start : Processes where
  pcb := fun p => newPcb p
  created := 2
  pool := ((IdPool.init 1024 16384).setId 0).setId 1
  pc := fun p => if p = 1 then .user else .unborn
  blocked := fun _ => false
  deadProcesses := []
  passed := fun _ => none
  log := []
  destroyed := fun _ => false

def setPcb (k : Processes) (p : Nat) (x : Pcb) : Processes := { k with pcb := update k.pcb p x }

@[simp] theorem setPcb_self (k : Processes) (p : Nat) (x : Pcb) : (k.setPcb p x).pcb p = x := update_self ..

theorem setPcb_of_ne (k : Processes) {p q : Nat} (x : Pcb) (h : q ≠ p) : (k.setPcb p x).pcb q = k.pcb q :=
  update_of_ne h ..

/-- A part of the fields that is not changed. -/
theorem setPcb_apply {β : Type} (f : Pcb → β) (k : Processes) {p : Nat} (x : Pcb) (h : f x = f (k.pcb p)) (q : Nat) :
    f ((k.setPcb p x).pcb q) = f (k.pcb q) := by
  by_cases hq : q = p
  · rw [hq, setPcb_self, h]
  · rw [setPcb_of_ne k x hq]

def goto (k : Processes) (p : Nat) (pc : ProcessPc) : Processes := { k with pc := update k.pc p pc }

/-- `add_thread_node_to_schedule` for a blocked thread. A null node has no thread. -/
def wake (k : Processes) : Option Nat → Processes
  | none => k
  | some n => { k with blocked := update k.blocked n false }

/-- The test of the loop of `process_wait`: the child that is taken from
`exit_children_processes`. -/
def takeExited (exitChildren : HashTable Nat) (pid : Nat) : Option Nat × HashTable Nat :=
  if pid = 0 ∧ 0 < exitChildren.size then
    match (exitChildren.iteratorNext HashTable.createIterator).1 with
    | some kv => exitChildren.remove kv.1
    | none => (none, exitChildren)
  else exitChildren.remove pid

/-- One round of the loop of `process_wait`, up to the unlock. -/
def waitRound (k : Processes) (p pid : Nat) : Processes :=
  match takeExited (k.pcb p).exitChildren pid with
  | (some child, exitChildren) =>
    { (k.setPcb p { k.pcb p with exitChildren := exitChildren }).goto p (.reap child) with
      log := k.log ++ [⟨p, pid, child, (k.pcb child).exitCode⟩] }
  | (none, exitChildren) =>
    { (k.setPcb p { k.pcb p with exitChildren := exitChildren, waitingThreadNode := some p }).goto p (.waitYield pid) with
      blocked := update k.blocked p true }

/-- `process_wait` up to the first unlock. -/
def waitEnter (k : Processes) (p pid : Nat) : Processes :=
  if 0 < pid ∧ (k.pcb p).children.get pid = none then k.goto p .user
  else (k.setPcb p { k.pcb p with waitingChildPid := if 0 < pid then pid else (k.pcb p).id }).waitRound p pid

/-- `create_process` in `process_fork`. -/
def forkCreate (k : Processes) (p : Nat) : Option Processes :=
  k.pool.allocateId.map fun (id, pool) =>
    { (k.setPcb k.created (newPcb id)).goto p (.forkAdd k.created) with pool := pool, created := k.created + 1 }

/-- `add_child_process`. -/
def addChild (k : Processes) (p child : Nat) : Processes :=
  let k := k.setPcb child { k.pcb child with parent := some p }
  k.setPcb p { k.pcb p with children := ((k.pcb p).children.put (k.pcb child).id child).2 }

/-- The section of `process_exit` under the lock of the process, with one thread. -/
def exitOwn (k : Processes) (p : Nat) (code : Int) : Processes :=
  k.setPcb p { k.pcb p with exitCode := code, exited := true, exitChildren := (k.pcb p).exitChildren.destroy }

/-- `process_exit` wakes the parent. -/
def Notifies (parent : Pcb) (id : Nat) : Prop := parent.waitingChildPid = id ∨ parent.waitingChildPid = parent.id

instance (parent : Pcb) (id : Nat) : Decidable (Notifies parent id) := inferInstanceAs (Decidable (_ ∨ _))

/-- The section of `process_exit` under the lock of the parent. -/
def exitParent (k : Processes) (p parent : Nat) : Processes :=
  let id := (k.pcb p).id
  let x := k.pcb parent
  let k := k.setPcb parent { x with exitChildren := (x.exitChildren.put id p).2 }
  if Notifies x id then k.wake x.waitingThreadNode else k

/-- The next step of the thread of a process. -/
def advance (k : Processes) (p : Nat) : Option Processes :=
  match k.pc p with
  | .unborn | .user | .gone => none
  | .forkCreate => k.forkCreate p
  | .forkAdd child => some ((k.addChild p child).goto p (.forkStart child))
  | .forkStart child => some ((k.goto child .user).goto p .user)
  | .waitEnter pid => some (k.waitEnter p pid)
  | .waitYield pid => some (k.goto p (.waitAgain pid))
  | .waitAgain pid => if k.blocked p then none else some (k.waitRound p pid)
  | .reap child => some { k.goto p .user with deadProcesses := k.deadProcesses ++ [child] }
  | .exitOwn code => some ((k.exitOwn p code).goto p .exitParent)
  | .exitParent => (k.pcb p).parent.map fun parent => (k.exitParent p parent).goto p .exitThread
  | .exitThread => some (k.goto p .exitRecord)
  | .exitRecord => some (k.goto p .exitSwitch)
  | .exitSwitch => some (k.goto p .gone)

/-- `destroy_process`, by the clean thread. -/
def destroyProcess (k : Processes) (p : Nat) : Processes :=
  { k with
    pool := k.pool.freeId (k.pcb p).id
    deadProcesses := k.deadProcesses.erase p
    destroyed := update k.destroyed p true }

def call (k : Processes) (p : Nat) (f : ProcessCall) : Processes :=
  match f with
  | .exit code => { k.goto p f.entry with passed := update k.passed p (some code) }
  | _ => k.goto p f.entry

inductive Action where
  | call (p : Nat) (f : ProcessCall)
  | advance (p : Nat)
  | destroy (p : Nat)
  | wake (p : Nat)

def step (k : Processes) : Action → Option Processes
  | .call p f => if k.pc p = .user then some (k.call p f) else none
  | .advance p => k.advance p
  | .destroy p => if p ∈ k.deadProcesses then some (k.destroyProcess p) else none
  | .wake p => some (k.wake (some p))

end Processes

end LuckOS
