import LuckOS.BlockLedger
import LuckOS.ProcessPointers

/-!
# Heap blocks of processes

The processes are run with a ledger of the blocks that `create_process`, `process_fork`,
`process_wait`, `process_exit`, copy-on-write faults and the clean thread allocate and free.
`Conserved` says that all blocks of a child have been freed. The thread of a process has the name
of its process as its id.
-/

namespace LuckOS

open Function Runs

/-- The hash tables. -/
inductive TableName where
  | threads (p : Nat)
  | children (p : Nat)
  | exitChildren (p : Nat)
  | processesMap
  | frameCowRefCounts
  deriving DecidableEq

/-- The blocks of the heap. `buckets` is the array of a table, an entry has a block and a list node, and
`refCount` is the counter of a frame that a child shares with its parent. -/
inductive Block where
  | pcb (p : Nat)
  | stackIndexes (p : Nat)
  | tcb (p : Nat)
  | kernelStack (p : Nat)
  | threadNode (p : Nat)
  | deadTask (p : Nat)
  | deadProcess (p : Nat)
  | copiedPageDir (p : Nat)
  | copiedPageTable (p : Nat)
  | buckets (t : TableName)
  | entry (t : TableName) (key : Nat)
  | entryNode (t : TableName) (key : Nat)
  | refCount (p frame : Nat)
  deriving DecidableEq

/-- The process of a table. -/
def TableName.owner : TableName → Option Nat
  | threads p | children p | exitChildren p => some p
  | processesMap | frameCowRefCounts => none

/-- The process on behalf of which a block is allocated. -/
def Block.owner : Block → Option Nat
  | pcb p | stackIndexes p | tcb p | kernelStack p | threadNode p | deadTask p | deadProcess p | copiedPageDir p
  | copiedPageTable p | refCount p _ => some p
  | buckets t | entry t _ | entryNode t _ => t.owner

/-! ## Hash tables -/

namespace Ledger

variable {α : Type}

/-- The blocks of the entries, in the order in which they are freed. -/
def entryBlocks (t : TableName) (entries : List (Nat × α)) : List Block :=
  entries.flatMap fun kv => [.entry t kv.1, .entryNode t kv.1]

/-- `hash_table_put`. The table is expanded when the load passes three quarters. -/
def hashTablePut (l : Ledger Block) (t : TableName) (table : HashTable α) (key : Nat) : Ledger Block :=
  if table.contains key then l
  else
    let l := (l.kmalloc (.entry t key)).kmalloc (.entryNode t key)
    if 3 * table.bucketsNum < 4 * (table.size + 1) then (l.kmalloc (.buckets t)).kfree (.buckets t) else l

/-- `hash_table_remove`. -/
def hashTableRemove (l : Ledger Block) (t : TableName) (table : HashTable α) (key : Nat) : Ledger Block :=
  if table.contains key then (l.kfree (.entry t key)).kfree (.entryNode t key) else l

/-- `hash_table_clear`. -/
def hashTableClear (l : Ledger Block) (t : TableName) (table : HashTable α) : Ledger Block :=
  l.kfrees (entryBlocks t table.entries)

/-- `hash_table_destroy` of a table of processes. -/
def hashTableDestroy (l : Ledger Block) (t : TableName) (table : HashTable Nat) : Ledger Block :=
  (l.kfrees (table.entries.flatMap fun kv => [.pcb kv.2, .entry t kv.1, .entryNode t kv.1])).kfree (.buckets t)

end Ledger

/-- The processes with the tables of their threads, the counters of shared frames, `dead_tasks`, the threads that the
clean thread has destroyed, and the heap. -/
structure HeapLedger where
  pointers : ProcessPointers
  threads : Nat → HashTable Nat
  frameCowRefCounts : HashTable Int
  deadTasks : List Nat
  threadDestroyed : Nat → Bool
  heap : Ledger Block

namespace HeapLedger

def procs (k : HeapLedger) : Processes := k.pointers.procs

def onHeap (k : HeapLedger) (f : Ledger Block → Ledger Block) : HeapLedger := { k with heap := f k.heap }

/-- The blocks of `create_process` in front of `clone_crt_page_dir`. -/
def processBlocks (p : Nat) : List Block :=
  [.pcb p, .buckets (.threads p), .stackIndexes p, .buckets (.children p), .buckets (.exitChildren p)]

/-- The blocks of `fork_crt_thread`. -/
def threadBlocks (p : Nat) : List Block := [.tcb p, .kernelStack p]

/-- The blocks of the main process and of the first process. -/
def startBlocks : List Block :=
  [.buckets .processesMap, .buckets .frameCowRefCounts] ++ processBlocks 0 ++
    [.entry .processesMap 0, .entryNode .processesMap 0] ++ processBlocks 1 ++
    [.entry .processesMap 1, .entryNode .processesMap 1] ++ threadBlocks 1 ++
    [.entry (.threads 1) 1, .entryNode (.threads 1) 1, .threadNode 1]

/-- The main process and the first process, whose thread is running. -/
def start : HeapLedger where
  pointers := .start
  threads := update (fun _ => .init) 1 (HashTable.init.put 1 1).2
  frameCowRefCounts := .init
  deadTasks := []
  threadDestroyed := fun _ => false
  heap := Ledger.empty.kmallocs startBlocks

/-- `change_cow_frame_refcount`. The counter is not freed with its entry. -/
def changeCowFrameRefcount (k : HeapLedger) (p frame : Nat) (delta : Int) : HeapLedger :=
  let count := k.frameCowRefCounts.get frame
  let newCnt := count.getD 0 + delta
  if 0 < newCnt then
    let heap := if count = none then k.heap.kmalloc (.refCount p frame) else k.heap
    { k with
      frameCowRefCounts := (k.frameCowRefCounts.put frame newCnt).2
      heap := heap.hashTablePut .frameCowRefCounts k.frameCowRefCounts frame }
  else
    { k with
      frameCowRefCounts := (k.frameCowRefCounts.remove frame).2
      heap := k.heap.hashTableRemove .frameCowRefCounts k.frameCowRefCounts frame }

def changeRefcounts (k : HeapLedger) (p : Nat) (frames : List Nat) (delta : Int) : HeapLedger :=
  frames.foldl (fun k frame => k.changeCowFrameRefcount p frame delta) k

/-- `clone_crt_page_dir` for a child that shares the frames. -/
def cloneCrtPageDir (k : HeapLedger) (p : Nat) (frames : List Nat) : HeapLedger :=
  ((k.onHeap (·.kmallocs [.copiedPageDir p, .copiedPageTable p])).changeRefcounts p frames 1).onHeap
    (·.kfrees [.copiedPageDir p, .copiedPageTable p])

/-- `create_process`, and `add_new_process` once more. -/
def createProcess (k : HeapLedger) (procs : Processes) (p : Nat) (frames : List Nat) : HeapLedger :=
  let id := (procs.pcb p).id
  let processesMap := k.pointers.processesMap
  ((k.onHeap (·.kmallocs (processBlocks p))).cloneCrtPageDir p frames).onHeap fun l =>
    (l.hashTablePut .processesMap processesMap id).hashTablePut .processesMap
      (ProcessPointers.addNewProcess procs p processesMap) id

/-- `fork_crt_thread`, `add_process_thread` and `add_thread_to_schedule`. -/
def forkThread (k : HeapLedger) (p : Nat) : HeapLedger :=
  { k with
    threads := update k.threads p ((k.threads p).put p p).2
    heap := ((k.heap.kmallocs (threadBlocks p)).hashTablePut (.threads p) (k.threads p) p).kmalloc (.threadNode p) }

/-- The entry of the child that `process_wait` takes from `exit_children_processes`. -/
def takeExited (k : HeapLedger) (p pid : Nat) : HeapLedger :=
  let table := (k.procs.pcb p).exitChildren
  let key := if pid = 0 ∧ 0 < table.size then (table.iteratorNext HashTable.createIterator).1.map Prod.fst else some pid
  k.onHeap fun l => key.elim l (l.hashTableRemove (.exitChildren p) table)

/-- The thread is removed, and `release_process_resources` gives back the frames. -/
def exitOwn (k : HeapLedger) (p : Nat) (frames : List Nat) : HeapLedger :=
  let threads := ((k.threads p).remove p).2
  let heap := (k.heap.hashTableRemove (.threads p) (k.threads p) p).kfree (.stackIndexes p)
  let heap := (heap.hashTableClear (.threads p) threads).hashTableDestroy (.exitChildren p) (k.procs.pcb p).exitChildren
  ({ k with threads := update k.threads p threads.destroy, heap := heap } : HeapLedger).changeRefcounts p frames (-1)

/-- `add_dead_task`. -/
def addDeadTask (k : HeapLedger) (p : Nat) : HeapLedger :=
  { k with deadTasks := k.deadTasks ++ [p], heap := k.heap.kmalloc (.deadTask p) }

/-- The effect of the next step of the thread of a process. -/
def advance (k : HeapLedger) (p : Nat) (frames : List Nat) (procs : Processes) : HeapLedger :=
  match k.procs.pc p with
  | .forkCreate => k.createProcess procs k.procs.created frames
  | .forkAdd child =>
    k.onHeap (·.hashTablePut (.children p) (k.procs.pcb p).children (k.procs.pcb child).id)
  | .forkStart child => k.forkThread child
  | .waitEnter pid =>
    if 0 < pid ∧ (k.procs.pcb p).children.get pid = none then k else k.takeExited p pid
  | .waitAgain pid => k.takeExited p pid
  | .reap child => k.onHeap (·.kmalloc (.deadProcess child))
  | .exitOwn _ => k.exitOwn p frames
  | .exitParent =>
    (k.procs.pcb p).parent.elim k fun parent =>
      k.onHeap (·.hashTablePut (.exitChildren parent) (k.procs.pcb parent).exitChildren (k.procs.pcb p).id)
  | .exitRecord => k.addDeadTask p
  | .unborn | .user | .waitYield _ | .exitThread | .exitSwitch | .gone => k

/-- The effect of a step. `destroy_process` is followed by the release of the list node. -/
def effect (k : HeapLedger) (a : Processes.Action) (frames : List Nat) (procs : Processes) : HeapLedger :=
  match a with
  | .advance p => k.advance p frames procs
  | .destroy p => k.onHeap (·.kfrees [.pcb p, .deadProcess p])
  | .call .. | .wake _ => k

/-- The frames are those of the present user pages, which a fork shares and an exit gives back. A write of a process
that has not exited to a read-only page changes the counter of its frame. -/
inductive Action where
  | run (a : Processes.Action) (frames : List Nat)
  | fault (p frame : Nat)
  | destroyThread (p : Nat)

def step (k : HeapLedger) : Action → Option HeapLedger
  | .run a frames => (k.pointers.step a).map fun pointers => { k.effect a frames pointers.procs with pointers := pointers }
  | .fault p frame =>
    if k.procs.pc p ≠ .unborn ∧ (k.procs.pc p).ended = false then some (k.changeCowFrameRefcount p frame (-1)) else none
  | .destroyThread p =>
    if p ∈ k.deadTasks then
      some { k with
        deadTasks := k.deadTasks.erase p
        threadDestroyed := update k.threadDestroyed p true
        heap := k.heap.kfrees [.kernelStack p, .tcb p, .deadTask p] }
    else none

/-- The clean thread has destroyed a process and its thread. -/
def Over (k : HeapLedger) (c : Nat) : Prop := k.procs.destroyed c = true ∧ k.threadDestroyed c = true

/-- Every block of a process has been freed as often as it has been allocated. -/
def Conserved (k : HeapLedger) (c : Nat) : Prop :=
  ∀ b, b.owner = some c → k.heap.allocated.count b = k.heap.freed.count b

end HeapLedger

end LuckOS
