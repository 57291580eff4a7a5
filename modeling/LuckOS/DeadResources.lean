import LuckOS.LinkedList
import LuckOS.Runs

/-!
# Dead threads and processes on their way to the clean thread

`add_dead_task` and `add_dead_process` append to two lists under `dead_resource_lock`. The clean thread waits
in `cond_var_wait`, which returns with the lock released, moves both lists to its own, and then releases
the lock that it does not hold. All of this is interleaved at the loads and stores of the fields of the
lists and of their nodes.
-/

namespace LuckOS

open Function Runs

namespace DeadResources

/-- The two kinds of dead resources. -/
inductive Kind where
  | task
  | process
  deriving DecidableEq

/-- `dead_tasks` and `dead_processes`, and the lists of the clean thread that receive them. -/
inductive DeadList where
  | dead (k : Kind)
  | receiver (k : Kind)
  deriving DecidableEq

/-- The next access of `linked_list_append`, with the local variable that it has loaded. -/
inductive AppendStage where
  | setNext
  | testSize
  | firstPrev
  | firstHead
  | firstTail
  | loadTail
  | linkTail (tail : Option Nat)
  | linkPrev (tail : Option Nat)
  | setTail
  | loadSize
  | storeSize (size : Nat)

/-- The next access of `linked_list_move`. -/
inductive MoveStage where
  | head
  | tail
  | size
  | clearHead
  | clearTail
  | clearSize

/-- How far a thread has come in `add_dead_task` or `add_dead_process`. -/
inductive Producer where
  | outside
  | lock (k : Kind) (resource : Nat)
  | kmalloc (k : Kind) (resource : Nat)
  | setPtr (k : Kind) (resource node : Nat)
  | append (k : Kind) (resource node : Nat) (stage : AppendStage)
  | notify
  | unlock

/-- How far `kernel_clean_thread` has come; the first seven are in `cond_var_wait`. -/
inductive Cleaner where
  | lock
  | testProcesses
  | testTasks
  | wait
  | unlockWaiting
  | yield
  | unlockWait
  | move (k : Kind) (stage : MoveStage)
  | unlock
  | clean (k : Kind)

inductive Thread where
  | producer (t : Nat)
  | cleaner
  deriving DecidableEq

/-- The section between `yieldlock_lock` and `yieldlock_unlock`. -/
def Producer.inside : Producer → Bool
  | outside | lock .. => false
  | _ => true

/-- The sections of the clean thread: those in `cond_var_wait`, in which it holds the lock. -/
def Cleaner.holds : Cleaner → Bool
  | testProcesses | testTasks | wait | unlockWaiting | unlockWait => true
  | _ => false

/-- The section from the return of `cond_var_wait` to the unlock. -/
def Cleaner.unprotected : Cleaner → Bool
  | move .. | unlock => true
  | _ => false

/-- The clean thread has moved the list of a kind and not yet emptied it. -/
def Cleaner.received : Cleaner → Kind → Bool
  | move .process _, .task | unlock, _ | clean .task, _ | clean .process, .process => true
  | _, _ => false

end DeadResources

open DeadResources

/-- The lists with their nodes, `dead_resource_lock` with the thread that has acquired it, whether the clean
thread is in the waiting queue of `dead_resource_cv`, and the code of the threads. The last three fields
record what was appended and destroyed, and whether a thread has released a lock that it did not hold. -/
structure DeadResources where
  queues : Queues DeadList Nat
  ptr : Nat → Nat
  inUse : Nat → Bool
  holder : Option Thread
  waiting : Bool
  producer : Nat → Producer
  cleaner : Cleaner
  appended : Kind → List Nat
  destroyed : Kind → List Nat
  foreignUnlock : Bool

namespace DeadResources

/-- A call of `add_dead_task` or `add_dead_process`, the next access of a thread, and a `kmalloc` with the
node that it returns. -/
inductive Action where
  | call (t : Nat) (k : Kind) (resource : Nat)
  | kmalloc (t node : Nat)
  | produce (t : Nat)
  | clean

def start (links : Links Nat) (ptr : Nat → Nat) : DeadResources where
  queues := ⟨links, fun _ => .init⟩
  ptr := ptr
  inUse := fun _ => false
  holder := none
  waiting := false
  producer := fun _ => .outside
  cleaner := .lock
  appended := fun _ => []
  destroyed := fun _ => []
  foreignUnlock := false

def goto (s : DeadResources) (t : Nat) (p : Producer) : DeadResources :=
  { s with producer := update s.producer t p }

/-- `yieldlock_unlock`. -/
def unlock (s : DeadResources) (x : Thread) : DeadResources :=
  { s with holder := none, foreignUnlock := s.foreignUnlock || decide (s.holder ≠ some x) }

/-- The store to the fields of a list. -/
def setList (q : Queues DeadList Nat) (i : DeadList) (l : LinkedList Nat) : Queues DeadList Nat :=
  { q with list := update q.list i l }

/-- One access of `linked_list_append`, and the next one. -/
def appendStep (q : Queues DeadList Nat) (i : DeadList) (node : Nat) :
    AppendStage → Queues DeadList Nat × Option AppendStage
  | .setNext => ({ q with links := q.links.setNext (some node) none }, some .testSize)
  | .testSize => (q, some (if (q.list i).size = 0 then .firstPrev else .loadTail))
  | .firstPrev => ({ q with links := q.links.setPrev (some node) none }, some .firstHead)
  | .firstHead => (setList q i { q.list i with head := some node }, some .firstTail)
  | .firstTail => (setList q i { q.list i with tail := some node }, some .loadSize)
  | .loadTail => (q, some (.linkTail (q.list i).tail))
  | .linkTail tail => ({ q with links := q.links.setNext tail (some node) }, some (.linkPrev tail))
  | .linkPrev tail => ({ q with links := q.links.setPrev (some node) tail }, some .setTail)
  | .setTail => (setList q i { q.list i with tail := some node }, some .loadSize)
  | .loadSize => (q, some (.storeSize (q.list i).size))
  | .storeSize size => (setList q i { q.list i with size := size + 1 }, none)

/-- One access of `linked_list_move`, and the next one. -/
def moveStep (q : Queues DeadList Nat) (dst src : DeadList) :
    MoveStage → Queues DeadList Nat × Option MoveStage
  | .head => (setList q dst { q.list dst with head := (q.list src).head }, some .tail)
  | .tail => (setList q dst { q.list dst with tail := (q.list src).tail }, some .size)
  | .size => (setList q dst { q.list dst with size := (q.list src).size }, some .clearHead)
  | .clearHead => (setList q src { q.list src with head := none }, some .clearTail)
  | .clearTail => (setList q src { q.list src with tail := none }, some .clearSize)
  | .clearSize => (setList q src { q.list src with size := 0 }, none)

/-- The next access of a thread in `add_dead_task` or `add_dead_process`. A thread that finds the lock taken
tries again. -/
def produce (s : DeadResources) (t : Nat) : Producer → Option DeadResources
  | .outside | .kmalloc .. => none
  | .lock k resource =>
    some (if s.holder = none then { s.goto t (.kmalloc k resource) with
      holder := some (.producer t) } else s)
  | .setPtr k resource node =>
    some { s.goto t (.append k resource node .setNext) with ptr := update s.ptr node resource }
  | .append k resource node stage =>
    match appendStep s.queues (.dead k) node stage with
    | (q, some stage) => some { s.goto t (.append k resource node stage) with queues := q }
    | (q, none) => some { s.goto t .notify with
        queues := q
        appended := update s.appended k (s.appended k ++ [resource]) }
  | .notify => some { s.goto t .unlock with waiting := false }
  | .unlock => some ((s.goto t .outside).unlock (.producer t))

/-- The code behind a completed `linked_list_move`. -/
def afterMove : Kind → Cleaner
  | .task => .move .process .head
  | .process => .unlock

/-- The code behind an emptied list. -/
def afterClean : Kind → Cleaner
  | .task => .clean .process
  | .process => .lock

/-- The next access of the clean thread; a node is removed, its resource destroyed and the node freed in one
step. -/
def clean (s : DeadResources) : Cleaner → Option DeadResources
  | .lock => some (if s.holder = none
    then { s with cleaner := .testProcesses, holder := some .cleaner } else s)
  | .testProcesses =>
    some { s with cleaner := if 0 < (s.queues.list (.dead .process)).size then .unlockWait else .testTasks }
  | .testTasks => some { s with
    cleaner := if 0 < (s.queues.list (.dead .task)).size then .unlockWait else .wait }
  | .wait => some { s with cleaner := .unlockWaiting, waiting := true }
  | .unlockWaiting => some { s.unlock .cleaner with cleaner := .yield }
  | .yield => if s.waiting then none else some { s with cleaner := .lock }
  | .unlockWait => some { s.unlock .cleaner with cleaner := .move .task .head }
  | .move k stage =>
    match moveStep s.queues (.receiver k) (.dead k) stage with
    | (q, some stage) => some { s with queues := q, cleaner := .move k stage }
    | (q, none) => some { s with queues := q, cleaner := afterMove k }
  | .unlock => some { s.unlock .cleaner with cleaner := .clean .task }
  | .clean k =>
    if 0 < (s.queues.list (.receiver k)).size then
      (s.queues.list (.receiver k)).head.map fun node =>
        { s with
          queues := s.queues.remove (.receiver k) node
          destroyed := update s.destroyed k (s.destroyed k ++ [s.ptr node])
          inUse := update s.inUse node false }
    else some { s with cleaner := afterClean k }

def step (s : DeadResources) : Action → Option DeadResources
  | .call t k resource =>
    match s.producer t with
    | .outside => some (s.goto t (.lock k resource))
    | _ => none
  | .kmalloc t node =>
    match s.producer t with
    | .kmalloc k resource =>
      if s.inUse node then none
      else some { s.goto t (.setPtr k resource node) with inUse := update s.inUse node true }
    | _ => none
  | .produce t => s.produce t (s.producer t)
  | .clean => s.clean s.cleaner

/-- At most one thread is in a section that touches the lists. -/
def Exclusive (s : DeadResources) : Prop :=
  (∀ t u, (s.producer t).inside = true → (s.producer u).inside = true → t = u) ∧
    ∀ t, (s.producer t).inside = true → s.cleaner.holds = false ∧ s.cleaner.unprotected = false

/-- No thread is between the accesses of `linked_list_append` or `linked_list_move`. -/
def Quiet (s : DeadResources) : Prop :=
  (∀ t k resource node stage, s.producer t ≠ .append k resource node stage) ∧ ∀ k stage,
    s.cleaner ≠ .move k stage

/-- What was appended has been destroyed, in this order, or is in the lists, once each. -/
structure Accounted (s : DeadResources) : Prop where
  destroyed : ∀ k, s.destroyed k <+: s.appended k
  kept : s.Quiet → ∃ q, s.queues.Represents q ∧ ∀ k,
    s.appended k = s.destroyed k ++ (q (.receiver k)).map s.ptr ++ (q (.dead k)).map s.ptr

/-- A producer acquires the lock. -/
def acquires (s : DeadResources) : Action → Bool
  | .produce t =>
    match s.producer t with
    | .lock .. => s.holder.isNone
    | _ => false
  | _ => false

/-- The clean thread releases the lock behind the moves. -/
def releases (s : DeadResources) : Action → Bool
  | .clean =>
    match s.cleaner with
    | .unlock => true
    | _ => false
  | _ => false

/-- No producer acquires the lock while the clean thread is between the return of `cond_var_wait` and its
unlock. -/
def Undisturbed (s : DeadResources) (a : Action) : Prop :=
  s.cleaner.unprotected = true → s.acquires a = false

instance (s : DeadResources) (a : Action) : Decidable (s.Undisturbed a) :=
  inferInstanceAs (Decidable (_ → _))

variable {q q' : Queues DeadList Nat} {xs : List Nat} {i : DeadList} {n m : Nat}
  {k k' k₀ : Links Nat} {l l₀ : LinkedList Nat}
  {stage stage' : AppendStage} {contents : DeadList → List Nat}

/-! ## The accesses of `linked_list_append` -/

theorem sameAt_setNext_congr (h : Links.SameAt k k' m) (x p : Option Nat) :
    Links.SameAt (k.setNext x p) (k'.setNext x p) m := by
  by_cases hm : x = some m
  · subst hm
    refine ⟨?_, ?_⟩
    · rw [Links.setNext_prev, Links.setNext_prev, h.1]
    · rw [Links.setNext_next_self, Links.setNext_next_self]
  · exact ⟨(Links.sameAt_setNext hm).1.trans (h.1.trans (Links.sameAt_setNext hm).1.symm),
      (Links.sameAt_setNext hm).2.trans (h.2.trans (Links.sameAt_setNext hm).2.symm)⟩

theorem sameAt_setPrev_congr (h : Links.SameAt k k' m) (x p : Option Nat) :
    Links.SameAt (k.setPrev x p) (k'.setPrev x p) m := by
  by_cases hm : x = some m
  · subst hm
    refine ⟨?_, ?_⟩
    · rw [Links.setPrev_prev_self, Links.setPrev_prev_self]
    · rw [Links.setPrev_next, Links.setPrev_next, h.2]
  · exact ⟨(Links.sameAt_setPrev hm).1.trans (h.1.trans (Links.sameAt_setPrev hm).1.symm),
      (Links.sameAt_setPrev hm).2.trans (h.2.trans (Links.sameAt_setPrev hm).2.symm)⟩

/-- The links and the list in front of an access, from those at the start of `linked_list_append`. -/
def partialAppend (k : Links Nat) (l : LinkedList Nat) (n : Nat) :
    AppendStage → Links Nat × LinkedList Nat
  | .setNext => (k, l)
  | .testSize | .firstPrev | .loadTail | .linkTail _ => (k.setNext (some n) none, l)
  | .firstHead => ((k.setNext (some n) none).setPrev (some n) none, l)
  | .firstTail => ((k.setNext (some n) none).setPrev (some n) none, { l with head := some n })
  | .linkPrev _ => ((k.setNext (some n) none).setNext l.tail (some n), l)
  | .setTail => (((k.setNext (some n) none).setNext l.tail (some n)).setPrev (some n) l.tail, l)
  | .loadSize | .storeSize _ => ((LinkedList.append k l n).1,
    { (LinkedList.append k l n).2 with size := l.size })

theorem partialAppend_loadSize (k : Links Nat) (l : LinkedList Nat) (n : Nat) :
    partialAppend k l n .loadSize =
    ((LinkedList.append k l n).1, { (LinkedList.append k l n).2 with size := l.size }) := rfl

/-- What the thread has loaded from the list. -/
def Loaded (l : LinkedList Nat) : AppendStage → Prop
  | .firstPrev | .firstHead | .firstTail => l.size = 0
  | .loadTail | .setTail => l.size ≠ 0
  | .linkTail tail | .linkPrev tail => l.size ≠ 0 ∧ tail = l.tail
  | .storeSize size => size = l.size
  | _ => True

/-- A list in the middle of `linked_list_append`. -/
def Appending (k : Links Nat) (l : LinkedList Nat) (xs : List Nat) (n : Nat)
    (stage : AppendStage) : Prop :=
  ∃ k₀ l₀, LinkedList.Holds k₀ l₀ xs ∧ Loaded l₀ stage ∧ l = (partialAppend k₀ l₀ n stage).2 ∧
    ∀ m ∈ n :: xs, Links.SameAt (partialAppend k₀ l₀ n stage).1 k m

/-- What an access of one list leaves alone: the other lists, and the nodes outside of `ms`. -/
structure Local (i : DeadList) (ms : List Nat) (q q' : Queues DeadList Nat) : Prop where
  list : ∀ j, j ≠ i → q'.list j = q.list j
  links : ∀ m, m ∉ ms → Links.SameAt q.links q'.links m

theorem Local.of_links {ms : List Nat} {k : Links Nat} (h : ∀ m, m ∉ ms → Links.SameAt q.links k m) :
    Local i ms q { q with links := k } := ⟨fun _ _ => rfl, h⟩

theorem local_setList (ms : List Nat) (q : Queues DeadList Nat) (i : DeadList)
    (l : LinkedList Nat) : Local i ms q (setList q i l) :=
  ⟨fun _ hj => update_of_ne hj .., fun m _ => .refl q.links m⟩

theorem local_refl (i : DeadList) (ms : List Nat) (q : Queues DeadList Nat) :
    Local i ms q q := ⟨fun _ _ => rfl, fun m _ => .refl q.links m⟩

theorem setList_list (q : Queues DeadList Nat) (i : DeadList) (l : LinkedList Nat) :
    (setList q i l).list i = l := update_self ..

theorem setList_list_of_ne {j : DeadList} (hj : j ≠ i) (q : Queues DeadList Nat) (l : LinkedList Nat) :
    (setList q i l).list j = q.list j := update_of_ne hj ..

/-- An access before the last one. -/
theorem Appending.step (h : Appending q.links (q.list i) xs n stage)
    (hstep : appendStep q i n stage = (q', some stage')) :
    Appending q'.links (q'.list i) xs n stage' ∧ Local i (n :: xs) q q' := by
  obtain ⟨k₀, l₀, hholds, hloaded, hlist, hsame⟩ := h
  have hnode : ∀ m, m ∉ n :: xs → some n ≠ some m :=
    fun m hm heq => hm (List.mem_cons.mpr (.inl (Option.some.inj heq).symm))
  cases stage with
  | setNext =>
    obtain ⟨rfl, hstage⟩ := Prod.mk.inj hstep
    obtain rfl := Option.some.inj hstage
    exact ⟨⟨k₀, l₀, hholds, trivial, hlist,
      fun m hm => sameAt_setNext_congr (hsame m hm) (some n) none⟩,
      .of_links fun m hm => Links.sameAt_setNext (hnode m hm)⟩
  | testSize =>
    obtain ⟨rfl, hstage⟩ := Prod.mk.inj hstep
    obtain rfl := Option.some.inj hstage
    have hsize : (q.list i).size = l₀.size := congrArg LinkedList.size hlist
    refine ⟨?_, local_refl ..⟩
    split_ifs with hempty
    · exact ⟨k₀, l₀, hholds, hsize.symm.trans hempty, hlist, hsame⟩
    · exact ⟨k₀, l₀, hholds, fun heq => hempty (hsize.trans heq), hlist, hsame⟩
  | firstPrev =>
    obtain ⟨rfl, hstage⟩ := Prod.mk.inj hstep
    obtain rfl := Option.some.inj hstage
    exact ⟨⟨k₀, l₀, hholds, hloaded, hlist,
      fun m hm => sameAt_setPrev_congr (hsame m hm) (some n) none⟩,
      .of_links fun m hm => Links.sameAt_setPrev (hnode m hm)⟩
  | firstHead =>
    obtain ⟨rfl, hstage⟩ := Prod.mk.inj hstep
    obtain rfl := Option.some.inj hstage
    refine ⟨⟨k₀, l₀, hholds, hloaded, ?_, hsame⟩, local_setList ..⟩
    rw [setList_list, hlist]
    rfl
  | firstTail =>
    obtain ⟨rfl, hstage⟩ := Prod.mk.inj hstep
    obtain rfl := Option.some.inj hstage
    have hempty : l₀.size = 0 := hloaded
    have happend : LinkedList.append k₀ l₀ n =
      ((k₀.setNext (some n) none).setPrev (some n) none, ⟨some n, some n, l₀.size + 1⟩) :=
      if_pos hempty
    refine ⟨⟨k₀, l₀, hholds, trivial, ?_, fun m hm => ?_⟩, local_setList ..⟩
    · rw [setList_list, hlist, partialAppend_loadSize, happend]
      rfl
    · rw [partialAppend_loadSize, happend]
      exact hsame m hm
  | loadTail =>
    obtain ⟨rfl, hstage⟩ := Prod.mk.inj hstep
    obtain rfl := Option.some.inj hstage
    exact ⟨⟨k₀, l₀, hholds, ⟨hloaded, congrArg LinkedList.tail hlist⟩, hlist, hsame⟩, local_refl ..⟩
  | linkTail tail =>
    obtain ⟨rfl, hstage⟩ := Prod.mk.inj hstep
    obtain rfl := Option.some.inj hstage
    obtain ⟨hsize, rfl⟩ := hloaded
    refine ⟨⟨k₀, l₀, hholds, ⟨hsize, rfl⟩, hlist,
      fun m hm => sameAt_setNext_congr (hsame m hm) l₀.tail (some n)⟩, .of_links fun m hm => ?_⟩
    apply Links.sameAt_setNext
    intro heq
    exact hm (List.mem_cons_of_mem n (List.mem_of_getLast? (hholds.tail.symm.trans heq)))
  | linkPrev tail =>
    obtain ⟨rfl, hstage⟩ := Prod.mk.inj hstep
    obtain rfl := Option.some.inj hstage
    obtain ⟨hsize, rfl⟩ := hloaded
    exact ⟨⟨k₀, l₀, hholds, hsize, hlist,
      fun m hm => sameAt_setPrev_congr (hsame m hm) (some n) l₀.tail⟩,
      .of_links fun m hm => Links.sameAt_setPrev (hnode m hm)⟩
  | setTail =>
    obtain ⟨rfl, hstage⟩ := Prod.mk.inj hstep
    obtain rfl := Option.some.inj hstage
    have hsize : l₀.size ≠ 0 := hloaded
    have happend : LinkedList.append k₀ l₀ n =
        (((k₀.setNext (some n) none).setNext l₀.tail (some n)).setPrev (some n) l₀.tail,
          ⟨l₀.head, some n, l₀.size + 1⟩) :=
      if_neg hsize
    refine ⟨⟨k₀, l₀, hholds, trivial, ?_, fun m hm => ?_⟩, local_setList ..⟩
    · rw [setList_list, hlist, partialAppend_loadSize, happend]
      rfl
    · rw [partialAppend_loadSize, happend]
      exact hsame m hm
  | loadSize =>
    obtain ⟨rfl, hstage⟩ := Prod.mk.inj hstep
    obtain rfl := Option.some.inj hstage
    have hsize : (q.list i).size = l₀.size := by
      rw [hlist]
      rfl
    exact ⟨⟨k₀, l₀, hholds, hsize, hlist, hsame⟩, local_refl ..⟩
  | storeSize size => cases (Prod.mk.inj hstep).2

theorem append_size (k : Links Nat) (l : LinkedList Nat) (n : Nat) :
    (LinkedList.append k l n).2.size = l.size + 1 := by
  rw [LinkedList.append]
  split_ifs
  · rfl
  · rfl

/-- The last access completes the list. -/
theorem Appending.finish (h : Appending q.links (q.list i) xs n stage) (hn : n ∉ xs)
    (hstep : appendStep q i n stage = (q', none)) :
    LinkedList.Holds q'.links (q'.list i) (xs ++ [n]) ∧ Local i (n :: xs) q q' := by
  obtain ⟨k₀, l₀, hholds, hloaded, hlist, hsame⟩ := h
  cases stage with
  | storeSize size =>
    obtain ⟨rfl, -⟩ := Prod.mk.inj hstep
    have hsize : size = l₀.size := hloaded
    have hcomplete : { (partialAppend k₀ l₀ n (.storeSize size)).2 with size := size + 1 } =
      (LinkedList.append k₀ l₀ n).2 := by
      rw [hsize, ← append_size k₀ l₀ n]
      rfl
    refine ⟨?_, local_setList ..⟩
    rw [setList_list, hlist, hcomplete]
    refine (LinkedList.append_holds hholds hn).congr fun m hm => hsame m ?_
    rcases List.mem_append.mp hm with hm | hm
    · exact List.mem_cons_of_mem n hm
    · exact List.mem_cons.mpr (.inl (List.mem_singleton.mp hm))
  | _ => cases (Prod.mk.inj hstep).2

/-! ## The accesses of `linked_list_move` -/

/-- The destination and the source in front of an access, from those at the start of `linked_list_move`. -/
def partialMove (dst src : LinkedList Nat) : MoveStage → LinkedList Nat × LinkedList Nat
  | .head => (dst, src)
  | .tail => ({ dst with head := src.head }, src)
  | .size => ({ dst with head := src.head, tail := src.tail }, src)
  | .clearHead => (src, src)
  | .clearTail => (src, { src with head := none })
  | .clearSize => (src, { src with head := none, tail := none })

/-- The lists in the middle of `linked_list_move`. -/
structure Moving (b q : Queues DeadList Nat) (dst src : DeadList) (stage : MoveStage) : Prop where
  links : q.links = b.links
  received : q.list dst = (partialMove (b.list dst) (b.list src) stage).1
  source : q.list src = (partialMove (b.list dst) (b.list src) stage).2
  others : ∀ j, j ≠ dst → j ≠ src → q.list j = b.list j

variable {b : Queues DeadList Nat} {dst src : DeadList} {move move' : MoveStage}

theorem Moving.setDst (h : Moving b q dst src move) (hne : dst ≠ src) {l : LinkedList Nat}
    (hdst : l = (partialMove (b.list dst) (b.list src) move').1)
    (hsrc : (partialMove (b.list dst) (b.list src) move).2 =
      (partialMove (b.list dst) (b.list src) move').2) :
    Moving b (setList q dst l) dst src move' where
  links := h.links
  received := (setList_list q dst l).trans hdst
  source := (setList_list_of_ne hne.symm q l).trans (h.source.trans hsrc)
  others := fun j hj hj' => (setList_list_of_ne hj q l).trans (h.others j hj hj')

theorem Moving.setSrc (h : Moving b q dst src move) (hne : dst ≠ src) {l : LinkedList Nat}
    (hsrc : l = (partialMove (b.list dst) (b.list src) move').2)
    (hdst : (partialMove (b.list dst) (b.list src) move).1 =
      (partialMove (b.list dst) (b.list src) move').1) :
    Moving b (setList q src l) dst src move' where
  links := h.links
  received := (setList_list_of_ne hne q l).trans (h.received.trans hdst)
  source := (setList_list q src l).trans hsrc
  others := fun j hj hj' => (setList_list_of_ne hj' q l).trans (h.others j hj hj')

/-- An access before the last one. -/
theorem Moving.step (h : Moving b q dst src move) (hne : dst ≠ src)
    (hstep : moveStep q dst src move = (q', some move')) :
    Moving b q' dst src move' := by
  cases move with
  | head | tail | size =>
    obtain ⟨rfl, hstage⟩ := Prod.mk.inj hstep
    obtain rfl := Option.some.inj hstage
    refine h.setDst hne ?_ rfl
    rw [h.received, h.source]
    rfl
  | clearHead | clearTail =>
    obtain ⟨rfl, hstage⟩ := Prod.mk.inj hstep
    obtain rfl := Option.some.inj hstage
    refine h.setSrc hne ?_ rfl
    rw [h.source]
    rfl
  | clearSize => cases (Prod.mk.inj hstep).2

/-- The last access completes the move. -/
theorem Moving.finish (h : Moving b q dst src move) (hne : dst ≠ src)
    (hstep : moveStep q dst src move = (q', none)) :
    q' = b.move dst src := by
  cases move with
  | clearSize =>
    obtain ⟨rfl, -⟩ := Prod.mk.inj hstep
    have hlist : (setList q src { q.list src with size := 0 }).list =
      update (update b.list dst (b.list src)) src .init := by
      funext j
      by_cases hsrc : j = src
      · rw [hsrc, setList_list, update_self, h.source]
        rfl
      · by_cases hdst : j = dst
        · rw [hdst, setList_list_of_ne hne, update_of_ne hne, update_self, h.received]
          rfl
        · rw [setList_list_of_ne hsrc, update_of_ne hsrc, update_of_ne hdst, h.others j hdst hsrc]
    rw [Queues.move, LinkedList.move, ← hlist, ← h.links]
    rfl
  | _ => cases (Prod.mk.inj hstep).2

end DeadResources

end LuckOS
