import LuckOS.HeapLedgerTables

/-!
# The live blocks

The blocks that the structs, the lists and the tables hold. The ledger is balanced when it agrees with them.
-/

namespace LuckOS

open Function Runs

namespace HeapLedger

variable {k k' : HeapLedger}

/-- The structs and lists of processes and threads. A thread is unborn until it is scheduled. -/
structure Holdings where
  created : Nat
  freed : Nat → Bool
  exited : Nat → Bool
  unborn : Nat → Bool
  deadProcesses : List Nat
  deadTasks : List Nat
  threadDestroyed : Nat → Bool

namespace Holdings

/-- The tables with an array of buckets. -/
def buckets (x : Holdings) : TableName → Int
  | .threads p | .children p => if p < x.created then 1 else 0
  | .exitChildren p => if p < x.created ∧ x.exited p = false then 1 else 0
  | .processesMap | .frameCowRefCounts => 1

/-- The blocks of structs, lists and arrays of buckets. -/
def blocks (x : Holdings) : Block → Int
  | .pcb p => if p < x.created ∧ x.freed p = false then 1 else 0
  | .stackIndexes p => if p < x.created ∧ x.exited p = false then 1 else 0
  | .buckets t => x.buckets t
  | .tcb p | .kernelStack p => if x.unborn p = false ∧ x.threadDestroyed p = false then 1 else 0
  | .threadNode p => if x.unborn p = false then 1 else 0
  | .deadTask p => if p ∈ x.deadTasks then 1 else 0
  | .deadProcess p => if p ∈ x.deadProcesses then 1 else 0
  | .copiedPageDir _ | .copiedPageTable _ | .entry .. | .entryNode .. | .refCount .. => 0

/-! ### Changes of the structs -/

@[reducible] def addDeadProcess (x : Holdings) (c : Nat) : Holdings := { x with deadProcesses := x.deadProcesses ++ [c] }

@[reducible] def addDeadTask (x : Holdings) (c : Nat) : Holdings := { x with deadTasks := x.deadTasks ++ [c] }

/-- `create_process`. -/
@[reducible] def create (x : Holdings) (exited : Nat → Bool) : Holdings := { x with created := x.created + 1, exited := exited }

/-- A thread is scheduled. -/
@[reducible] def schedule (x : Holdings) (c : Nat) : Holdings := { x with unborn := update x.unborn c false }

/-- `process_exit`. The children in a list are freed. -/
@[reducible] def exit (x : Holdings) (c : Nat) (children : List Nat) : Holdings :=
  { x with exited := update x.exited c true, freed := fun q => x.freed q || decide (q ∈ children) }

/-- `destroy_thread`. -/
@[reducible] def destroyThread (x : Holdings) (c : Nat) : Holdings :=
  { x with deadTasks := x.deadTasks.erase c, threadDestroyed := update x.threadDestroyed c true }

/-- `destroy_process`. -/
@[reducible] def destroy (x : Holdings) (c : Nat) : Holdings :=
  { x with deadProcesses := x.deadProcesses.erase c, freed := update x.freed c true }

variable {x : Holdings} {p c : Nat}

theorem blocks_addDeadProcess (h : c ∉ x.deadProcesses) (b : Block) :
    (x.addDeadProcess c).blocks b = x.blocks b + if .deadProcess c = b then 1 else 0 := by
  cases b with
  | deadProcess q =>
    by_cases hq : q = c
    · simp [blocks, hq, h]
    · simp [blocks, hq, Ne.symm hq]
  | buckets t => cases t <;> simp [blocks, buckets]
  | _ => simp [blocks]

theorem blocks_addDeadTask (h : c ∉ x.deadTasks) (b : Block) :
    (x.addDeadTask c).blocks b = x.blocks b + if .deadTask c = b then 1 else 0 := by
  cases b with
  | deadTask q =>
    by_cases hq : q = c
    · simp [blocks, hq, h]
    · simp [blocks, hq, Ne.symm hq]
  | buckets t => cases t <;> simp [blocks, buckets]
  | _ => simp [blocks]

theorem blocks_create {exited : Nat → Bool} (hfreed : x.freed x.created = false) (hexited : exited x.created = false)
    (hold : ∀ q < x.created, exited q = x.exited q) (b : Block) :
    (x.create exited).blocks b = x.blocks b + (processBlocks x.created).count b := by
  have hlt : ∀ {q}, q ≠ x.created → (q < x.created + 1 ↔ q < x.created) := by omega
  have hstill : ∀ {q}, (q < x.created ∧ exited q = false ↔ q < x.created ∧ x.exited q = false) :=
    and_congr_right fun hq => by rw [hold _ hq]
  cases b with
  | pcb q | stackIndexes q =>
    by_cases hq : q = x.created
    · simp [blocks, processBlocks, hq, hfreed, hexited]
    · simp [blocks, processBlocks, Ne.symm hq, hlt hq, hstill]
  | buckets t =>
    cases t with
    | threads q | children q | exitChildren q =>
      by_cases hq : q = x.created
      · simp [blocks, buckets, processBlocks, hq, hexited]
      · simp [blocks, buckets, processBlocks, Ne.symm hq, hlt hq, hstill]
    | processesMap | frameCowRefCounts => simp [blocks, buckets, processBlocks]
  | _ => simp [blocks, processBlocks]

theorem blocks_schedule (hunborn : x.unborn c = true) (hdestroyed : x.threadDestroyed c = false) (b : Block) :
    (x.schedule c).blocks b = x.blocks b + (threadBlocks c ++ [.threadNode c] : List Block).count b := by
  cases b with
  | tcb q | kernelStack q | threadNode q =>
    by_cases hq : q = c
    · subst hq
      simp [blocks, threadBlocks, hunborn, hdestroyed]
    · simp [blocks, threadBlocks, hq, Ne.symm hq]
  | buckets t => cases t <;> simp [blocks, buckets, threadBlocks]
  | _ => simp [blocks, threadBlocks]

theorem blocks_exit {children : List Nat} (hcreated : c < x.created) (hexited : x.exited c = false)
    (honce : children.Nodup) (hchildren : ∀ q ∈ children, q < x.created ∧ x.freed q = false) (b : Block) :
    (x.exit c children).blocks b =
      x.blocks b - ([.stackIndexes c, .buckets (.exitChildren c)] ++ children.map .pcb : List Block).count b := by
  have hpcbs : ∀ {b : Block}, (∀ q, b ≠ .pcb q) → (children.map Block.pcb).count b = 0 := by
    intro b hb
    refine List.count_eq_zero_of_not_mem fun hmem => ?_
    obtain ⟨q, -, rfl⟩ := List.mem_map.mp hmem
    exact hb q rfl
  rw [List.count_append]
  cases b with
  | pcb q =>
    have hcount : (children.map Block.pcb).count (.pcb q) = children.count q :=
      List.count_map_of_injective _ _ (fun _ _ heq => Block.pcb.inj heq) _
    rw [hcount, honce.count]
    by_cases hq : q ∈ children
    · simp [blocks, hq, hchildren q hq]
    · simp [blocks, hq]
  | stackIndexes q =>
    rw [hpcbs (by simp)]
    by_cases hq : q = c
    · subst hq
      simp [blocks, hcreated, hexited]
    · simp [blocks, hq, Ne.symm hq]
  | buckets t =>
    rw [hpcbs (by simp)]
    cases t with
    | exitChildren q =>
      by_cases hq : q = c
      · subst hq
        simp [blocks, buckets, hcreated, hexited]
      · simp [blocks, buckets, hq, Ne.symm hq]
    | _ => simp [blocks, buckets]
  | _ =>
    rw [hpcbs (by simp)]
    simp [blocks]

theorem blocks_destroyThread (hborn : x.unborn c = false) (hdestroyed : x.threadDestroyed c = false)
    (hdead : c ∈ x.deadTasks) (honce : x.deadTasks.Nodup) (b : Block) :
    (x.destroyThread c).blocks b = x.blocks b - [Block.kernelStack c, .tcb c, .deadTask c].count b := by
  cases b with
  | tcb q | kernelStack q =>
    by_cases hq : q = c
    · subst hq
      simp [blocks, hborn, hdestroyed]
    · simp [blocks, hq, Ne.symm hq]
  | deadTask q =>
    by_cases hq : q = c
    · subst hq
      simp [blocks, hdead, honce.mem_erase_iff]
    · simp [blocks, hq, Ne.symm hq, honce.mem_erase_iff]
  | buckets t => cases t <;> simp [blocks, buckets]
  | _ => simp [blocks]

theorem blocks_destroy (hcreated : c < x.created) (hfreed : x.freed c = false) (hdead : c ∈ x.deadProcesses)
    (honce : x.deadProcesses.Nodup) (b : Block) :
    (x.destroy c).blocks b = x.blocks b - [Block.pcb c, .deadProcess c].count b := by
  cases b with
  | pcb q =>
    by_cases hq : q = c
    · subst hq
      simp [blocks, hcreated, hfreed]
    · simp [blocks, hq, Ne.symm hq]
  | deadProcess q =>
    by_cases hq : q = c
    · subst hq
      simp [blocks, hdead, honce.mem_erase_iff]
    · simp [blocks, hq, Ne.symm hq, honce.mem_erase_iff]
  | buckets t => cases t <;> simp [blocks, buckets]
  | _ => simp [blocks]

end Holdings

def holdings (k : HeapLedger) : Holdings where
  created := k.procs.created
  freed := k.pointers.freed
  exited := fun p => (k.procs.pcb p).exited
  unborn := fun p => decide (k.procs.pc p = .unborn)
  deadProcesses := k.procs.deadProcesses
  deadTasks := k.deadTasks
  threadDestroyed := k.threadDestroyed

/-- The table has an entry with this key. -/
def has (k : HeapLedger) : TableName → Nat → Bool
  | .threads p, key => ((k.threads p).get key).isSome
  | .children p, key => ((k.procs.pcb p).children.get key).isSome
  | .exitChildren p, key => ((k.procs.pcb p).exitChildren.get key).isSome
  | .processesMap, key => (k.pointers.processesMap.get key).isSome
  | .frameCowRefCounts, key => (k.frameCowRefCounts.get key).isSome

/-- The blocks of the entries of all tables. -/
def entries (k : HeapLedger) : Block → Int
  | .entry t key | .entryNode t key => if k.has t key then 1 else 0
  | _ => 0

/-- The ledger agrees with the blocks that can still be reached. The counters are left out. -/
structure Balanced (k : HeapLedger) : Prop where
  counters : CountersInv k
  live : ∀ b, b.ofCounters = false → k.heap.live b = k.holdings.blocks b + k.entries b

theorem holdings_eq {x : Holdings} (hcreated : k.procs.created = x.created) (hfreed : k.pointers.freed = x.freed)
    (hexited : ∀ q, (k.procs.pcb q).exited = x.exited q) (hborn : ∀ q, k.procs.pc q = .unborn ↔ x.unborn q = true)
    (hdead : k.procs.deadProcesses = x.deadProcesses) (htasks : k.deadTasks = x.deadTasks)
    (hdestroyed : k.threadDestroyed = x.threadDestroyed) : k.holdings = x := by
  have hunborn : (fun p => decide (k.procs.pc p = .unborn)) = x.unborn := by
    funext q
    rw [Bool.eq_iff_iff, decide_eq_true_iff]
    exact hborn q
  rw [holdings, hcreated, hfreed, funext hexited, hunborn, hdead, htasks, hdestroyed]

/-- The structs and lists stay the same. -/
theorem holdings_congr (hcreated : k'.procs.created = k.procs.created) (hfreed : k'.pointers.freed = k.pointers.freed)
    (hexited : ∀ q, (k'.procs.pcb q).exited = (k.procs.pcb q).exited)
    (hborn : ∀ q, k'.procs.pc q = .unborn ↔ k.procs.pc q = .unborn) (hdead : k'.procs.deadProcesses = k.procs.deadProcesses)
    (htasks : k'.deadTasks = k.deadTasks) (hdestroyed : k'.threadDestroyed = k.threadDestroyed) :
    k'.holdings = k.holdings :=
  holdings_eq hcreated hfreed hexited (fun q => (hborn q).trans decide_eq_true_iff.symm) hdead htasks hdestroyed

/-- One table changes. -/
theorem entries_table {t : TableName} {table table' : HashTable Nat} (hother : ∀ t', t' ≠ t → k'.has t' = k.has t')
    (hold : ∀ key, k.has t key = (table.get key).isSome) (hnew : ∀ key, k'.has t key = (table'.get key).isSome) (b : Block) :
    k'.entries b = k.entries b + holds t table' b - holds t table b := by
  cases b with
  | entry t' key | entryNode t' key =>
    by_cases ht : t' = t
    · subst ht
      simp only [entries, holds, Block.keyIn, if_true, hold, hnew]
      omega
    · simp only [entries, holds, Block.keyIn, if_neg ht, hother t' ht]
      omega
  | _ => rfl

theorem Balanced.change (h : Balanced k) (htable : k'.frameCowRefCounts = k.frameCowRefCounts)
    (hlive : ∀ b, k'.heap.live b = k.heap.live b + (k'.holdings.blocks b - k.holdings.blocks b) + (k'.entries b - k.entries b)) : Balanced k' := by
  have hcow : ∀ b, b.ofCounters = true → k'.holdings.blocks b = k.holdings.blocks b ∧ k'.entries b = k.entries b := by
    intro b hb
    cases b with
    | entry t key | entryNode t key =>
      cases t with
      | frameCowRefCounts =>
        have hhas : k'.has .frameCowRefCounts key = k.has .frameCowRefCounts key := by
          simp only [has, htable]
        exact ⟨rfl, by simp only [entries, hhas]⟩
      | _ => cases hb
    | refCount => exact ⟨rfl, rfl⟩
    | _ => cases hb
  refine ⟨h.counters.other htable fun b hb => ?_, fun b hb => ?_⟩
  · obtain ⟨hbase, hentries⟩ := hcow b hb
    rw [hlive, hbase, hentries]
    omega
  · have hold := h.live b hb
    have hnew := hlive b
    omega

end HeapLedger

end LuckOS
