import LuckOS.HeapLedger
import LuckOS.FreedProcesses

/-!
# Ledgers of hash tables

What the operations of a hash table allocate and free, and the blocks of the counters of shared frames.
-/

namespace LuckOS

open Function Runs

/-! ## Ledgers of hash tables -/

/-- The key of a block of an entry of a table. -/
def Block.keyIn (t : TableName) : Block → Option Nat
  | .entry t' key | .entryNode t' key => if t' = t then some key else none
  | _ => none

/-- The blocks of the entries of a table. -/
def holds {α : Type} (t : TableName) (table : HashTable α) (b : Block) : Int :=
  match b.keyIn t with
  | some key => if (table.get key).isSome then 1 else 0
  | none => 0

namespace Ledger

variable {α : Type} {l : Ledger Block} {t : TableName} {table : HashTable α} {key : Nat}

theorem contains_eq (table : HashTable α) (key : Nat) : table.contains key = (table.get key).isSome := by
  simp [HashTable.contains, HashTable.get]

/-- The two blocks of an entry. -/
theorem entry_blocks (t : TableName) (key : Nat) (b : Block) :
    ((if .entry t key = b then 1 else 0) + (if .entryNode t key = b then 1 else 0) : Int) =
      if b.keyIn t = some key then 1 else 0 := by
  cases b <;> simp [Block.keyIn, and_comm, eq_comm]

theorem holds_update {table' : HashTable α} {v : Option α} (hget : table'.get = update table.get key v) (b : Block) :
    holds t table' b = holds t table b + (if b.keyIn t = some key then
      (if v.isSome then 1 else 0) - (if (table.get key).isSome then 1 else 0) else 0) := by
  simp only [holds, hget]
  cases hb : b.keyIn t with
  | none => simp
  | some key' =>
    by_cases hkey : key' = key
    · subst hkey
      simp only [update_self, if_true]
      omega
    · simp [hkey]

theorem live_hashTablePut (hvalid : table.Valid) (value : α) (b : Block) :
    (l.hashTablePut t table key).live b = l.live b + holds t (table.put key value).2 b - holds t table b := by
  rw [holds_update (HashTable.put_spec hvalid key value).2.2, hashTablePut, contains_eq]
  have hblocks := entry_blocks t key b
  by_cases hkey : (table.get key).isSome = true
  · rw [if_pos hkey, if_pos hkey]
    simp
  · rw [if_neg hkey, if_neg hkey]
    dsimp only
    split_ifs <;> simp_all <;> omega

theorem live_hashTableRemove (hvalid : table.Valid) (b : Block) :
    (l.hashTableRemove t table key).live b = l.live b + holds t (table.remove key).2 b - holds t table b := by
  rw [holds_update (HashTable.remove_spec hvalid key).2.2, hashTableRemove, contains_eq]
  have hblocks := entry_blocks t key b
  by_cases hkey : (table.get key).isSome = true
  · rw [if_pos hkey, if_pos hkey]
    split_ifs <;> simp_all <;> omega
  · rw [if_neg hkey, if_neg hkey]
    simp

/-- The entries of a valid table have different keys. -/
theorem holds_eq_count (hvalid : table.Valid) (b : Block) :
    holds t table b = (entryBlocks t table.entries).count b := by
  have hcount : ∀ entries : List (Nat × α), ((entryBlocks t entries).count b : Int) =
      match b.keyIn t with
      | some key => ((entries.map Prod.fst).count key : Int)
      | none => 0 := by
    intro entries
    induction entries with
    | nil => cases b.keyIn t <;> simp [entryBlocks]
    | cons kv entries ih =>
      have hblocks := entry_blocks t kv.1 b
      have hcons : ((entryBlocks t (kv :: entries)).count b : Int) = (entryBlocks t entries).count b +
          ((if .entry t kv.1 = b then 1 else 0) + (if .entryNode t kv.1 = b then 1 else 0)) := by
        simp only [entryBlocks, List.flatMap_cons, List.count_append, List.count_cons, List.count_nil, beq_iff_eq]
        split_ifs <;> push_cast <;> omega
      rw [hcons, ih, hblocks]
      cases hb : b.keyIn t with
      | none => simp
      | some key =>
        simp only [List.map_cons, List.count_cons, beq_iff_eq, Option.some.injEq, eq_comm (a := key)]
        split_ifs <;> simp
  rw [hcount, holds]
  cases b.keyIn t with
  | none => rfl
  | some key =>
    dsimp only
    rw [hvalid.unique.count]
    have hmem : (table.get key).isSome = true ↔ key ∈ table.entries.map Prod.fst := by
      rw [Option.isSome_iff_ne_none, HashTable.get_ne_none hvalid]
      simp
    simp only [hmem]
    split_ifs <;> rfl

theorem live_hashTableClear (hvalid : table.Valid) (b : Block) :
    (l.hashTableClear t table).live b = l.live b - holds t table b := by
  rw [hashTableClear, live_kfrees, holds_eq_count hvalid]

/-- `hash_table_destroy` frees the processes as well. -/
theorem live_hashTableDestroy {table : HashTable Nat} (hvalid : table.Valid) (b : Block) :
    (l.hashTableDestroy t table).live b = l.live b - holds t table b - (if .buckets t = b then 1 else 0) -
      ((table.entries.map Prod.snd).map Block.pcb).count b := by
  have hcount : ∀ entries : List (Nat × Nat),
      (entries.flatMap fun kv => [.pcb kv.2, .entry t kv.1, .entryNode t kv.1]).count b =
        (entryBlocks t entries).count b + ((entries.map Prod.snd).map Block.pcb).count b := by
    intro entries
    induction entries with
    | nil => rfl
    | cons kv entries ih =>
      simp only [entryBlocks, List.flatMap_cons, List.map_cons, List.count_append, List.count_cons, List.count_nil] at ih ⊢
      omega
  rw [hashTableDestroy, live_kfree, live_kfrees, hcount, holds_eq_count hvalid]
  push_cast
  omega

end Ledger

/-! ## Counters of shared frames -/

/-- The counters, and the entries of their table. -/
def Block.ofCounters : Block → Bool
  | .entry .frameCowRefCounts _ | .entryNode .frameCowRefCounts _ | .refCount .. => true
  | _ => false

theorem holds_of_ofCounters {α : Type} {table : HashTable α} {b : Block} (hb : b.ofCounters = false) :
    holds .frameCowRefCounts table b = 0 := by
  cases b with
  | entry t key | entryNode t key => cases t <;> simp_all [Block.ofCounters, holds, Block.keyIn]
  | _ => rfl

theorem holds_ofCounters {α : Type} {t : TableName} {table : HashTable α} {b : Block} (ht : t ≠ .frameCowRefCounts)
    (hb : b.ofCounters = true) : holds t table b = 0 := by
  cases b with
  | entry t' key | entryNode t' key =>
    cases t' <;> simp_all [Block.ofCounters, holds, Block.keyIn, eq_comm]
  | refCount => rfl
  | _ => cases hb

namespace HeapLedger

variable {k k' : HeapLedger} {p frame : Nat}

/-- The blocks of the table of the counters. -/
structure CountersInv (k : HeapLedger) : Prop where
  valid : k.frameCowRefCounts.Valid
  live : ∀ b, b.keyIn .frameCowRefCounts ≠ none → k.heap.live b = holds .frameCowRefCounts k.frameCowRefCounts b

/-- Only counters and their table change. -/
structure ChangesCounters (k k' : HeapLedger) : Prop where
  pointers : k'.pointers = k.pointers
  threads : k'.threads = k.threads
  deadTasks : k'.deadTasks = k.deadTasks
  threadDestroyed : k'.threadDestroyed = k.threadDestroyed
  live : ∀ b, b.ofCounters = false → k'.heap.live b = k.heap.live b
  inv : CountersInv k'

theorem ChangesCounters.trans {k'' : HeapLedger} (h : ChangesCounters k k') (h' : ChangesCounters k' k'') :
    ChangesCounters k k'' where
  pointers := h'.pointers.trans h.pointers
  threads := h'.threads.trans h.threads
  deadTasks := h'.deadTasks.trans h.deadTasks
  threadDestroyed := h'.threadDestroyed.trans h.threadDestroyed
  live := fun b hb => (h'.live b hb).trans (h.live b hb)
  inv := h'.inv

theorem changeCowFrameRefcount_spec (h : CountersInv k) (p frame : Nat) (delta : Int) :
    ChangesCounters k (k.changeCowFrameRefcount p frame delta) := by
  rw [changeCowFrameRefcount]
  dsimp only
  by_cases hpositive : 0 < (k.frameCowRefCounts.get frame).getD 0 + delta
  · rw [if_pos hpositive]
    have hlive : ∀ b, ((if k.frameCowRefCounts.get frame = none then k.heap.kmalloc (.refCount p frame) else k.heap).live b) =
        k.heap.live b + if k.frameCowRefCounts.get frame = none ∧ .refCount p frame = b then 1 else 0 := by
      intro b
      split_ifs <;> simp_all
    constructor
    case pointers | threads | deadTasks | threadDestroyed => rfl
    case live =>
      intro b hb
      have hne : .refCount p frame ≠ b := by
        rintro rfl
        cases hb
      rw [Ledger.live_hashTablePut h.valid ((k.frameCowRefCounts.get frame).getD 0 + delta), hlive, holds_of_ofCounters hb,
        holds_of_ofCounters hb]
      simp [hne]
    case inv =>
      refine ⟨(HashTable.put_spec h.valid _ _).1, fun b hb => ?_⟩
      have hne : .refCount p frame ≠ b := by
        rintro rfl
        exact hb rfl
      rw [Ledger.live_hashTablePut h.valid ((k.frameCowRefCounts.get frame).getD 0 + delta), hlive, h.live b hb]
      simp only [hne, and_false, if_false]
      omega
  · rw [if_neg hpositive]
    constructor
    case pointers | threads | deadTasks | threadDestroyed => rfl
    case live =>
      intro b hb
      rw [Ledger.live_hashTableRemove h.valid, holds_of_ofCounters hb, holds_of_ofCounters hb]
      simp
    case inv =>
      refine ⟨(HashTable.remove_spec h.valid _).1, fun b hb => ?_⟩
      rw [Ledger.live_hashTableRemove h.valid, h.live b hb]
      dsimp only
      omega

theorem changeRefcounts_spec (h : CountersInv k) (p : Nat) (frames : List Nat) (delta : Int) :
    ChangesCounters k (k.changeRefcounts p frames delta) := by
  induction frames generalizing k with
  | nil => exact ⟨rfl, rfl, rfl, rfl, fun _ _ => rfl, h⟩
  | cons frame frames ih =>
    have hfirst := changeCowFrameRefcount_spec h p frame delta
    exact hfirst.trans (ih hfirst.inv)

/-- Other blocks are allocated or freed. -/
theorem CountersInv.other (h : CountersInv k) (htable : k'.frameCowRefCounts = k.frameCowRefCounts)
    (hlive : ∀ b, b.ofCounters = true → k'.heap.live b = k.heap.live b) : CountersInv k' := by
  refine ⟨htable ▸ h.valid, fun b hb => ?_⟩
  rw [htable, hlive, h.live b hb]
  cases b with
  | entry t key | entryNode t key =>
    simp only [Block.keyIn, ne_eq, ite_eq_right_iff, reduceCtorEq, imp_false, not_not] at hb
    rw [hb]
    rfl
  | _ => exact absurd rfl hb

end HeapLedger

end LuckOS
