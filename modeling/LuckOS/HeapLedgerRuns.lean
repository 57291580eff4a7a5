import LuckOS.HeapLedgerInvariant

/-!
# Blocks that are never freed

In every reachable state the live blocks are those of `Balanced`: the structs of the processes
and threads that are not destroyed, and the blocks of the tables. The bucket arrays of two tables of a
process and the node of its thread are held for ever, so that no child gives back all of its blocks.
-/

namespace LuckOS

open Function Runs

namespace HeapLedger

variable {k : HeapLedger} {pointers : ProcessPointers} {p c : Nat} {as : List Action}

theorem start_has (t : TableName) (key : Nat) :
    start.has t key = decide (t = .threads 1 ∧ key = 1 ∨ t = .processesMap ∧ (key = 0 ∨ key = 1)) := by
  have hinit : (HashTable.init : HashTable Nat).Valid := HashTable.init_valid
  have hget : ∀ key, (HashTable.init : HashTable Nat).get key = none := fun _ => HashTable.get_init
  cases t with
  | threads p =>
    change ((update (fun _ => HashTable.init) 1 (HashTable.init.put 1 1).2 p).get key).isSome = _
    by_cases hp : p = 1
    · rw [hp, update_self, (HashTable.put_spec hinit 1 1).2.2]
      by_cases hkey : key = 1 <;> simp [hkey, hget]
    · simp [hp, hget]
  | processesMap =>
    change ((((HashTable.init.put 0 0).2.put 1 1).2).get key).isSome = _
    rw [(HashTable.put_spec (HashTable.put_spec hinit 0 0).1 1 1).2.2, (HashTable.put_spec hinit 0 0).2.2]
    by_cases hzero : key = 0
    · simp [hzero]
    · by_cases hone : key = 1 <;> simp [hzero, hone, hget]
  | children p => exact (congrArg Option.isSome (hget key)).trans (by simp)
  | exitChildren p => exact (congrArg Option.isSome (hget key)).trans (by simp)
  | frameCowRefCounts => exact (congrArg Option.isSome HashTable.get_init).trans (by simp)

theorem start_live (b : Block) : start.heap.live b = startBlocks.count b := by
  change (Ledger.empty.kmallocs startBlocks).live b = _
  rw [Ledger.live_kmallocs, Ledger.live_empty, Int.zero_add]

theorem start_entries (b : Block) (hb : ∃ t key, b = .entry t key ∨ b = .entryNode t key) :
    (startBlocks.count b : Int) = start.entries b := by
  obtain ⟨t, key, hb⟩ := hb
  have hentries : start.entries b = if start.has t key then 1 else 0 := by
    rcases hb with rfl | rfl <;> rfl
  rw [hentries, start_has]
  by_cases hstart : t = .threads 1 ∧ key = 1 ∨ t = .processesMap ∧ (key = 0 ∨ key = 1)
  · rw [if_pos (decide_eq_true hstart)]
    rcases hstart with ⟨rfl, rfl⟩ | ⟨rfl, rfl | rfl⟩ <;> rcases hb with rfl | rfl <;> rfl
  · rw [if_neg (by simpa using hstart)]
    have hno : b ∉ startBlocks := by
      intro hmem
      rcases hb with rfl | rfl <;>
        simp only [startBlocks, processBlocks, threadBlocks, List.cons_append, List.nil_append, List.mem_cons, List.not_mem_nil,
          reduceCtorEq, Block.entry.injEq, Block.entryNode.injEq, false_or, or_false] at hmem <;> tauto
    rw [List.count_eq_zero_of_not_mem hno]
    rfl

/-- Only the first two processes have blocks. -/
theorem count_startBlocks {b : Block} {q : Nat} (hb : b.owner = some q) (hq : 2 ≤ q) : startBlocks.count b = 0 := by
  refine List.count_eq_zero_of_not_mem fun hmem => ?_
  have howners : ∀ b ∈ startBlocks, b.owner = none ∨ b.owner = some 0 ∨ b.owner = some 1 := by decide
  have howner := howners b hmem
  rw [hb] at howner
  simp only [reduceCtorEq, Option.some.injEq, false_or] at howner
  omega

theorem start_balanced : Balanced start := by
  have hunborn : ∀ q, start.holdings.unborn q = decide (q ≠ 1) := by
    intro q
    change decide ((if q = 1 then ProcessPc.user else .unborn) = .unborn) = _
    by_cases hq : q = 1 <;> simp [hq]
  have hcreated : start.holdings.created = 2 := rfl
  have hnames : ∀ q, q = 0 ∨ q = 1 ∨ (2 ≤ q ∧ ¬ q < 2 ∧ q ≠ 1) := by omega
  refine ⟨⟨HashTable.init_valid, fun b hb => ?_⟩, fun b hb => ?_⟩
  · rw [start_live]
    cases b with
    | entry t key | entryNode t key =>
      obtain rfl : t = .frameCowRefCounts := by
        by_contra ht
        exact hb (if_neg ht)
      have hget : start.frameCowRefCounts.get key = none := HashTable.get_init
      simp [holds, Block.keyIn, hget, startBlocks, processBlocks, threadBlocks]
    | _ => exact absurd rfl hb
  · rw [start_live]
    cases b with
    | pcb q | stackIndexes q | tcb q | kernelStack q | threadNode q =>
      rcases hnames q with rfl | rfl | ⟨hq, hlt, hne⟩
      · rfl
      · rfl
      · rw [count_startBlocks rfl hq]
        simp [Holdings.blocks, entries, hcreated, hunborn, hlt, hne]
    | buckets t =>
      cases t with
      | threads q | children q | exitChildren q =>
        rcases hnames q with rfl | rfl | ⟨hq, hlt, -⟩
        · rfl
        · rfl
        · rw [count_startBlocks rfl hq]
          simp [Holdings.blocks, Holdings.buckets, entries, hcreated, hlt]
      | processesMap | frameCowRefCounts => rfl
    | deadTask q | deadProcess q | copiedPageDir q | copiedPageTable q => rfl
    | entry t key =>
      rw [start_entries _ ⟨t, key, .inl rfl⟩]
      exact (Int.zero_add _).symm
    | entryNode t key =>
      rw [start_entries _ ⟨t, key, .inr rfl⟩]
      exact (Int.zero_add _).symm
    | refCount => cases hb

theorem start_inv : LedgerInv start := by
  have hinit : (HashTable.init : HashTable Nat).Valid := HashTable.init_valid
  constructor
  case pointers => exact ProcessPointers.start_freedInv
  case threads =>
    intro p
    change (update (fun _ => HashTable.init) 1 (HashTable.init.put 1 1).2 p).Valid
    by_cases hp : p = 1
    · rw [hp, update_self]
      exact (HashTable.put_spec hinit 1 1).1
    · rw [update_of_ne hp]
      exact hinit
  case tasksOnce => exact .nil
  case tasks => exact fun hp => nomatch hp
  case destroyed => exact fun hp => nomatch hp
  case balanced => exact start_balanced

/-- In every reachable state the ledger agrees with the blocks that can still be reached. -/
theorem inv_of_run (hrun : Run (Steps step) start as k) : LedgerInv k :=
  hrun.invariant (fun h hstep => h.step hstep) start_inv

/-- What is left of a process that has been destroyed with its thread. -/
structure LeftOver (k : HeapLedger) (c : Nat) : Prop where
  freed : ∀ b ∈ [Block.pcb c, .stackIndexes c, .tcb c, .kernelStack c, .deadTask c, .deadProcess c, .copiedPageDir c,
    .copiedPageTable c, .buckets (.exitChildren c)], k.heap.live b = 0
  leaked : ∀ b ∈ [Block.buckets (.threads c), .buckets (.children c), .threadNode c], k.heap.live b = 1

theorem LedgerInv.leftOver (h : LedgerInv k) (hc : k.Over c) : LeftOver k c := by
  have hlives : Processes.Lives k.procs := h.pointers.family.lives
  have hdelivered := hlives.ends (hlives.destroys hc.1)
  have hcreated : c < k.holdings.created := hlives.created_of_delivered hdelivered
  have hfreed : k.holdings.freed c = true := h.pointers.destroyed hc.1
  have hexited : k.holdings.exited c = true := h.pointers.ends (Processes.ended_of_delivered hdelivered)
  have hborn : k.holdings.unborn c = false := by
    refine decide_eq_false fun hunborn => ?_
    rw [hunborn] at hdelivered
    cases hdelivered
  have hgone : k.holdings.threadDestroyed c = true := hc.2
  have htask : c ∉ k.holdings.deadTasks := by
    intro hmem
    have hdestroyed := (h.tasks hmem).2
    rw [hc.2] at hdestroyed
    cases hdestroyed
  have hdead : c ∉ k.holdings.deadProcesses := by
    intro hmem
    have hdestroyed := (hlives.dead hmem).2
    rw [hc.1] at hdestroyed
    cases hdestroyed
  have hlive : ∀ {b n}, b.ofCounters = false → k.entries b = 0 → k.holdings.blocks b = n → k.heap.live b = n := by
    intro b n hcounters hentries hblocks
    rw [h.balanced.live b hcounters, hentries, hblocks, Int.add_zero]
  constructor
  case freed =>
    simp only [List.forall_mem_cons]
    refine ⟨hlive rfl rfl ?_, hlive rfl rfl ?_, hlive rfl rfl ?_, hlive rfl rfl ?_, hlive rfl rfl ?_, hlive rfl rfl ?_,
      hlive rfl rfl rfl, hlive rfl rfl rfl, hlive rfl rfl ?_, by simp⟩
    all_goals simp [Holdings.blocks, Holdings.buckets, hfreed, hexited, hgone, htask, hdead]
  case leaked =>
    simp only [List.forall_mem_cons]
    refine ⟨hlive rfl rfl (if_pos hcreated), hlive rfl rfl (if_pos hcreated), hlive rfl rfl (if_pos hborn), by simp⟩

/-- No process gives back all of its blocks. The bucket arrays of the tables of its threads and children and the node
of its thread are never freed. -/
theorem not_conserved (hrun : Run (Steps step) start as k) (hc : k.Over c) : ¬ Conserved k c := by
  intro hconserved
  have hlive := ((inv_of_run hrun).leftOver hc).leaked (.buckets (.threads c)) (by simp)
  have hzero := (Ledger.live_eq_zero k.heap (.buckets (.threads c))).mpr (hconserved _ rfl)
  omega

/-- The first process forks a child, which writes to a shared page and exits, and collects it. -/
def sampleLife : List Action :=
  [.run (.call 1 .fork) [], .run (.advance 1) [40, 41], .run (.advance 1) [], .run (.advance 1) [], .fault 2 40,
    .run (.call 1 (.wait 0)) [], .run (.advance 1) [], .run (.advance 1) [], .run (.call 2 (.exit 7)) [],
    .run (.advance 2) [41], .run (.advance 2) [], .run (.advance 2) [], .run (.advance 2) [], .run (.advance 2) [],
    .run (.advance 1) [], .run (.advance 1) [], .run (.destroy 2) [], .destroyThread 2]

theorem sample_over : ∃ k, Run (Steps step) start sampleLife k ∧ k.Over 2 := by
  have hcheck : (execute step start sampleLife).any (fun k =>
      decide (k.procs.destroyed 2 = true ∧ k.threadDestroyed 2 = true)) = true := by
    decide +kernel
  rw [Option.any_eq_true] at hcheck
  obtain ⟨k, hk, hover⟩ := hcheck
  have hover' : k.procs.destroyed 2 = true ∧ k.threadDestroyed 2 = true := of_decide_eq_true hover
  exact ⟨k, run_of_execute hk, hover'⟩

theorem sample_not_conserved : ∃ k, Run (Steps step) start sampleLife k ∧ ¬ Conserved k 2 := by
  obtain ⟨k, hrun, hover⟩ := sample_over
  exact ⟨k, hrun, not_conserved hrun hover⟩

theorem life_leaks : ∃ k, Run (Steps step) start sampleLife k ∧ k.Over 2 ∧ ¬ Conserved k 2 := by
  have hcheck : (execute step start sampleLife).any (fun k =>
      decide ((k.procs.destroyed 2 = true ∧ k.threadDestroyed 2 = true) ∧
        k.heap.allocated.count (.threadNode 2) ≠ k.heap.freed.count (.threadNode 2))) = true := by
    decide +kernel
  rw [Option.any_eq_true] at hcheck
  obtain ⟨k, hk, hleak⟩ := hcheck
  obtain ⟨hover, hnode⟩ := of_decide_eq_true hleak
  exact ⟨k, run_of_execute hk, hover, fun hconserved => hnode (hconserved _ rfl)⟩

end HeapLedger

end LuckOS
