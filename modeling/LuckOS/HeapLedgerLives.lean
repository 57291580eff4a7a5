import LuckOS.HeapLedgerSteps

/-!
# The blocks of a process at its birth and at its exit

`create_process` and `clone_crt_page_dir` allocate the blocks of a process, and `process_exit` frees those of its tables
and of its exited children.
-/

namespace LuckOS

open Function Runs

namespace HeapLedger

variable {k k' : HeapLedger} {pointers : ProcessPointers} {p c frame : Nat} {frames : List Nat}

/-- Entries of other tables than that of the counters. -/
theorem entries_congr (hpointers : k'.pointers = k.pointers) (hthreads : k'.threads = k.threads) {b : Block}
    (hb : b.ofCounters = false) : k'.entries b = k.entries b := by
  cases b with
  | entry t key | entryNode t key =>
    have hhas : k'.has t key = k.has t key := by
      cases t with
      | frameCowRefCounts => cases hb
      | _ => simp only [has, procs, hpointers, hthreads]
    simp only [entries, hhas]
  | _ => rfl

theorem Balanced.changeCounters (h : Balanced k) (hc : ChangesCounters k k') : Balanced k' := by
  refine ⟨hc.inv, fun b hb => ?_⟩
  have hprocs : k'.procs = k.procs := congrArg ProcessPointers.procs hc.pointers
  have hholdings : k'.holdings = k.holdings :=
    holdings_congr (by rw [hprocs]) (by rw [hc.pointers]) (fun _ => by rw [hprocs]) (fun _ => by rw [hprocs]) (by rw [hprocs])
      hc.deadTasks hc.threadDestroyed
  rw [hc.live b hb, hholdings, entries_congr hc.pointers hc.threads hb, h.live b hb]

theorem ChangesCounters.proceed (h : ChangesCounters k k') (pointers : ProcessPointers) :
    ChangesCounters (k.proceed pointers) (k'.proceed pointers) :=
  ⟨rfl, h.threads, h.deadTasks, h.threadDestroyed, h.live, ⟨h.inv.valid, h.inv.live⟩⟩

theorem cloneCrtPageDir_spec (h : CountersInv k) (p : Nat) (frames : List Nat) :
    ChangesCounters k (k.cloneCrtPageDir p frames) := by
  have hcopied : ∀ b : Block, b.ofCounters = true → [Block.copiedPageDir p, .copiedPageTable p].count b = 0 := by
    intro b hb
    cases b <;> simp_all [Block.ofCounters]
  have hmiddle : CountersInv (k.onHeap (·.kmallocs [.copiedPageDir p, .copiedPageTable p])) := by
    refine h.other rfl fun b hb => ?_
    change (k.heap.kmallocs _).live b = _
    rw [Ledger.live_kmallocs, hcopied b hb]
    simp
  have hchanges := changeRefcounts_spec hmiddle p frames 1
  refine ⟨hchanges.pointers, hchanges.threads, hchanges.deadTasks, hchanges.threadDestroyed, fun b hb => ?_, ?_⟩
  · change ((HeapLedger.heap _).kfrees _).live b = _
    rw [Ledger.live_kfrees, hchanges.live b hb]
    change (k.heap.kmallocs _).live b - _ = _
    rw [Ledger.live_kmallocs]
    omega
  · refine hchanges.inv.other rfl fun b hb => ?_
    change ((HeapLedger.heap _).kfrees _).live b = _
    rw [Ledger.live_kfrees, hcopied b hb]
    simp

theorem holds_destroy {table : HashTable Nat} (hvalid : table.Valid) (t : TableName) (b : Block) :
    holds t table.destroy b = 0 := by
  simp only [holds, (HashTable.destroy_spec hvalid).2]
  cases b.keyIn t <;> rfl

/-- Tables of processes that are not created have no entries. -/
theorem LedgerInv.fresh (h : LedgerInv k) (hp : k.procs.created ≤ p) (key : Nat) :
    (k.procs.pcb p).children.get key = none ∧ (k.procs.pcb p).exitChildren.get key = none := by
  have hlives : Processes.Lives k.procs := h.pointers.family.lives
  constructor
  · by_contra hne
    obtain ⟨c, hparent, -⟩ := (h.pointers.family.kids.keys p key).mp hne
    have hlt := hlives.parents hparent
    omega
  · cases hget : (k.procs.pcb p).exitChildren.get key with
    | none => rfl
    | some c =>
      have hlt := hlives.parents (h.pointers.family.tables.entry hget).2.1
      omega

/-- The fields after `create_process`. -/
theorem forkCreate_fields (hp : k.procs.pc p = .forkCreate) (hpointers : k.pointers.step (.advance p) = some pointers) :
    (∃ id, pointers.procs.pcb = update k.procs.pcb k.procs.created (Processes.newPcb id)) ∧
      pointers.procs.created = k.procs.created + 1 ∧ pointers.procs.deadProcesses = k.procs.deadProcesses ∧
      pointers.procs.pc = update k.procs.pc p (.forkAdd k.procs.created) ∧ pointers.freed = k.pointers.freed ∧
      pointers.processesMap = ProcessPointers.addNewProcess pointers.procs k.procs.created
        (ProcessPointers.addNewProcess pointers.procs k.procs.created k.pointers.processesMap) := by
  obtain ⟨hprocs, hmap, hfreed⟩ := ProcessPointers.procs_step hpointers
  have hnew : k.procs.forkCreate p = some pointers.procs := by
    have hadvance : k.procs.advance p = some pointers.procs := hprocs
    rwa [Processes.advance, hp] at hadvance
  obtain ⟨⟨id, pool⟩, -, heq⟩ := Option.map_eq_some_iff.mp hnew
  have hfreed' : pointers.freed = k.pointers.freed := by
    change k.pointers.procs.pc p = .forkCreate at hp
    rw [hfreed, ProcessPointers.nextFreed, hp]
  refine ⟨⟨id, ?_⟩, ?_, ?_, ?_, hfreed', hmap.trans (if_pos hp)⟩
  · rw [← heq]
    rfl
  · rw [← heq]
  · rw [← heq]
    rfl
  · rw [← heq]
    rfl

/-- The ledger after `create_process`. The new process is put into `processes_map` twice. -/
theorem createProcess_live (h : LedgerInv k) {procs : Processes} (c : Nat) (frames : List Nat) {processesMap : HashTable Nat}
    (hmap : processesMap = ProcessPointers.addNewProcess procs c (ProcessPointers.addNewProcess procs c k.pointers.processesMap)) :
    ((k.createProcess procs c frames).threads = k.threads ∧ (k.createProcess procs c frames).deadTasks = k.deadTasks ∧
      (k.createProcess procs c frames).threadDestroyed = k.threadDestroyed) ∧ CountersInv (k.createProcess procs c frames) ∧
      ∀ b, b.ofCounters = false → (k.createProcess procs c frames).heap.live b = k.heap.live b + (processBlocks c).count b +
        holds .processesMap processesMap b - holds .processesMap k.pointers.processesMap b := by
  have hother : ∀ b : Block, b.ofCounters = true → (processBlocks c).count b = 0 := by
    intro b hb
    cases b with
    | entry t key | entryNode t key | refCount q frame => simp [processBlocks]
    | _ => cases hb
  have hmiddle : CountersInv (k.onHeap (·.kmallocs (processBlocks c))) := by
    refine h.balanced.counters.other rfl fun b hb => ?_
    change (k.heap.kmallocs _).live b = _
    rw [Ledger.live_kmallocs, hother b hb]
    simp
  have hchanges := cloneCrtPageDir_spec hmiddle c frames
  have hvalid : k.pointers.processesMap.Valid := h.pointers.valid
  have hvalid' : (ProcessPointers.addNewProcess procs c k.pointers.processesMap).Valid :=
    ProcessPointers.addNewProcess_valid hvalid c
  have hlive : ∀ b, (k.createProcess procs c frames).heap.live b =
      ((k.onHeap (·.kmallocs (processBlocks c))).cloneCrtPageDir c frames).heap.live b +
        holds .processesMap processesMap b - holds .processesMap k.pointers.processesMap b := by
    intro b
    change (((HeapLedger.heap _).hashTablePut _ _ _).hashTablePut _ _ _).live b = _
    rw [Ledger.live_hashTablePut hvalid' c, Ledger.live_hashTablePut hvalid c, hmap]
    change _ + holds .processesMap (ProcessPointers.addNewProcess _ _ _) b - _ + holds .processesMap
      (ProcessPointers.addNewProcess _ _ (ProcessPointers.addNewProcess _ _ _)) b - _ = _
    omega
  refine ⟨⟨hchanges.threads, hchanges.deadTasks, hchanges.threadDestroyed⟩, ?_, fun b hb => ?_⟩
  · refine hchanges.inv.other rfl fun b hb => ?_
    rw [hlive, holds_ofCounters (by simp) hb, holds_ofCounters (by simp) hb]
    omega
  · rw [hlive, hchanges.live b hb]
    change (k.heap.kmallocs _).live b + _ - _ = _
    rw [Ledger.live_kmallocs]

theorem Balanced.forkCreate (h : LedgerInv k) (hp : k.procs.pc p = .forkCreate)
    (hpointers : k.pointers.step (.advance p) = some pointers) (frames : List Nat) :
    Balanced ((k.createProcess pointers.procs k.procs.created frames).proceed pointers) := by
  have hlives : Processes.Lives k.procs := h.pointers.family.lives
  obtain ⟨⟨id, hpcb⟩, hcreated, hdead, hpc, hfreed, hmap⟩ := forkCreate_fields hp hpointers
  obtain ⟨⟨hthreads, htasks, hdestroyed⟩, hcounters, hlive⟩ := createProcess_live h k.procs.created frames hmap
  have hunfreed : k.holdings.freed k.holdings.created = false := by
    by_contra hne
    have hdelivered := h.pointers.freed (eq_true_of_ne_false hne)
    exact Nat.lt_irrefl _ (hlives.created_of_delivered hdelivered)
  have hborn : ∀ q, pointers.procs.pc q = .unborn ↔ k.procs.pc q = .unborn := by
    rw [hpc]
    exact born_of_update (by simp [hp]) (by simp)
  have hnewExited : (pointers.procs.pcb k.procs.created).exited = false := by
    rw [hpcb, update_self]
    rfl
  have holdExited : ∀ q < k.procs.created, (pointers.procs.pcb q).exited = (k.procs.pcb q).exited := by
    intro q hq
    rw [hpcb, update_of_ne (Nat.ne_of_lt hq)]
  have hholdings : ((k.createProcess pointers.procs k.procs.created frames).proceed pointers).holdings =
      k.holdings.create fun q => (pointers.procs.pcb q).exited :=
    holdings_eq hcreated hfreed (fun _ => rfl) (fun q => (hborn q).trans decide_eq_true_iff.symm) hdead htasks hdestroyed
  have hblocks := Holdings.blocks_create hunfreed hnewExited holdExited
  have hhas : ∀ t, t ≠ .processesMap → (k.proceed pointers).has t = k.has t := by
    intro t ht
    funext key
    cases t with
    | children q =>
      change ((pointers.procs.pcb q).children.get key).isSome = ((k.procs.pcb q).children.get key).isSome
      by_cases hq : q = k.procs.created
      · rw [hpcb, hq, update_self, (h.fresh (Nat.le_refl _) key).1]
        exact congrArg Option.isSome HashTable.get_init
      · rw [hpcb, update_of_ne hq]
    | exitChildren q =>
      change ((pointers.procs.pcb q).exitChildren.get key).isSome = ((k.procs.pcb q).exitChildren.get key).isSome
      by_cases hq : q = k.procs.created
      · rw [hpcb, hq, update_self, (h.fresh (Nat.le_refl _) key).2]
        exact congrArg Option.isSome HashTable.get_init
      · rw [hpcb, update_of_ne hq]
    | processesMap => exact absurd rfl ht
    | threads | frameCowRefCounts => rfl
  refine ⟨⟨hcounters.valid, hcounters.live⟩, fun b hb => ?_⟩
  have hentries : (k.proceed pointers).entries b = k.entries b + holds .processesMap pointers.processesMap b -
      holds .processesMap k.pointers.processesMap b := entries_table hhas (fun key => rfl) (fun key => rfl) b
  have hcount : k.holdings.created = k.procs.created := rfl
  have hsame : ((k.createProcess pointers.procs k.procs.created frames).proceed pointers).entries b =
      (k.proceed pointers).entries b := by
    refine entries_congr ?_ ?_ hb
    · rfl
    · exact hthreads
  have hold := h.balanced.live b hb
  change (k.createProcess pointers.procs k.procs.created frames).heap.live b = _
  rw [hlive b hb, hholdings, hblocks, hsame, hentries, hold, hcount]
  omega

/-- The exited children of a process, which are freed when it exits. -/
def listed (k : HeapLedger) (p : Nat) : List Nat := (k.procs.pcb p).exitChildren.entries.map Prod.snd

theorem LedgerInv.listed (h : LedgerInv k) (p : Nat) : (k.listed p).Nodup ∧
    ∀ c ∈ k.listed p, c < k.procs.created ∧ k.pointers.freed c = false := by
  have hvalid : (k.procs.pcb p).exitChildren.Valid := h.pointers.family.tables.valid p
  have hentry : ∀ kv ∈ (k.procs.pcb p).exitChildren.entries, (k.procs.pcb kv.2).id = kv.1 ∧
      (k.procs.pc kv.2).delivered = true ∧ k.pointers.freed kv.2 = false := by
    intro kv hkv
    have hget : (k.procs.pcb p).exitChildren.get kv.1 = some kv.2 := (HashTable.get_eq_some hvalid).mpr hkv
    obtain ⟨hid, -, hdelivered, -⟩ := h.pointers.family.tables.entry hget
    exact ⟨hid, hdelivered, h.pointers.listed hget⟩
  constructor
  · refine List.Nodup.of_map (fun c => (k.procs.pcb c).id) ?_
    have hkeys : (k.listed p).map (fun c => (k.procs.pcb c).id) = (k.procs.pcb p).exitChildren.entries.map Prod.fst := by
      rw [HeapLedger.listed, List.map_map]
      exact List.map_congr_left fun kv hkv => (hentry kv hkv).1
    rw [hkeys]
    exact hvalid.unique
  · intro c hc
    obtain ⟨kv, hkv, rfl⟩ := List.mem_map.mp hc
    obtain ⟨-, hdelivered, hfreed⟩ := hentry kv hkv
    exact ⟨h.pointers.family.lives.created_of_delivered hdelivered, hfreed⟩

/-- The section of `process_exit` under the lock of the process, in front of the release of the user pages. -/
def exitBlocks (k : HeapLedger) (p : Nat) : HeapLedger :=
  let threads := ((k.threads p).remove p).2
  let heap := (k.heap.hashTableRemove (.threads p) (k.threads p) p).kfree (.stackIndexes p)
  let heap := (heap.hashTableClear (.threads p) threads).hashTableDestroy (.exitChildren p) (k.procs.pcb p).exitChildren
  { k with threads := update k.threads p threads.destroy, heap := heap }

/-- The table of the threads alone. -/
def clearThreads (k : HeapLedger) (p : Nat) : HeapLedger :=
  { k with threads := update k.threads p ((k.threads p).remove p).2.destroy }

theorem entries_clearThreads (h : LedgerInv k) (p : Nat) (b : Block) :
    (k.clearThreads p).entries b = k.entries b - holds (.threads p) (k.threads p) b := by
  have hother : ∀ t, t ≠ .threads p → (k.clearThreads p).has t = k.has t := by
    intro t ht
    funext key
    cases t with
    | threads q =>
      have hq : q ≠ p := fun heq => ht (heq ▸ rfl)
      change ((update k.threads p _ q).get key).isSome = _
      rw [update_of_ne hq]
      rfl
    | _ => rfl
  have hnew : ∀ key, (k.clearThreads p).has (.threads p) key = (((k.threads p).remove p).2.destroy.get key).isSome := by
    intro key
    change ((update k.threads p _ p).get key).isSome = _
    rw [update_self]
  rw [entries_table hother (fun key => rfl) hnew b, holds_destroy (HashTable.remove_spec (h.threads p) p).1]
  omega

theorem exitBlocks_live (h : LedgerInv k) (p : Nat) (b : Block) :
    (k.exitBlocks p).heap.live b = k.heap.live b - holds (.threads p) (k.threads p) b -
      holds (.exitChildren p) (k.procs.pcb p).exitChildren b -
      ([.stackIndexes p, .buckets (.exitChildren p)] ++ (k.listed p).map .pcb : List Block).count b := by
  have hvalid : (k.procs.pcb p).exitChildren.Valid := h.pointers.family.tables.valid p
  have hthreads := h.threads p
  have hcount : (([.stackIndexes p, .buckets (.exitChildren p)] ++ (k.listed p).map .pcb : List Block).count b : Int) =
      (if .stackIndexes p = b then 1 else 0) + (if .buckets (.exitChildren p) = b then 1 else 0) +
        ((k.listed p).map Block.pcb).count b := by
    simp only [List.count_append, List.count_cons, List.count_nil, beq_iff_eq]
    split_ifs <;> push_cast <;> omega
  change ((((k.heap.hashTableRemove _ _ _).kfree _).hashTableClear _ _).hashTableDestroy _ _).live b = _
  rw [Ledger.live_hashTableDestroy hvalid, Ledger.live_hashTableClear (HashTable.remove_spec hthreads p).1, Ledger.live_kfree,
    Ledger.live_hashTableRemove hthreads, hcount, HeapLedger.listed]
  omega

theorem exitBlocks_counters (h : LedgerInv k) (p : Nat) : CountersInv (k.exitBlocks p) := by
  refine h.balanced.counters.other rfl fun b hb => ?_
  have hcount : ([.stackIndexes p, .buckets (.exitChildren p)] ++ (k.listed p).map .pcb : List Block).count b = 0 := by
    refine List.count_eq_zero_of_not_mem fun hmem => ?_
    rcases List.mem_append.mp hmem with hmem | hmem
    · cases b <;> simp_all [Block.ofCounters]
    · obtain ⟨q, -, rfl⟩ := List.mem_map.mp hmem
      cases hb
  rw [exitBlocks_live h, hcount, holds_ofCounters (by simp) hb, holds_ofCounters (by simp) hb]
  simp

theorem Balanced.exitOwn {code : Int} (h : LedgerInv k) (hp : k.procs.pc p = .exitOwn code)
    (hexited : (k.procs.pcb p).exited = false) (frames : List Nat) :
    Balanced ((k.exitOwn p frames).proceed ⟨(k.procs.exitOwn p code).goto p .exitParent, k.pointers.processesMap,
      fun c => k.pointers.freed c || (k.procs.pcb p).exitChildren.entries.any (·.2 == c)⟩) := by
  have hvalid : (k.procs.pcb p).exitChildren.Valid := h.pointers.family.tables.valid p
  have hcreated : p < k.procs.created := (h.pointers.family.lives.acting (by
    change k.procs.pc p ≠ .unborn
    rw [hp]
    nofun)).1
  have hborn : ∀ q, update k.procs.pc p .exitParent q = .unborn ↔ k.procs.pc q = .unborn :=
    born_of_update (by simp [hp]) (by simp)
  obtain ⟨honce, hchildren⟩ := h.listed p
  refine Balanced.changeCounters ?_ ((changeRefcounts_spec (exitBlocks_counters h p) p frames (-1)).proceed _)
  have hholdings : ((k.exitBlocks p).proceed ⟨(k.procs.exitOwn p code).goto p .exitParent, k.pointers.processesMap,
      fun c => k.pointers.freed c || (k.procs.pcb p).exitChildren.entries.any (·.2 == c)⟩).holdings =
        k.holdings.exit p (k.listed p) := by
    refine holdings_eq rfl ?_ (fun q => ?_) (fun q => (hborn q).trans decide_eq_true_iff.symm) rfl rfl rfl
    · funext c
      change (_ || _) = (_ || _)
      congr 1
      rw [Bool.eq_iff_iff, List.any_eq_true, decide_eq_true_iff, HeapLedger.listed, List.mem_map]
      simp only [beq_iff_eq]
    · change (update k.procs.pcb p _ q).exited = update k.holdings.exited p true q
      by_cases hq : q = p
      · rw [hq, update_self, update_self]
      · rw [update_of_ne hq, update_of_ne hq]
        rfl
  have hother : ∀ t, t ≠ .exitChildren p → ((k.exitBlocks p).proceed ⟨(k.procs.exitOwn p code).goto p .exitParent,
      k.pointers.processesMap, fun c => k.pointers.freed c ||
        (k.procs.pcb p).exitChildren.entries.any (·.2 == c)⟩).has t = (k.clearThreads p).has t := by
    intro t ht
    funext key
    cases t with
    | children q =>
      change ((update k.procs.pcb p _ q).children.get key).isSome = ((k.procs.pcb q).children.get key).isSome
      by_cases hq : q = p
      · rw [hq, update_self]
      · rw [update_of_ne hq]
    | exitChildren q =>
      have hq : q ≠ p := fun heq => ht (heq ▸ rfl)
      change ((update k.procs.pcb p _ q).exitChildren.get key).isSome = ((k.procs.pcb q).exitChildren.get key).isSome
      rw [update_of_ne hq]
    | _ => rfl
  have hnew : ∀ key, ((k.exitBlocks p).proceed ⟨(k.procs.exitOwn p code).goto p .exitParent,
      k.pointers.processesMap, fun c => k.pointers.freed c ||
        (k.procs.pcb p).exitChildren.entries.any (·.2 == c)⟩).has (.exitChildren p) key =
          ((k.procs.pcb p).exitChildren.destroy.get key).isSome := by
    intro key
    change ((update k.procs.pcb p _ p).exitChildren.get key).isSome = _
    rw [update_self]
  refine h.balanced.change rfl fun b => ?_
  have hold : ∀ key, (k.clearThreads p).has (.exitChildren p) key = ((k.procs.pcb p).exitChildren.get key).isSome :=
    fun _ => rfl
  have hentries := entries_table hother hold hnew b
  have hblocks := Holdings.blocks_exit (x := k.holdings) hcreated hexited honce hchildren b
  rw [holds_destroy hvalid, entries_clearThreads h] at hentries
  change (k.exitBlocks p).heap.live b = _
  rw [exitBlocks_live h, hholdings, hblocks, hentries]
  omega

end HeapLedger

end LuckOS
