import LuckOS.HeapHoldings

/-!
# Steps of the processes and their blocks

The steps that change one table, one list or the structs of one process keep the ledger balanced.
-/

namespace LuckOS

open Function Runs

namespace HeapLedger

variable {k k' : HeapLedger} {pointers : ProcessPointers} {p c pid : Nat}

structure LedgerInv (k : HeapLedger) : Prop where
  pointers : k.pointers.FreedInv
  threads : ∀ p, (k.threads p).Valid
  tasksOnce : k.deadTasks.Nodup
  tasks : ∀ {p}, p ∈ k.deadTasks → (k.procs.pc p).recorded = true ∧ k.threadDestroyed p = false
  destroyed : ∀ {p}, k.threadDestroyed p = true → (k.procs.pc p).recorded = true
  balanced : Balanced k

/-- The state after a step of the processes with this effect. -/
def proceed (k : HeapLedger) (pointers : ProcessPointers) : HeapLedger := { k with pointers := pointers }

/-- The places of threads that are running or have ended. -/
theorem born_of_update {places : Nat → ProcessPc} {pc : ProcessPc} (hp : places p ≠ .unborn) (hpc : pc ≠ .unborn) (q : Nat) :
    update places p pc q = .unborn ↔ places q = .unborn := by
  by_cases hq : q = p
  · rw [hq, update_self]
    exact iff_of_false hpc hp
  · rw [update_of_ne hq]

/-- No block is allocated or freed. -/
theorem Balanced.same (h : Balanced k) (hholdings : (k.proceed pointers).holdings = k.holdings)
    (hhas : (k.proceed pointers).has = k.has) : Balanced (k.proceed pointers) := by
  refine h.change rfl fun b => ?_
  have hentries : (k.proceed pointers).entries b = k.entries b := by
    simp only [entries, hhas]
  rw [hholdings, hentries]
  simp [proceed]

/-- One table changes. -/
theorem Balanced.table {f : Ledger Block → Ledger Block} {t : TableName} {table table' : HashTable Nat} (h : Balanced k)
    (hf : ∀ b, (f k.heap).live b = k.heap.live b + holds t table' b - holds t table b)
    (hholdings : (k.proceed pointers).holdings = k.holdings) (hother : ∀ t', t' ≠ t → (k.proceed pointers).has t' = k.has t')
    (hold : ∀ key, k.has t key = (table.get key).isSome)
    (hnew : ∀ key, (k.proceed pointers).has t key = (table'.get key).isSome) :
    Balanced ((k.onHeap f).proceed pointers) := by
  refine h.change rfl fun b => ?_
  have hentries := entries_table hother hold hnew b
  have hsame : ((k.onHeap f).proceed pointers).entries b = (k.proceed pointers).entries b := rfl
  have hholdings' : ((k.onHeap f).proceed pointers).holdings = k.holdings := hholdings
  have hlive : ((k.onHeap f).proceed pointers).heap.live b = (f k.heap).live b := rfl
  rw [hlive, hf, hsame, hentries, hholdings']
  omega

/-! ### Steps of the processes -/

theorem has_congr (hthreads : k'.threads = k.threads) (hchildren : ∀ q, (k'.procs.pcb q).children = (k.procs.pcb q).children)
    (hexit : ∀ q, (k'.procs.pcb q).exitChildren = (k.procs.pcb q).exitChildren)
    (hmap : k'.pointers.processesMap = k.pointers.processesMap) (hcow : k'.frameCowRefCounts = k.frameCowRefCounts) :
    k'.has = k.has := by
  funext t key
  cases t <;> simp only [has, hthreads, hchildren, hexit, hmap, hcow]

/-- Only `create_process` adds to `processes_map`, and only `process_exit` and `destroy_process` free processes. -/
theorem procs_quiet {procs : Processes} (hpointers : k.pointers.step (.advance p) = some pointers)
    (hprocs : procs = pointers.procs) (hcreate : k.procs.pc p ≠ .forkCreate)
    (hexit : ∀ code, k.procs.pc p ≠ .exitOwn code) :
    pointers = ⟨procs, k.pointers.processesMap, k.pointers.freed⟩ := by
  obtain ⟨-, hmap, hfreed⟩ := ProcessPointers.procs_step hpointers
  have hmap' : pointers.processesMap = k.pointers.processesMap := hmap.trans (if_neg hcreate)
  have hfreed' : pointers.freed = k.pointers.freed := by
    rw [hfreed, ProcessPointers.nextFreed]
    split
    next code hp => exact absurd hp (hexit code)
    next => rfl
  obtain ⟨procs', processesMap, freed⟩ := pointers
  exact ProcessPointers.mk.injEq .. ▸ ⟨hprocs.symm, hmap', hfreed'⟩

/-- The state after a step in which only the processes change. -/
def withProcs (k : HeapLedger) (procs : Processes) : HeapLedger :=
  k.proceed ⟨procs, k.pointers.processesMap, k.pointers.freed⟩

theorem Balanced.forkAdd (h : LedgerInv k) (hp : k.procs.pc p = .forkAdd c) :
    Balanced ((k.onHeap (·.hashTablePut (.children p) (k.procs.pcb p).children (k.procs.pcb c).id)).withProcs
      ((k.procs.addChild p c).goto p (.forkStart c))) := by
  have hunborn : k.procs.pc c = .unborn := by
    refine (h.pointers.family.lives.newborn (p := p) (c := c) ?_).2.2
    change (k.procs.pc p).forking = some c
    rw [hp]
    rfl
  have hne : c ≠ p := by
    rintro rfl
    rw [hp] at hunborn
    cases hunborn
  have hfields := Processes.addChild_fields (k := k.procs) hne
  have hchildren := Processes.addChild_children (k := k.procs) hne
  have hvalid : (k.procs.pcb p).children.Valid := h.pointers.family.kids.valid p
  have hborn : ∀ q, update k.procs.pc p (.forkStart c) q = .unborn ↔ k.procs.pc q = .unborn :=
    born_of_update (by simp [hp]) (by simp)
  refine h.balanced.table (fun b => Ledger.live_hashTablePut hvalid c b)
    (holdings_congr rfl rfl (fun q => (hfields q).2.1) hborn rfl rfl rfl) ?_ (fun key => rfl) ?_
  · intro t ht
    funext key
    cases t with
    | children q =>
      have hq : q ≠ p := fun heq => ht (heq ▸ rfl)
      change (((k.procs.addChild p c).pcb q).children.get key).isSome = _
      rw [hchildren, if_neg hq]
      rfl
    | exitChildren q =>
      change (((k.procs.addChild p c).pcb q).exitChildren.get key).isSome = _
      rw [(hfields q).2.2.2.1]
      rfl
    | threads | processesMap | frameCowRefCounts => rfl
  · intro key
    change (((k.procs.addChild p c).pcb p).children.get key).isSome = _
    rw [hchildren, if_pos rfl]

theorem exitParent_children (procs : Processes) (p parent q : Nat) :
    ((procs.exitParent p parent).pcb q).children = (procs.pcb q).children :=
  ((Processes.keepsKids_exitParent parent).pcb q).1

theorem Balanced.exitParent {parent : Nat} (h : LedgerInv k) (hp : k.procs.pc p = .exitParent) :
    Balanced ((k.onHeap (·.hashTablePut (.exitChildren parent) (k.procs.pcb parent).exitChildren (k.procs.pcb p).id)).withProcs
      ((k.procs.exitParent p parent).goto p .exitThread)) := by
  have hfields := Processes.exitParent_fields (k := k.procs) (p := p) parent
  obtain ⟨hcreated, -, hpc, hdead, -⟩ := Processes.exitParent_rest (k := k.procs) (p := p) parent
  have hvalid : (k.procs.pcb parent).exitChildren.Valid := h.pointers.family.tables.valid parent
  refine h.balanced.table (fun b => Ledger.live_hashTablePut hvalid p b) (holdings_congr hcreated rfl ?_ ?_ hdead rfl rfl) ?_
    (fun key => rfl) ?_
  · exact fun q => (hfields q).2.2.1
  · intro q
    change update (k.procs.exitParent p parent).pc p .exitThread q = .unborn ↔ _
    rw [hpc]
    exact born_of_update (by simp [hp]) (by simp) q
  · intro t ht
    funext key
    cases t with
    | children q =>
      change (((k.procs.exitParent p parent).pcb q).children.get key).isSome = _
      rw [exitParent_children]
      rfl
    | exitChildren q =>
      have hq : q ≠ parent := fun heq => ht (heq ▸ rfl)
      change (((k.procs.exitParent p parent).pcb q).exitChildren.get key).isSome = _
      rw [(hfields q).2.2.2.2.2.2, if_neg hq]
      rfl
    | threads | processesMap | frameCowRefCounts => rfl
  · intro key
    change (((k.procs.exitParent p parent).pcb parent).exitChildren.get key).isSome = _
    rw [(hfields parent).2.2.2.2.2.2, if_pos rfl]

theorem live_takeExited {l : Ledger Block} {table : HashTable Nat} (hvalid : table.Valid) (t : TableName) (pid : Nat)
    (b : Block) :
    ((if pid = 0 ∧ 0 < table.size then (table.iteratorNext HashTable.createIterator).1.map Prod.fst else some pid).elim l
      (l.hashTableRemove t table)).live b =
        l.live b + holds t (Processes.takeExited table pid).2 b - holds t table b := by
  rw [Processes.takeExited]
  split_ifs
  · cases (table.iteratorNext HashTable.createIterator).1 with
    | none =>
      dsimp only [Option.map_none, Option.elim_none]
      omega
    | some kv => exact Ledger.live_hashTableRemove hvalid b
  · exact Ledger.live_hashTableRemove hvalid b

/-- The fields after a round of the loop of `process_wait`. -/
theorem waitRound_fields (procs : Processes) (p pid : Nat) :
    ∃ x pc, (procs.waitRound p pid).pcb = update procs.pcb p x ∧ (procs.waitRound p pid).pc = update procs.pc p pc ∧
      pc ≠ .unborn ∧ x.exited = (procs.pcb p).exited ∧ x.children = (procs.pcb p).children ∧
      x.exitChildren = (Processes.takeExited (procs.pcb p).exitChildren pid).2 ∧
      (procs.waitRound p pid).created = procs.created ∧ (procs.waitRound p pid).deadProcesses = procs.deadProcesses := by
  rw [Processes.waitRound]
  split
  next child table htake => exact ⟨_, _, rfl, rfl, by simp, rfl, rfl, by rw [htake], rfl, rfl⟩
  next table htake => exact ⟨_, _, rfl, rfl, by simp, rfl, rfl, by rw [htake], rfl, rfl⟩

theorem Balanced.waitRound (h : LedgerInv k) (procs : Processes) (hp : k.procs.pc p ≠ .unborn)
    (hpc : procs.pc = k.procs.pc) (hcreated : procs.created = k.procs.created)
    (hdead : procs.deadProcesses = k.procs.deadProcesses)
    (hpcb : ∀ q, (procs.pcb q).exited = (k.procs.pcb q).exited ∧ (procs.pcb q).children = (k.procs.pcb q).children ∧
      (procs.pcb q).exitChildren = (k.procs.pcb q).exitChildren) (pid : Nat) :
    Balanced ((k.takeExited p pid).withProcs (procs.waitRound p pid)) := by
  obtain ⟨x, pc, hpcb', hpc', hne, hexited, hchildren, htable, hcreated', hdead'⟩ := waitRound_fields procs p pid
  have hvalid : (k.procs.pcb p).exitChildren.Valid := h.pointers.family.tables.valid p
  have hborn : ∀ q, update k.procs.pc p pc q = .unborn ↔ k.procs.pc q = .unborn := born_of_update hp hne
  rw [(hpcb p).2.2] at htable
  refine h.balanced.table (fun b => live_takeExited hvalid (.exitChildren p) pid b)
    (holdings_congr (hcreated'.trans hcreated) rfl ?_ ?_ (hdead'.trans hdead) rfl rfl) ?_ (fun key => rfl) ?_
  · intro q
    change ((procs.waitRound p pid).pcb q).exited = _
    rw [hpcb', ← (hpcb q).1]
    exact Runs.apply_place procs.pcb p x Pcb.exited hexited q
  · intro q
    change (procs.waitRound p pid).pc q = .unborn ↔ _
    rw [hpc', hpc]
    exact hborn q
  · intro t ht
    funext key
    cases t with
    | children q =>
      change (((procs.waitRound p pid).pcb q).children.get key).isSome = ((k.procs.pcb q).children.get key).isSome
      rw [hpcb', ← (hpcb q).2.1, Runs.apply_place procs.pcb p x Pcb.children hchildren q]
    | exitChildren q =>
      have hq : q ≠ p := fun heq => ht (heq ▸ rfl)
      change (((procs.waitRound p pid).pcb q).exitChildren.get key).isSome = ((k.procs.pcb q).exitChildren.get key).isSome
      rw [hpcb', ← (hpcb q).2.2, update_of_ne hq]
    | threads | processesMap | frameCowRefCounts => rfl
  · intro key
    change (((procs.waitRound p pid).pcb p).exitChildren.get key).isSome = _
    rw [hpcb', update_self, htable]

/-- Blocks outside of the tables are allocated and freed. -/
theorem Balanced.blocks {x : Holdings} (h : Balanced k) (htable : k'.frameCowRefCounts = k.frameCowRefCounts)
    (hhas : k'.has = k.has) (hholdings : k'.holdings = x)
    (hlive : ∀ b, k'.heap.live b + k.holdings.blocks b = k.heap.live b + x.blocks b) : Balanced k' := by
  refine h.change htable fun b => ?_
  have hentries : k'.entries b = k.entries b := by
    simp only [entries, hhas]
  have hb := hlive b
  rw [hentries, hholdings]
  omega

theorem Balanced.reap (h : LedgerInv k) (hp : k.procs.pc p = .reap c) :
    Balanced ((k.onHeap (·.kmalloc (.deadProcess c))).withProcs
      { k.procs.goto p .user with deadProcesses := k.procs.deadProcesses ++ [c] }) := by
  have hdead : c ∉ k.holdings.deadProcesses := by
    refine (h.pointers.family.lives.reaps (p := p) (c := c) ?_).2.1
    change (k.procs.pc p).reaping = some c
    rw [hp]
    rfl
  have hborn : ∀ q, update k.procs.pc p .user q = .unborn ↔ k.procs.pc q = .unborn :=
    born_of_update (by simp [hp]) (by simp)
  refine h.balanced.blocks (x := k.holdings.addDeadProcess c) rfl rfl
    (holdings_eq rfl rfl (fun _ => rfl) (fun q => (hborn q).trans decide_eq_true_iff.symm) rfl rfl rfl) fun b => ?_
  change (k.heap.kmalloc (.deadProcess c)).live b + _ = _
  rw [Ledger.live_kmalloc, Holdings.blocks_addDeadProcess hdead]
  omega

/-- A step without effect on the heap. -/
theorem Balanced.goto {procs : Processes} (h : LedgerInv k) (pc : ProcessPc) (hp : k.procs.pc p ≠ .unborn) (hpc : pc ≠ .unborn)
    (hpcb : procs.pcb = k.procs.pcb) (hcreated : procs.created = k.procs.created)
    (hdead : procs.deadProcesses = k.procs.deadProcesses) (hplace : procs.pc = update k.procs.pc p pc) :
    Balanced (k.withProcs procs) := by
  refine h.balanced.same (holdings_congr hcreated rfl ?_ ?_ hdead rfl rfl) (has_congr rfl ?_ ?_ rfl rfl)
  · exact fun q => congrArg (fun pcb => (pcb q).exited) hpcb
  · intro q
    change procs.pc q = .unborn ↔ _
    rw [hplace]
    exact born_of_update hp hpc q
  · exact fun q => congrArg (fun pcb => (pcb q).children) hpcb
  · exact fun q => congrArg (fun pcb => (pcb q).exitChildren) hpcb

theorem Balanced.waitEnter (h : LedgerInv k) (hp : k.procs.pc p = .waitEnter pid) :
    Balanced ((if 0 < pid ∧ (k.procs.pcb p).children.get pid = none then k else k.takeExited p pid).proceed
      ⟨k.procs.waitEnter p pid, k.pointers.processesMap, k.pointers.freed⟩) := by
  rw [Processes.waitEnter]
  by_cases hrefuse : 0 < pid ∧ (k.procs.pcb p).children.get pid = none
  · rw [if_pos hrefuse, if_pos hrefuse]
    exact Balanced.goto h .user (by simp [hp]) (by simp) rfl rfl rfl rfl
  · rw [if_neg hrefuse, if_neg hrefuse]
    refine Balanced.waitRound h
      (k.procs.setPcb p { k.procs.pcb p with waitingChildPid := if 0 < pid then pid else (k.procs.pcb p).id })
      (by simp [hp]) rfl rfl rfl (fun q => ?_) pid
    by_cases hq : q = p
    · rw [hq, Processes.setPcb_self]
      exact ⟨rfl, rfl, rfl⟩
    · rw [Processes.setPcb_of_ne _ _ hq]
      exact ⟨rfl, rfl, rfl⟩

theorem Balanced.exitRecord (h : LedgerInv k) (hp : k.procs.pc p = .exitRecord) :
    Balanced ((k.addDeadTask p).withProcs (k.procs.goto p .exitSwitch)) := by
  have hdead : p ∉ k.holdings.deadTasks := by
    intro hmem
    have hrecorded := (h.tasks hmem).1
    rw [hp] at hrecorded
    cases hrecorded
  have hborn : ∀ q, update k.procs.pc p .exitSwitch q = .unborn ↔ k.procs.pc q = .unborn :=
    born_of_update (by simp [hp]) (by simp)
  refine h.balanced.blocks (x := k.holdings.addDeadTask p) rfl rfl
    (holdings_eq rfl rfl (fun _ => rfl) (fun q => (hborn q).trans decide_eq_true_iff.symm) rfl rfl rfl) fun b => ?_
  change (k.heap.kmalloc (.deadTask p)).live b + _ = _
  rw [Ledger.live_kmalloc, Holdings.blocks_addDeadTask hdead]
  omega

theorem Balanced.destroyThread (h : LedgerInv k) (hp : p ∈ k.deadTasks) :
    Balanced { k with
      deadTasks := k.deadTasks.erase p
      threadDestroyed := update k.threadDestroyed p true
      heap := k.heap.kfrees [.kernelStack p, .tcb p, .deadTask p] } := by
  obtain ⟨hrecorded, hdestroyed⟩ := h.tasks hp
  have hborn : k.holdings.unborn p = false := by
    refine decide_eq_false fun hunborn => ?_
    rw [hunborn] at hrecorded
    cases hrecorded
  refine h.balanced.blocks (x := k.holdings.destroyThread p) rfl rfl rfl fun b => ?_
  change (k.heap.kfrees [.kernelStack p, .tcb p, .deadTask p]).live b + _ = _
  rw [Ledger.live_kfrees, Holdings.blocks_destroyThread hborn hdestroyed hp h.tasksOnce]
  omega

theorem Balanced.destroy (h : LedgerInv k) (hp : p ∈ k.procs.deadProcesses) :
    Balanced ((k.onHeap (·.kfrees [.pcb p, .deadProcess p])).proceed
      ⟨k.procs.destroyProcess p, k.pointers.processesMap, update k.pointers.freed p true⟩) := by
  have hlives : Processes.Lives k.procs := h.pointers.family.lives
  obtain ⟨hcollected, hdestroyed⟩ := hlives.dead hp
  have hcreated : p < k.holdings.created := hlives.created_of_delivered (hlives.ends hcollected)
  have hfreed : k.holdings.freed p = false := h.pointers.collected hcollected hdestroyed
  refine h.balanced.blocks (x := k.holdings.destroy p) rfl rfl rfl fun b => ?_
  change (k.heap.kfrees [.pcb p, .deadProcess p]).live b + _ = _
  rw [Ledger.live_kfrees, Holdings.blocks_destroy hcreated hfreed hp hlives.deadOnce]
  omega

theorem Balanced.forkStart (h : LedgerInv k) (hp : k.procs.pc p = .forkStart c) :
    Balanced ((k.forkThread c).withProcs ((k.procs.goto c .user).goto p .user)) := by
  have hunborn : k.procs.pc c = .unborn := by
    refine (h.pointers.family.lives.newborn (p := p) (c := c) ?_).2.2
    change (k.procs.pc p).forking = some c
    rw [hp]
    rfl
  have hdestroyed : k.holdings.threadDestroyed c = false := by
    by_contra hne
    have hrecorded := h.destroyed (eq_true_of_ne_false hne)
    rw [hunborn] at hrecorded
    cases hrecorded
  have hborn : ∀ q, update (update k.procs.pc c .user) p .user q = .unborn ↔ update k.holdings.unborn c false q = true := by
    intro q
    by_cases hqc : q = c
    · subst hqc
      by_cases hqp : q = p <;> simp [hqp]
    · by_cases hqp : q = p
      · subst hqp
        simp [hqc, holdings, hp]
      · simp [hqp, hqc, holdings]
  have hholdings : ((k.forkThread c).withProcs ((k.procs.goto c .user).goto p .user)).holdings = k.holdings.schedule c :=
    holdings_eq rfl rfl (fun _ => rfl) hborn rfl rfl rfl
  have hother : ∀ t, t ≠ .threads c → ((k.forkThread c).withProcs ((k.procs.goto c .user).goto p .user)).has t = k.has t := by
    intro t ht
    funext key
    cases t with
    | threads q =>
      have hq : q ≠ c := fun heq => ht (heq ▸ rfl)
      change ((update k.threads c _ q).get key).isSome = _
      rw [update_of_ne hq]
      rfl
    | _ => rfl
  have hnew : ∀ key, ((k.forkThread c).withProcs ((k.procs.goto c .user).goto p .user)).has (.threads c) key =
      (((k.threads c).put c c).2.get key).isSome := by
    intro key
    change ((update k.threads c _ c).get key).isSome = _
    rw [update_self]
  refine h.balanced.change rfl fun b => ?_
  have hentries := entries_table (k := k) hother (fun key => rfl) hnew b
  have hblocks := Holdings.blocks_schedule (x := k.holdings) (decide_eq_true hunborn) hdestroyed b
  have hlive : ((k.forkThread c).withProcs ((k.procs.goto c .user).goto p .user)).heap.live b =
      (((k.heap.kmallocs (threadBlocks c)).hashTablePut (.threads c) (k.threads c) c).kmalloc (.threadNode c)).live b := rfl
  have hnode : ((threadBlocks c ++ [.threadNode c] : List Block).count b : Int) =
      (threadBlocks c).count b + if .threadNode c = b then 1 else 0 := by
    simp only [List.count_append, List.count_cons, List.count_nil, beq_iff_eq]
    split_ifs <;> push_cast <;> omega
  rw [hlive, Ledger.live_kmalloc, Ledger.live_hashTablePut (h.threads c) c, Ledger.live_kmallocs, hholdings, hblocks, hnode,
    hentries]
  omega

end HeapLedger

end LuckOS
