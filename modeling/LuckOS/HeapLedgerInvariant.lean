import LuckOS.HeapLedgerLives

/-!
# The invariant of the ledger

Each step of the system keeps the ledger balanced.
-/

namespace LuckOS

open Function Runs

namespace HeapLedger

variable {k k' : HeapLedger} {pointers : ProcessPointers} {p c pid frame : Nat} {frames : List Nat}

/-- A step of the processes that leaves `dead_tasks` alone. -/
theorem LedgerInv.run {a : Processes.Action} (h : LedgerInv k) (hpointers : k.pointers.step a = some pointers)
    (hbalanced : Balanced (k'.proceed pointers)) (hthreads : ∀ p, (k'.threads p).Valid) (htasks : k'.deadTasks = k.deadTasks)
    (hdestroyed : k'.threadDestroyed = k.threadDestroyed) : LedgerInv (k'.proceed pointers) := by
  have hgrows := Processes.grows_step h.pointers.family (ProcessPointers.procs_step hpointers).1
  constructor
  case pointers => exact h.pointers.step hpointers
  case threads => exact hthreads
  case tasksOnce => exact htasks ▸ h.tasksOnce
  case tasks =>
    intro p hp
    obtain ⟨hrecorded, hundestroyed⟩ := h.tasks (htasks ▸ hp)
    exact ⟨(hgrows.place p).recorded hrecorded, hdestroyed ▸ hundestroyed⟩
  case destroyed => exact fun {p} hp => (hgrows.place p).recorded (h.destroyed (hdestroyed ▸ hp))
  case balanced => exact hbalanced

theorem LedgerInv.exitRecord (h : LedgerInv k) (hp : k.procs.pc p = .exitRecord)
    (hpointers : k.pointers.step (.advance p) = some (ProcessPointers.mk (k.procs.goto p .exitSwitch)
      k.pointers.processesMap k.pointers.freed)) :
    LedgerInv ((k.addDeadTask p).withProcs (k.procs.goto p .exitSwitch)) := by
  have hgrows := Processes.grows_step h.pointers.family (ProcessPointers.procs_step hpointers).1
  have hrecorded : ¬ (k.procs.pc p).recorded = true := by
    rw [hp]
    nofun
  constructor
  case pointers => exact h.pointers.step hpointers
  case threads => exact h.threads
  case tasksOnce =>
    refine List.nodup_append.mpr ⟨h.tasksOnce, by simp, fun q hq r hr heq => ?_⟩
    rw [heq, List.mem_singleton.mp hr] at hq
    exact hrecorded (h.tasks hq).1
  case tasks =>
    intro q hq
    rcases List.mem_append.mp hq with hq | hq
    · exact ⟨(hgrows.place q).recorded (h.tasks hq).1, (h.tasks hq).2⟩
    · obtain rfl := List.mem_singleton.mp hq
      refine ⟨?_, ?_⟩
      · change (update k.procs.pc q .exitSwitch q).recorded = true
        rw [update_self]
        rfl
      · by_contra hdestroyed
        exact hrecorded (h.destroyed (eq_true_of_ne_false hdestroyed))
  case destroyed => exact fun {q} hq => (hgrows.place q).recorded (h.destroyed hq)
  case balanced => exact Balanced.exitRecord h hp

theorem LedgerInv.advance (h : LedgerInv k) (hpointers : k.pointers.step (.advance p) = some pointers) (frames : List Nat) :
    LedgerInv ((k.advance p frames pointers.procs).proceed pointers) := by
  obtain ⟨hprocs, -, -⟩ := ProcessPointers.procs_step hpointers
  have hadvance : k.procs.advance p = some pointers.procs := hprocs
  rw [Processes.advance] at hadvance
  rw [HeapLedger.advance]
  cases hp : k.procs.pc p with
  | unborn | user | gone =>
    rw [hp] at hadvance
    cases hadvance
  | forkCreate =>
    obtain ⟨⟨hthreads, htasks, hdestroyed⟩, -, -⟩ :=
      createProcess_live h k.procs.created frames (forkCreate_fields hp hpointers).2.2.2.2.2
    exact h.run hpointers (Balanced.forkCreate h hp hpointers frames) (fun q => hthreads ▸ h.threads q) htasks hdestroyed
  | forkAdd child =>
    rw [hp] at hadvance
    obtain rfl := procs_quiet hpointers (Option.some.inj hadvance) (by simp [hp]) (by simp [hp])
    exact h.run hpointers (Balanced.forkAdd h hp) h.threads rfl rfl
  | forkStart child =>
    rw [hp] at hadvance
    obtain rfl := procs_quiet hpointers (Option.some.inj hadvance) (by simp [hp]) (by simp [hp])
    refine h.run hpointers (Balanced.forkStart h hp) (fun q => ?_) rfl rfl
    change (update k.threads child _ q).Valid
    by_cases hq : q = child
    · rw [hq, update_self]
      exact (HashTable.put_spec (h.threads child) child child).1
    · rw [update_of_ne hq]
      exact h.threads q
  | waitEnter pid =>
    rw [hp] at hadvance
    obtain rfl := procs_quiet hpointers (Option.some.inj hadvance) (by simp [hp]) (by simp [hp])
    have hrest : (if 0 < pid ∧ (k.procs.pcb p).children.get pid = none then k else k.takeExited p pid).threads = k.threads ∧
        (if 0 < pid ∧ (k.procs.pcb p).children.get pid = none then k else k.takeExited p pid).deadTasks = k.deadTasks ∧
        (if 0 < pid ∧ (k.procs.pcb p).children.get pid = none then k else k.takeExited p pid).threadDestroyed =
          k.threadDestroyed := by
      split_ifs <;> exact ⟨rfl, rfl, rfl⟩
    dsimp only
    exact h.run hpointers (Balanced.waitEnter h hp) (hrest.1 ▸ h.threads) hrest.2.1 hrest.2.2
  | waitYield pid =>
    rw [hp] at hadvance
    obtain rfl := procs_quiet hpointers (Option.some.inj hadvance) (by simp [hp]) (by simp [hp])
    exact h.run hpointers (Balanced.goto h (.waitAgain pid) (by simp [hp]) (by simp) rfl rfl rfl rfl) h.threads rfl rfl
  | exitThread =>
    rw [hp] at hadvance
    obtain rfl := procs_quiet hpointers (Option.some.inj hadvance) (by simp [hp]) (by simp [hp])
    exact h.run hpointers (Balanced.goto h .exitRecord (by simp [hp]) (by simp) rfl rfl rfl rfl) h.threads rfl rfl
  | exitSwitch =>
    rw [hp] at hadvance
    obtain rfl := procs_quiet hpointers (Option.some.inj hadvance) (by simp [hp]) (by simp [hp])
    exact h.run hpointers (Balanced.goto h .gone (by simp [hp]) (by simp) rfl rfl rfl rfl) h.threads rfl rfl
  | waitAgain pid =>
    rw [hp] at hadvance
    dsimp only at hadvance
    split_ifs at hadvance
    obtain rfl := procs_quiet hpointers (Option.some.inj hadvance) (by simp [hp]) (by simp [hp])
    exact h.run hpointers (Balanced.waitRound h _ (by simp [hp]) rfl rfl rfl (fun _ => ⟨rfl, rfl, rfl⟩) pid) h.threads rfl rfl
  | reap child =>
    rw [hp] at hadvance
    obtain rfl := procs_quiet hpointers (Option.some.inj hadvance) (by simp [hp]) (by simp [hp])
    exact h.run hpointers (Balanced.reap h hp) h.threads rfl rfl
  | exitOwn code =>
    obtain ⟨hnew, hmap, hfreed⟩ := ProcessPointers.exitOwn_step hp hpointers
    obtain ⟨procs, processesMap, freed⟩ := pointers
    obtain rfl : procs = (k.procs.exitOwn p code).goto p .exitParent := hnew
    obtain rfl : processesMap = k.pointers.processesMap := hmap
    obtain rfl : freed = fun c => k.pointers.freed c || (k.procs.pcb p).exitChildren.entries.any (·.2 == c) := hfreed
    have hchanges := changeRefcounts_spec (exitBlocks_counters h p) p frames (-1)
    have hexited : (k.procs.pcb p).exited = false := by
      by_contra hne
      have hended := h.pointers.exits (eq_true_of_ne_false hne)
      change (k.procs.pc p).ended = true at hended
      rw [hp] at hended
      cases hended
    refine h.run hpointers (Balanced.exitOwn h hp hexited frames) (fun q => ?_) hchanges.deadTasks hchanges.threadDestroyed
    change (((k.exitBlocks p).changeRefcounts p frames (-1)).threads q).Valid
    rw [hchanges.threads]
    change (update k.threads p _ q).Valid
    by_cases hq : q = p
    · rw [hq, update_self]
      exact (HashTable.destroy_spec (HashTable.remove_spec (h.threads p) p).1).1
    · rw [update_of_ne hq]
      exact h.threads q
  | exitParent =>
    rw [hp] at hadvance
    obtain ⟨parent, hparent, hnew⟩ := Option.map_eq_some_iff.mp hadvance
    obtain rfl := procs_quiet hpointers hnew (by simp [hp]) (by simp [hp])
    dsimp only
    rw [hparent]
    exact h.run hpointers (Balanced.exitParent h hp) h.threads rfl rfl
  | exitRecord =>
    rw [hp] at hadvance
    obtain rfl := procs_quiet hpointers (Option.some.inj hadvance) (by simp [hp]) (by simp [hp])
    exact h.exitRecord hp hpointers

theorem LedgerInv.call {f : ProcessCall} (h : LedgerInv k) (hpointers : k.pointers.step (.call p f) = some pointers) :
    LedgerInv (k.proceed pointers) := by
  obtain ⟨hprocs, hmap, hfreed⟩ := ProcessPointers.procs_step hpointers
  rw [Processes.step] at hprocs
  split_ifs at hprocs with hp
  obtain ⟨procs, processesMap, freed⟩ := pointers
  obtain rfl : processesMap = k.pointers.processesMap := hmap
  obtain rfl : freed = k.pointers.freed := hfreed
  have hnew : k.procs.call p f = procs := Option.some.inj hprocs
  have hborn : k.procs.pc p ≠ .unborn := by
    change k.procs.pc p = .user at hp
    rw [hp]
    simp
  refine h.run hpointers (Balanced.goto h f.entry hborn ?_ ?_ ?_ ?_ ?_) h.threads rfl rfl
  · cases f <;> simp [ProcessCall.entry]
  all_goals
    subst hnew
    cases f <;> rfl

theorem LedgerInv.destroy (h : LedgerInv k) (hpointers : k.pointers.step (.destroy p) = some pointers) :
    LedgerInv ((k.onHeap (·.kfrees [.pcb p, .deadProcess p])).proceed pointers) := by
  obtain ⟨hprocs, hmap, hfreed⟩ := ProcessPointers.procs_step hpointers
  rw [Processes.step] at hprocs
  split_ifs at hprocs with hp
  obtain ⟨procs, processesMap, freed⟩ := pointers
  obtain rfl : processesMap = k.pointers.processesMap := hmap
  obtain rfl : freed = update k.pointers.freed p true := hfreed
  obtain rfl : procs = k.procs.destroyProcess p := (Option.some.inj hprocs).symm
  exact h.run hpointers (Balanced.destroy h hp) h.threads rfl rfl

theorem LedgerInv.wake (h : LedgerInv k) (hpointers : k.pointers.step (.wake p) = some pointers) :
    LedgerInv (k.proceed pointers) := by
  obtain ⟨hprocs, hmap, hfreed⟩ := ProcessPointers.procs_step hpointers
  obtain ⟨procs, processesMap, freed⟩ := pointers
  obtain rfl : processesMap = k.pointers.processesMap := hmap
  obtain rfl : freed = k.pointers.freed := hfreed
  obtain rfl : procs = k.procs.wake (some p) := (Option.some.inj hprocs).symm
  exact h.run hpointers (h.balanced.same (holdings_congr rfl rfl (fun _ => rfl) (fun _ => .rfl) rfl rfl rfl)
    (has_congr rfl (fun _ => rfl) (fun _ => rfl) rfl rfl)) h.threads rfl rfl

/-- A copy-on-write fault. -/
theorem LedgerInv.fault (h : LedgerInv k) (p frame : Nat) : LedgerInv (k.changeCowFrameRefcount p frame (-1)) := by
  have hchanges := changeCowFrameRefcount_spec h.balanced.counters p frame (-1)
  have hprocs : (k.changeCowFrameRefcount p frame (-1)).procs = k.procs := congrArg ProcessPointers.procs hchanges.pointers
  constructor
  case pointers => exact hchanges.pointers ▸ h.pointers
  case threads => exact hchanges.threads ▸ h.threads
  case tasksOnce => exact hchanges.deadTasks ▸ h.tasksOnce
  case tasks =>
    intro q hq
    rw [hprocs, hchanges.threadDestroyed]
    exact h.tasks (hchanges.deadTasks ▸ hq)
  case destroyed =>
    intro q hq
    rw [hprocs]
    exact h.destroyed (hchanges.threadDestroyed ▸ hq)
  case balanced => exact h.balanced.changeCounters hchanges

theorem LedgerInv.destroyThread (h : LedgerInv k) (hp : p ∈ k.deadTasks) :
    LedgerInv { k with
      deadTasks := k.deadTasks.erase p
      threadDestroyed := update k.threadDestroyed p true
      heap := k.heap.kfrees [.kernelStack p, .tcb p, .deadTask p] } := by
  constructor
  case pointers => exact h.pointers
  case threads => exact h.threads
  case tasksOnce => exact h.tasksOnce.erase p
  case tasks =>
    intro q hq
    obtain ⟨hne, hq⟩ := h.tasksOnce.mem_erase_iff.mp hq
    refine ⟨(h.tasks hq).1, ?_⟩
    change update k.threadDestroyed p true q = false
    rw [update_of_ne hne]
    exact (h.tasks hq).2
  case destroyed =>
    intro q hq
    change update k.threadDestroyed p true q = true at hq
    by_cases hqp : q = p
    · exact hqp ▸ (h.tasks hp).1
    · rw [update_of_ne hqp] at hq
      exact h.destroyed hq
  case balanced => exact Balanced.destroyThread h hp

theorem LedgerInv.step {a : Action} (h : LedgerInv k) (hstep : k.step a = some k') : LedgerInv k' := by
  cases a with
  | run a frames =>
    obtain ⟨pointers, hpointers, rfl⟩ := Option.map_eq_some_iff.mp hstep
    cases a with
    | call p f => exact h.call hpointers
    | advance p => exact h.advance hpointers frames
    | destroy p => exact h.destroy hpointers
    | wake p => exact h.wake hpointers
  | fault p frame =>
    rw [HeapLedger.step] at hstep
    split_ifs at hstep
    obtain rfl := Option.some.inj hstep
    exact h.fault p frame
  | destroyThread p =>
    rw [HeapLedger.step] at hstep
    split_ifs at hstep with hp
    obtain rfl := Option.some.inj hstep
    exact h.destroyThread hp

end HeapLedger

end LuckOS
