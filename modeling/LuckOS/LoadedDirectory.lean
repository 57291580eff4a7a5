import LuckOS.ProcessWakeups

/-!
# The page directory that is loaded

`do_context_switch` loads the page directory of the process of the next thread, unless the threads have
the same process, which may be none. The scheduler may choose any thread. A process has one thread, which
belongs to no process any more behind `process_exit` and `schedule_thread_exit`.
-/

namespace LuckOS

open Function Runs

/-- The processes, the process of each thread, the current thread, and `current_page_directory`, which is
the static kernel directory or that of a process. -/
structure LoadedDirectory where
  procs : Processes
  process : KernelThread → Option Nat
  crt : KernelThread
  currentPageDirectory : Option Nat

namespace LoadedDirectory

/-- `main_process`. -/
def mainProcess : Nat := 0

/-- The main thread runs with the static kernel directory. -/
def start : LoadedDirectory where
  procs := .start
  process := fun t =>
    match t with
    | .idle | .clean => some mainProcess
    | .process p => if p = 1 then some 1 else none
  crt := .idle
  currentPageDirectory := none

/-- `process_switch`. -/
def processSwitch (k : LoadedDirectory) (process : Option Nat) : LoadedDirectory :=
  { k with currentPageDirectory := some (process.getD mainProcess) }

/-- `do_context_switch`. -/
def doContextSwitch (k : LoadedDirectory) (next : KernelThread) : LoadedDirectory :=
  { (if k.process k.crt ≠ k.process next then k.processSwitch (k.process next) else k) with crt := next }

/-- `thread->process` after a step: `process_fork` adds the new thread to its process, and `process_exit` takes
its thread away. -/
def nextProcess (k : LoadedDirectory) (p : Nat) : KernelThread → Option Nat :=
  match k.procs.pc p with
  | .forkStart child => update k.process (.process child) (some child)
  | .exitOwn _ => update k.process (.process p) none
  | _ => k.process

/-- A system call or the next step of the current thread, an exit of it without `process_exit`, the destruction of
a process by the clean thread, a wake-up, and a switch by a yield, an exit or the timer. -/
inductive Action where
  | call (f : ProcessCall)
  | run
  | threadExit
  | destroy (p : Nat)
  | wake (p : Nat)
  | switch (next : KernelThread)

def step (k : LoadedDirectory) (a : Action) : Option LoadedDirectory :=
  match a, k.crt with
  | .call f, .process p => (k.procs.step (.call p f)).map fun procs => { k with procs := procs }
  | .run, .process p => (k.procs.step (.advance p)).map fun procs => { k with procs := procs, process := k.nextProcess p }
  | .threadExit, .process p =>
    if k.procs.pc p = .user then
      some { k with procs := k.procs.goto p .exitThread, process := update k.process (.process p) none }
    else none
  | .destroy p, .clean => (k.procs.step (.destroy p)).map fun procs => { k with procs := procs }
  | .wake p, _ => (k.procs.step (.wake p)).map fun procs => { k with procs := procs }
  | .switch next, _ => some (k.doContextSwitch next)
  | _, _ => none

/-- The directory that is loaded is the static one or that of a process that is not destroyed, and it is that of the
process of the current thread. -/
structure Loaded (k : LoadedDirectory) : Prop where
  alive : ∀ q, k.currentPageDirectory = some q → k.procs.destroyed q = false
  own : ∀ q, k.process k.crt = some q → k.currentPageDirectory = some q ∨ q = mainProcess ∧ k.currentPageDirectory = none

end LoadedDirectory

/-! ## Processes that have ended -/

namespace Processes

variable {k k' : Processes} {p q c pid : Nat} {pc : ProcessPc}

/-- New processes have a thread that is not yet scheduled. Exited children, collected children and destroyed processes
are behind the section of `process_exit` under their own lock. -/
structure Ends (k : Processes) : Prop where
  main : k.pc 0 = .unborn ∧ 0 < k.created
  acting : ∀ {p}, k.pc p ≠ .unborn → p < k.created
  newborn : ∀ {p c}, (k.pc p).forking = some c → c ≠ 0 ∧ c < k.created ∧ k.pc c = .unborn
  newbornOnce : ∀ {p p' c}, (k.pc p).forking = some c → (k.pc p').forking = some c → p = p'
  valid : ∀ p, (k.pcb p).exitChildren.Valid
  entry : ∀ {p key c}, (k.pcb p).exitChildren.get key = some c → (k.pc c).ended = true
  reaps : ∀ {p c}, (k.pc p).reaping = some c → (k.pc c).ended = true
  dead : ∀ {c}, c ∈ k.deadProcesses → (k.pc c).ended = true
  destroys : ∀ {c}, k.destroyed c = true → (k.pc c).ended = true

/-- The thread of a process goes on. -/
theorem Ends.goto (h : Ends k) (hcreated : k'.created = k.created) (hpc : k'.pc = update k.pc p pc)
    (hborn : k.pc p ≠ .unborn) (hfork : pc.forking = none ∨ pc.forking = (k.pc p).forking)
    (hended : (k.pc p).ended = true → pc.ended = true)
    (htables : ∀ q, (k'.pcb q).exitChildren.Valid ∧ ∀ key c, (k'.pcb q).exitChildren.get key = some c →
      (k.pc c).ended = true ∨ c = p ∧ pc.ended = true)
    (hreap : ∀ c, pc.reaping = some c → (k.pc c).ended = true)
    (hdead : ∀ c ∈ k'.deadProcesses, (k.pc c).ended = true) (hdestroyed : k'.destroyed = k.destroyed) : Ends k' := by
  have hends : ∀ {c}, (k.pc c).ended = true → (k'.pc c).ended = true := by
    intro c hc
    rw [hpc]
    by_cases hcp : c = p
    · rw [hcp, update_self]
      exact hended (hcp ▸ hc)
    · rwa [update_of_ne hcp]
  have hforking : ∀ {q c}, (k'.pc q).forking = some c → (k.pc q).forking = some c := by
    intro q c hq
    rw [hpc] at hq
    by_cases hqp : q = p
    · rw [hqp, update_self] at hq
      rw [hqp]
      rcases hfork with hnone | hsame
      · rw [hnone] at hq
        cases hq
      · rwa [← hsame]
    · rwa [update_of_ne hqp] at hq
  have hunborn : ∀ {q}, k.pc q = .unborn → k'.pc q = .unborn := by
    intro q hq
    rw [hpc, update_of_ne, hq]
    rintro rfl
    exact hborn hq
  constructor
  case main => exact ⟨hunborn h.main.1, hcreated ▸ h.main.2⟩
  case acting =>
    intro q hq
    rw [hcreated]
    exact h.acting fun hq' => hq (hunborn hq')
  case newborn =>
    intro q c hq
    obtain ⟨hzero, hlt, hc⟩ := h.newborn (hforking hq)
    exact ⟨hzero, hcreated ▸ hlt, hunborn hc⟩
  case newbornOnce => exact fun hq hq' => h.newbornOnce (hforking hq) (hforking hq')
  case valid => exact fun q => (htables q).1
  case entry =>
    intro q key c hget
    rcases (htables q).2 key c hget with hc | ⟨rfl, hc⟩
    · exact hends hc
    · rw [hpc, update_self, hc]
  case reaps =>
    intro q c hq
    rw [hpc] at hq
    by_cases hqp : q = p
    · rw [hqp, update_self] at hq
      exact hends (hreap c hq)
    · rw [update_of_ne hqp] at hq
      exact hends (h.reaps hq)
  case dead => exact fun hc => hends (hdead _ hc)
  case destroys =>
    intro c hc
    rw [hdestroyed] at hc
    exact hends (h.destroys hc)

/-- The tables stay the same. -/
theorem Ends.tables (h : Ends k) (hpcb : ∀ q, (k'.pcb q).exitChildren = (k.pcb q).exitChildren) (q : Nat) :
    (k'.pcb q).exitChildren.Valid ∧ ∀ key c, (k'.pcb q).exitChildren.get key = some c →
      (k.pc c).ended = true ∨ c = p ∧ pc.ended = true := by
  rw [hpcb]
  exact ⟨h.valid q, fun key c hget => .inl (h.entry hget)⟩

/-- A place without other effects. -/
theorem Ends.place (h : Ends k) (hborn : k.pc p ≠ .unborn)
    (hfork : pc.forking = none ∨ pc.forking = (k.pc p).forking) (hended : (k.pc p).ended = true → pc.ended = true)
    (hreap : pc.reaping = none) : Ends (k.goto p pc) := by
  refine h.goto rfl rfl hborn hfork hended (h.tables fun _ => rfl) (fun c hc => ?_) (fun c hc => h.dead hc) rfl
  rw [hreap] at hc
  cases hc

/-- The place of the thread and its own pcb change. -/
theorem Ends.setPcb {x : Pcb} (h : Ends k) (hborn : k.pc p ≠ .unborn) (hfork : pc.forking = none)
    (hended : (k.pc p).ended = true → pc.ended = true) (hreap : ∀ c, pc.reaping = some c → (k.pc c).ended = true)
    (hx : x.exitChildren.Valid ∧ ∀ key c, x.exitChildren.get key = some c → (k.pc c).ended = true)
    (hpcb : k'.pcb = update k.pcb p x) (hpc : k'.pc = update k.pc p pc) (hcreated : k'.created = k.created)
    (hdead : k'.deadProcesses = k.deadProcesses) (hdestroyed : k'.destroyed = k.destroyed) : Ends k' := by
  refine h.goto hcreated hpc hborn (.inl hfork) hended (fun q => ?_) hreap (fun c hc => h.dead (hdead ▸ hc)) hdestroyed
  rw [hpcb]
  by_cases hqp : q = p
  · rw [hqp, update_self]
    exact ⟨hx.1, fun key c hget => .inl (hx.2 key c hget)⟩
  · rw [update_of_ne hqp]
    exact ⟨h.valid q, fun key c hget => .inl (h.entry hget)⟩

theorem Ends.forkCreate (h : Ends k) (hp : k.pc p = .forkCreate) (hstep : k.forkCreate p = some k') : Ends k' := by
  obtain ⟨⟨id, pool⟩, -, rfl⟩ := Option.map_eq_some_iff.mp hstep
  have hfresh : k.pc k.created = .unborn := by
    by_contra hne
    exact Nat.lt_irrefl _ (h.acting hne)
  have hne : k.created ≠ p := fun heq => by simp [heq, hp] at hfresh
  have hplace : ∀ q, q ≠ p → update k.pc p (.forkAdd k.created) q = k.pc q := fun q hq => update_of_ne hq ..
  have hends : ∀ {c}, (k.pc c).ended = true → (update k.pc p (.forkAdd k.created) c).ended = true := by
    intro c hc
    rw [hplace c fun heq => by simp [heq, hp, ProcessPc.ended] at hc, hc]
  have hunborn : ∀ {q}, k.pc q = .unborn → update k.pc p (.forkAdd k.created) q = .unborn := by
    intro q hq
    rw [hplace q fun heq => by simp [heq, hp] at hq, hq]
  have htables : ∀ q, (update k.pcb k.created (newPcb id) q).exitChildren.Valid ∧
      ∀ key c, (update k.pcb k.created (newPcb id) q).exitChildren.get key = some c → (k.pc c).ended = true := by
    intro q
    by_cases hq : q = k.created
    · rw [hq, update_self]
      refine ⟨HashTable.init_valid, fun key c hget => ?_⟩
      rw [newPcb, HashTable.get_init] at hget
      cases hget
    · rw [update_of_ne hq]
      exact ⟨h.valid q, fun key c hget => h.entry hget⟩
  constructor
  case main => exact ⟨hunborn h.main.1, Nat.succ_pos _⟩
  case acting =>
    intro q hq
    exact Nat.lt_succ_of_lt (h.acting fun hq' => hq (hunborn hq'))
  case newborn =>
    intro q c hq
    change (update k.pc p (.forkAdd k.created) q).forking = some c at hq
    by_cases hqp : q = p
    · rw [hqp, update_self] at hq
      obtain rfl := Option.some.inj hq
      exact ⟨Nat.ne_of_gt h.main.2, Nat.lt_succ_self _, hunborn hfresh⟩
    · rw [hplace q hqp] at hq
      obtain ⟨hzero, hlt, hc⟩ := h.newborn hq
      exact ⟨hzero, Nat.lt_succ_of_lt hlt, hunborn hc⟩
  case newbornOnce =>
    intro q q' c hq hq'
    change (update k.pc p (.forkAdd k.created) q).forking = some c at hq
    change (update k.pc p (.forkAdd k.created) q').forking = some c at hq'
    by_cases hqp : q = p
    · by_cases hqp' : q' = p
      · exact hqp.trans hqp'.symm
      · rw [hqp, update_self] at hq
        rw [hplace q' hqp'] at hq'
        obtain rfl := Option.some.inj hq
        exact absurd (h.newborn hq').2.1 (Nat.lt_irrefl _)
    · rw [hplace q hqp] at hq
      by_cases hqp' : q' = p
      · rw [hqp', update_self] at hq'
        obtain rfl := Option.some.inj hq'
        exact absurd (h.newborn hq).2.1 (Nat.lt_irrefl _)
      · rw [hplace q' hqp'] at hq'
        exact h.newbornOnce hq hq'
  case valid => exact fun q => (htables q).1
  case entry => exact fun {q} key c hget => hends ((htables q).2 key c hget)
  case reaps =>
    intro q c hq
    change (update k.pc p (.forkAdd k.created) q).reaping = some c at hq
    by_cases hqp : q = p
    · rw [hqp, update_self] at hq
      cases hq
    · rw [hplace q hqp] at hq
      exact hends (h.reaps hq)
  case dead => exact fun hc => hends (h.dead hc)
  case destroys => exact fun hc => hends (h.destroys hc)

/-- The child is scheduled. -/
theorem Ends.forkStart (h : Ends k) (hp : k.pc p = .forkStart c) : Ends ((k.goto c .user).goto p .user) := by
  obtain ⟨hzero, hlt, hc⟩ := h.newborn (p := p) (c := c) (by rw [hp]; rfl)
  have hne : c ≠ p := fun heq => by simp [heq, hp] at hc
  have hplace : ∀ q, update (update k.pc c .user) p .user q = .user ∧ (q = c ∨ q = p) ∨
      update (update k.pc c .user) p .user q = k.pc q ∧ q ≠ c ∧ q ≠ p := by
    intro q
    by_cases hqp : q = p
    · exact .inl ⟨by rw [hqp, update_self], .inr hqp⟩
    · by_cases hqc : q = c
      · exact .inl ⟨by rw [update_of_ne hqp, hqc, update_self], .inl hqc⟩
      · exact .inr ⟨by rw [update_of_ne hqp, update_of_ne hqc], hqc, hqp⟩
  have hends : ∀ {q}, (k.pc q).ended = true → (update (update k.pc c .user) p .user q).ended = true := by
    intro q hq
    rcases hplace q with ⟨-, rfl | rfl⟩ | ⟨heq, -⟩
    · rw [hc] at hq
      cases hq
    · rw [hp] at hq
      cases hq
    · rw [heq, hq]
  have hforking : ∀ {q d}, (update (update k.pc c .user) p .user q).forking = some d → (k.pc q).forking = some d ∧ q ≠ p := by
    intro q d hq
    rcases hplace q with ⟨heq, -⟩ | ⟨heq, -, hqp⟩
    · rw [heq] at hq
      cases hq
    · exact ⟨heq ▸ hq, hqp⟩
  constructor
  case main =>
    refine ⟨?_, h.main.2⟩
    change update (update k.pc c .user) p .user 0 = .unborn
    have hmain := h.main.1
    rcases hplace 0 with ⟨-, heq | heq⟩ | ⟨heq, -⟩
    · exact absurd heq.symm hzero
    · rw [heq, hp] at hmain
      cases hmain
    · rw [heq, hmain]
  case acting =>
    intro q hq
    rcases hplace q with ⟨-, rfl | rfl⟩ | ⟨heq, -⟩
    · exact hlt
    · exact h.acting (by simp [hp])
    · exact h.acting (heq ▸ hq)
  case newborn =>
    intro q d hq
    obtain ⟨hq', hqp⟩ := hforking hq
    obtain ⟨hzero', hlt', hd⟩ := h.newborn hq'
    refine ⟨hzero', hlt', ?_⟩
    change update (update k.pc c .user) p .user d = .unborn
    rcases hplace d with ⟨-, rfl | rfl⟩ | ⟨heq, -⟩
    · exact absurd (h.newbornOnce hq' (by rw [hp]; rfl)) hqp
    · rw [hp] at hd
      cases hd
    · rw [heq, hd]
  case newbornOnce => exact fun hq hq' => h.newbornOnce (hforking hq).1 (hforking hq').1
  case valid => exact h.valid
  case entry => exact fun hget => hends (h.entry hget)
  case reaps =>
    intro q d hq
    change (update (update k.pc c .user) p .user q).reaping = some d at hq
    rcases hplace q with ⟨heq, -⟩ | ⟨heq, -⟩
    · rw [heq] at hq
      cases hq
    · exact hends (h.reaps (heq ▸ hq))
  case dead => exact fun hd => hends (h.dead hd)
  case destroys => exact fun hd => hends (h.destroys hd)

/-- One round of the loop of `process_wait`. -/
theorem Ends.waitRound (h : Ends k) (hp : k.pc p = .waitEnter pid ∨ k.pc p = .waitAgain pid) : Ends (k.waitRound p pid) := by
  have hborn : k.pc p ≠ .unborn := by rcases hp with hp | hp <;> simp [hp]
  have hended : (k.pc p).ended = false := by rcases hp with hp | hp <;> simp [hp, ProcessPc.ended]
  obtain ⟨hvalid, hsome, hnone⟩ := takeExited_spec (h.valid p) pid
  rw [Processes.waitRound]
  split
  next child table htake =>
    rw [htake] at hvalid hsome
    obtain ⟨key, hget, -, hrest⟩ := hsome child rfl
    refine h.setPcb hborn rfl (by simp [hended]) (fun c hc => ?_) ⟨hvalid, fun key' c hc => ?_⟩ rfl rfl rfl rfl rfl
    · obtain rfl := Option.some.inj hc
      exact h.entry hget
    · have hne : key' ≠ key := fun heq => by simp [heq, hrest] at hc
      rw [hrest, update_of_ne hne] at hc
      exact h.entry hc
  next table htake =>
    rw [htake] at hvalid hnone
    refine h.setPcb hborn rfl (by simp [hended]) (by simp [ProcessPc.reaping]) ⟨hvalid, fun key' c hc => ?_⟩ rfl rfl rfl rfl rfl
    rw [(hnone rfl).1] at hc
    exact h.entry hc

/-- `waiting_child_pid` is stored. -/
theorem Ends.setWaiting (h : Ends k) (n : Nat) : Ends (k.setPcb p { k.pcb p with waitingChildPid := n }) := by
  have htables : ∀ q, ((k.setPcb p { k.pcb p with waitingChildPid := n }).pcb q).exitChildren = (k.pcb q).exitChildren :=
    setPcb_apply Pcb.exitChildren k { k.pcb p with waitingChildPid := n } rfl
  exact ⟨h.main, h.acting, h.newborn, h.newbornOnce, fun q => htables q ▸ h.valid q, fun hget => h.entry (htables _ ▸ hget),
    h.reaps, h.dead, h.destroys⟩

theorem Ends.wake (h : Ends k) (n : Option Nat) : Ends (k.wake n) := by
  cases n <;> exact ⟨h.main, h.acting, h.newborn, h.newbornOnce, h.valid, h.entry, h.reaps, h.dead, h.destroys⟩

/-- The parent gets an exited child. -/
theorem Ends.exitParent {parent : Nat} (h : Ends k) (hp : k.pc p = .exitParent) :
    Ends ((k.exitParent p parent).goto p .exitThread) := by
  obtain ⟨hcreated, -, hpc, hdead, -, -, hdestroyed, -⟩ := exitParent_rest (k := k) (p := p) parent
  have hfields := exitParent_fields (k := k) (p := p) parent
  refine h.goto hcreated (by rw [Processes.goto, hpc]) (by simp [hp]) (.inl rfl) (fun _ => rfl) (fun q => ?_)
    (by simp [ProcessPc.reaping])
    (fun c hc => h.dead (hdead ▸ hc)) hdestroyed
  have htable : (((k.exitParent p parent).goto p .exitThread).pcb q).exitChildren =
      if q = parent then ((k.pcb parent).exitChildren.put (k.pcb p).id p).2 else (k.pcb q).exitChildren :=
    (hfields q).2.2.2.2.2.2
  rw [htable]
  split_ifs
  · obtain ⟨hvalid, -, hget⟩ := HashTable.put_spec (h.valid parent) (k.pcb p).id p
    refine ⟨hvalid, fun key c hc => ?_⟩
    rw [hget] at hc
    by_cases hkey : key = (k.pcb p).id
    · rw [hkey, update_self] at hc
      exact .inr ⟨(Option.some.inj hc).symm, rfl⟩
    · rw [update_of_ne hkey] at hc
      exact .inl (h.entry hc)
  · exact ⟨h.valid q, fun key c hc => .inl (h.entry hc)⟩

theorem Ends.advance (h : Ends k) (hstep : k.advance p = some k') : Ends k' := by
  rw [Processes.advance] at hstep
  cases hp : k.pc p with
  | unborn | user | gone =>
    rw [hp] at hstep
    cases hstep
  | forkCreate =>
    rw [hp] at hstep
    exact h.forkCreate hp hstep
  | forkAdd child =>
    rw [hp] at hstep
    obtain rfl := Option.some.inj hstep
    have hborn := (h.newborn (p := p) (c := child) (by rw [hp]; rfl)).2.2
    have hne : child ≠ p := fun heq => by simp [heq, hp] at hborn
    have hfields := addChild_fields (k := k) hne
    exact h.goto rfl rfl (by simp [hp]) (.inr (by rw [hp]; rfl)) (by simp [hp, ProcessPc.ended])
      (h.tables fun q => (hfields q).2.2.2.1) (by simp [ProcessPc.reaping]) (fun c hc => h.dead hc) rfl
  | forkStart child =>
    rw [hp] at hstep
    obtain rfl := Option.some.inj hstep
    exact h.forkStart hp
  | waitEnter pid =>
    rw [hp] at hstep
    obtain rfl := Option.some.inj hstep
    rw [Processes.waitEnter]
    split
    · exact h.place (by simp [hp]) (.inl rfl) (by simp [hp, ProcessPc.ended]) rfl
    · exact (h.setWaiting _).waitRound (.inl hp)
  | waitYield pid =>
    rw [hp] at hstep
    obtain rfl := Option.some.inj hstep
    exact h.place (by simp [hp]) (.inl rfl) (by simp [hp, ProcessPc.ended]) rfl
  | waitAgain pid =>
    rw [hp] at hstep
    dsimp only at hstep
    split_ifs at hstep
    obtain rfl := Option.some.inj hstep
    exact h.waitRound (.inr hp)
  | reap child =>
    rw [hp] at hstep
    obtain rfl := Option.some.inj hstep
    refine h.goto rfl rfl (by simp [hp]) (.inl rfl) (by simp [hp, ProcessPc.ended]) (h.tables fun _ => rfl)
      (by simp [ProcessPc.reaping]) (fun c hc => ?_) rfl
    rcases List.mem_append.mp hc with hc | hc
    · exact h.dead hc
    · obtain rfl := List.mem_singleton.mp hc
      exact h.reaps (by rw [hp]; rfl)
  | exitOwn code =>
    rw [hp] at hstep
    obtain rfl := Option.some.inj hstep
    obtain ⟨hvalid, hget⟩ := HashTable.destroy_spec (h.valid p)
    refine h.setPcb (by simp [hp]) rfl (fun _ => rfl) (by simp [ProcessPc.reaping]) ⟨hvalid, fun key c hc => ?_⟩ rfl rfl rfl rfl rfl
    rw [hget] at hc
    cases hc
  | exitParent =>
    rw [hp] at hstep
    obtain ⟨parent, -, rfl⟩ := Option.map_eq_some_iff.mp hstep
    exact h.exitParent hp
  | exitThread | exitRecord | exitSwitch =>
    rw [hp] at hstep
    obtain rfl := Option.some.inj hstep
    exact h.place (by simp [hp]) (.inl rfl) (fun _ => rfl) rfl

theorem Ends.step {a : Action} (h : Ends k) (hstep : k.step a = some k') : Ends k' := by
  cases a with
  | call p f =>
    rw [Processes.step] at hstep
    split_ifs at hstep with hp
    obtain rfl := Option.some.inj hstep
    have hplace : Ends (k.goto p f.entry) := by
      cases f <;> exact h.place (by simp [hp]) (.inl rfl) (by simp [hp, ProcessPc.ended]) rfl
    cases f <;> exact ⟨hplace.main, hplace.acting, hplace.newborn, hplace.newbornOnce, hplace.valid, hplace.entry, hplace.reaps,
      hplace.dead, hplace.destroys⟩
  | advance p => exact h.advance hstep
  | destroy p =>
    rw [Processes.step] at hstep
    split_ifs at hstep with hdead
    obtain rfl := Option.some.inj hstep
    refine ⟨h.main, h.acting, h.newborn, h.newbornOnce, h.valid, h.entry, h.reaps, fun hc => h.dead (List.mem_of_mem_erase hc), ?_⟩
    intro c hc
    change update k.destroyed p true c = true at hc
    by_cases hcp : c = p
    · exact hcp.symm ▸ h.dead hdead
    · rw [update_of_ne hcp] at hc
      exact h.destroys hc
  | wake p =>
    obtain rfl := Option.some.inj hstep
    exact h.wake _

theorem start_ends : Ends start := by
  have hplace : ∀ p, start.pc p = if p = 1 then .user else .unborn := fun _ => rfl
  refine ⟨⟨rfl, Nat.zero_lt_succ _⟩, fun {p} hp => ?_, fun {p c} hp => ?_, fun {p p' c} hp => ?_, fun _ => HashTable.init_valid,
    fun {p key c} hget => ?_, fun {p c} hp => ?_, nofun, nofun⟩
  · rw [hplace] at hp
    split_ifs at hp with hone
    · rw [hone]
      exact Nat.lt_succ_self 1
    · exact absurd rfl hp
  · rw [hplace] at hp
    split_ifs at hp <;> cases hp
  · rw [hplace] at hp
    split_ifs at hp <;> cases hp
  · change HashTable.init.get key = some c at hget
    rw [HashTable.get_init] at hget
    cases hget
  · rw [hplace] at hp
    split_ifs at hp <;> cases hp

theorem ended_of_update {places : Nat → ProcessPc} (hpc : pc.ended = true → (places p).ended = true)
    (hq : (update places p pc q).ended = true) : (places q).ended = true := by
  by_cases hqp : q = p
  · rw [hqp, update_self] at hq
    exact hqp ▸ hpc hq
  · rwa [update_of_ne hqp] at hq

/-- Only the section of `process_exit` under its own lock ends a process. -/
theorem ended_advance (hstep : k.advance p = some k') (hq : (k'.pc q).ended = true) :
    (k.pc q).ended = true ∨ q = p ∧ ∃ code, k.pc p = .exitOwn code := by
  have hround : ∀ (k'' : Processes) {pid}, k''.pc = k.pc → ((k''.waitRound p pid).pc q).ended = true → (k.pc q).ended = true := by
    intro k'' pid hpc hq
    rcases ScheduledProcesses.waitRound_places k'' p pid with ⟨child, hround, -⟩ | ⟨hround, -⟩
    all_goals
      rw [hround, hpc] at hq
      exact ended_of_update (by simp [ProcessPc.ended]) hq
  rw [Processes.advance] at hstep
  cases hp : k.pc p with
  | unborn | user | gone =>
    rw [hp] at hstep
    cases hstep
  | forkCreate =>
    rw [hp] at hstep
    obtain ⟨⟨id, pool⟩, -, rfl⟩ := Option.map_eq_some_iff.mp hstep
    exact .inl (ended_of_update (by simp [ProcessPc.ended]) hq)
  | forkAdd child | waitYield pid | reap child =>
    rw [hp] at hstep
    obtain rfl := Option.some.inj hstep
    exact .inl (ended_of_update (by simp [ProcessPc.ended]) hq)
  | forkStart child =>
    rw [hp] at hstep
    obtain rfl := Option.some.inj hstep
    exact .inl (ended_of_update (by simp [ProcessPc.ended]) (ended_of_update (by simp [ProcessPc.ended]) hq))
  | waitEnter pid =>
    rw [hp] at hstep
    obtain rfl := Option.some.inj hstep
    rw [Processes.waitEnter] at hq
    split at hq
    · exact .inl (ended_of_update (by simp [ProcessPc.ended]) hq)
    · exact .inl (hround (k.setPcb p _) rfl hq)
  | waitAgain pid =>
    rw [hp] at hstep
    dsimp only at hstep
    split_ifs at hstep
    obtain rfl := Option.some.inj hstep
    exact .inl (hround k rfl hq)
  | exitOwn code =>
    rw [hp] at hstep
    obtain rfl := Option.some.inj hstep
    by_cases hqp : q = p
    · exact .inr ⟨hqp, code, rfl⟩
    · change (update k.pc p .exitParent q).ended = true at hq
      rw [update_of_ne hqp] at hq
      exact .inl hq
  | exitParent =>
    rw [hp] at hstep
    obtain ⟨parent, -, rfl⟩ := Option.map_eq_some_iff.mp hstep
    change (update (k.exitParent p parent).pc p .exitThread q).ended = true at hq
    rw [(exitParent_rest parent).2.2.1] at hq
    exact .inl (ended_of_update (by simp [hp, ProcessPc.ended]) hq)
  | exitThread | exitRecord | exitSwitch =>
    rw [hp] at hstep
    obtain rfl := Option.some.inj hstep
    exact .inl (ended_of_update (by simp [hp, ProcessPc.ended]) hq)

end Processes

/-! ## The directory and the threads -/

namespace LoadedDirectory

variable {k k' : LoadedDirectory} {a : Action} {p q : Nat} {t next : KernelThread}

/-- The main thread and the clean thread stay in the main process. The thread of another process belongs to it, if to any,
and then the process has not ended. -/
structure Inv (k : LoadedDirectory) : Prop where
  ends : Processes.Ends k.procs
  kernel : k.process .idle = some mainProcess ∧ k.process .clean = some mainProcess
  owner : ∀ {p q}, k.process (.process p) = some q → q = p ∧ (k.procs.pc p).ended = false
  loaded : Loaded k

/-- The main process is never destroyed. -/
theorem Inv.main_alive (h : Inv k) : k.procs.destroyed mainProcess = false := by
  by_contra hdestroyed
  rw [Bool.not_eq_false] at hdestroyed
  have hended := h.ends.destroys hdestroyed
  rw [mainProcess, h.ends.main.1] at hended
  cases hended

/-- The process of a thread is not destroyed. -/
theorem Inv.process_alive (h : Inv k) (ht : k.process t = some q) : k.procs.destroyed q = false := by
  cases t with
  | idle =>
    obtain rfl := Option.some.inj (h.kernel.1.symm.trans ht)
    exact h.main_alive
  | clean =>
    obtain rfl := Option.some.inj (h.kernel.2.symm.trans ht)
    exact h.main_alive
  | process p =>
    obtain ⟨rfl, hended⟩ := h.owner ht
    by_contra hdestroyed
    rw [Bool.not_eq_false] at hdestroyed
    rw [h.ends.destroys hdestroyed] at hended
    cases hended

theorem Inv.doContextSwitch (h : Inv k) (next : KernelThread) : Inv (k.doContextSwitch next) := by
  rw [LoadedDirectory.doContextSwitch]
  split_ifs with hsame
  · refine ⟨h.ends, h.kernel, h.owner, fun q hq => ?_, fun q hq => .inl ?_⟩
    · obtain rfl := Option.some.inj hq
      cases hnext : k.process next with
      | none => exact h.main_alive
      | some q => exact h.process_alive hnext
    · have hnext : k.process next = some q := hq
      rw [processSwitch, hnext]
      rfl
  · refine ⟨h.ends, h.kernel, h.owner, h.loaded.alive, fun q hq => h.loaded.own q ?_⟩
    rw [not_not.mp hsame]
    exact hq

/-- A step of the current process. Its thread stays in the process or leaves it, and only a new thread enters one. -/
theorem Inv.procs (h : Inv k) {procs : Processes} {process : KernelThread → Option Nat} (hends : procs.Ends)
    (hdestroyed : procs.destroyed = k.procs.destroyed)
    (hkernel : process .idle = some mainProcess ∧ process .clean = some mainProcess)
    (hcrt : process k.crt = k.process k.crt ∨ process k.crt = none)
    (howner : ∀ {p q}, process (.process p) = some q → q = p ∧ (procs.pc p).ended = false) :
    Inv { k with procs := procs, process := process } where
  ends := hends
  kernel := hkernel
  owner := howner
  loaded := by
    refine ⟨fun q hq => ?_, fun q hq => ?_⟩
    · change procs.destroyed q = false
      rw [hdestroyed]
      exact h.loaded.alive q hq
    · rcases hcrt with hsame | hnone
      · exact h.loaded.own q (hsame.symm.trans hq)
      · cases hnone.symm.trans hq

/-- A new thread belongs to the new process, and `process_exit` takes its thread out of its process. -/
theorem Inv.run (h : Inv k) (hcrt : k.crt = .process p) {procs : Processes} (hstep : k.procs.advance p = some procs) :
    Inv { k with procs := procs, process := k.nextProcess p } := by
  have hends := h.ends.advance hstep
  have hdestroyed := Processes.destroyed_advance hstep
  have hended : ∀ {q}, (∀ code, q = p → k.procs.pc p ≠ .exitOwn code) → (k.procs.pc q).ended = false →
      (procs.pc q).ended = false := by
    intro q hown hq
    by_contra hq'
    rw [Bool.not_eq_false] at hq'
    rcases Processes.ended_advance hstep hq' with hold | ⟨heq, code, hp⟩
    · rw [hold] at hq
      cases hq
    · exact hown code heq hp
  rw [nextProcess]
  split
  next child hp =>
    obtain ⟨-, -, hborn⟩ := h.ends.newborn (p := p) (c := child) (by rw [hp]; rfl)
    have hne : child ≠ p := fun heq => by simp [heq, hp] at hborn
    refine h.procs hends hdestroyed h.kernel (.inl (update_of_ne ?_ ..)) fun {q r} hq => ?_
    · rw [hcrt]
      exact fun heq => hne (KernelThread.process.inj heq).symm
    · by_cases hqc : q = child
      · rw [hqc, update_self] at hq
        refine ⟨hqc ▸ (Option.some.inj hq).symm, hended (fun code _ => by rw [hp]; nofun) ?_⟩
        rw [hqc, hborn]
        rfl
      · rw [update_of_ne (fun heq => hqc (KernelThread.process.inj heq))] at hq
        obtain ⟨rfl, hold⟩ := h.owner hq
        exact ⟨rfl, hended (fun code _ => by rw [hp]; nofun) hold⟩
  next code hp =>
    refine h.procs hends hdestroyed h.kernel (.inr ?_) fun {q r} hq => ?_
    · rw [hcrt, update_self]
    · have hqp : q ≠ p := by
        rintro rfl
        rw [update_self] at hq
        cases hq
      rw [update_of_ne (fun heq => hqp (KernelThread.process.inj heq))] at hq
      obtain ⟨rfl, hold⟩ := h.owner hq
      exact ⟨rfl, hended (fun _ heq => absurd heq hqp) hold⟩
  next hstart hexit =>
    refine h.procs hends hdestroyed h.kernel (.inl rfl) fun {q r} hq => ?_
    obtain ⟨rfl, hold⟩ := h.owner hq
    exact ⟨rfl, hended (fun code _ => hexit code) hold⟩

/-- A step that changes no place of a thread to one behind the end. -/
theorem Inv.same (h : Inv k) {procs : Processes} (hends : procs.Ends) (hdestroyed : procs.destroyed = k.procs.destroyed)
    (hended : ∀ q, (procs.pc q).ended = (k.procs.pc q).ended) : Inv { k with procs := procs } := by
  refine h.procs hends hdestroyed h.kernel (.inl rfl) fun {q r} hq => ?_
  obtain ⟨heq, hold⟩ := h.owner hq
  exact ⟨heq, (hended q).trans hold⟩

/-- A thread exits and leaves its process as it is. -/
theorem Inv.threadExit (h : Inv k) (hcrt : k.crt = .process p) (hp : k.procs.pc p = .user) :
    Inv { k with procs := k.procs.goto p .exitThread, process := update k.process (.process p) none } := by
  have hends : (k.procs.goto p .exitThread).Ends := h.ends.place (by simp [hp]) (.inl rfl) (fun _ => rfl) rfl
  refine h.procs hends rfl h.kernel (.inr (by rw [hcrt, update_self])) fun {q r} hq => ?_
  have hqp : q ≠ p := by
    rintro rfl
    rw [update_self] at hq
    cases hq
  rw [update_of_ne (fun heq => hqp (KernelThread.process.inj heq))] at hq
  obtain ⟨heq, hold⟩ := h.owner hq
  refine ⟨heq, ?_⟩
  change (update k.procs.pc p .exitThread q).ended = false
  rw [update_of_ne hqp, hold]

/-- While the clean thread destroys a process, the directory of the main process is loaded. -/
theorem Inv.destroy (h : Inv k) (hcrt : k.crt = .clean) {procs : Processes} (hstep : k.procs.step (.destroy p) = some procs) :
    Inv { k with procs := procs } := by
  have hends := h.ends.step hstep
  rw [Processes.step] at hstep
  split_ifs at hstep with hdead
  obtain rfl := Option.some.inj hstep
  have hne : mainProcess ≠ p := by
    rintro rfl
    have hended := h.ends.dead hdead
    rw [mainProcess, h.ends.main.1] at hended
    cases hended
  refine ⟨hends, h.kernel, h.owner, fun q hq => ?_, h.loaded.own⟩
  change update k.procs.destroyed p true q = false
  rcases h.loaded.own mainProcess (hcrt ▸ h.kernel.2) with hcurrent | ⟨-, hcurrent⟩
  · obtain rfl := Option.some.inj (hcurrent.symm.trans hq)
    rw [update_of_ne hne]
    exact h.main_alive
  · cases hcurrent.symm.trans hq

theorem Inv.step (h : Inv k) (hstep : step k a = some k') : Inv k' := by
  unfold LoadedDirectory.step at hstep
  split at hstep
  next f p hcrt =>
    obtain ⟨procs, hprocs, rfl⟩ := Option.map_eq_some_iff.mp hstep
    have hends := h.ends.step hprocs
    rw [Processes.step] at hprocs
    split_ifs at hprocs with hp
    obtain rfl := Option.some.inj hprocs
    have hended : ∀ q, (update k.procs.pc p f.entry q).ended = (k.procs.pc q).ended :=
      apply_place k.procs.pc p f.entry ProcessPc.ended (by cases f <;> simp [hp, ProcessCall.entry, ProcessPc.ended])
    cases f <;> exact h.same hends rfl hended
  next p hcrt =>
    obtain ⟨procs, hprocs, rfl⟩ := Option.map_eq_some_iff.mp hstep
    exact h.run hcrt hprocs
  next p hcrt =>
    split_ifs at hstep with hp
    obtain rfl := Option.some.inj hstep
    exact h.threadExit hcrt hp
  next p hcrt =>
    obtain ⟨procs, hprocs, rfl⟩ := Option.map_eq_some_iff.mp hstep
    exact h.destroy hcrt hprocs
  next p =>
    obtain ⟨procs, hprocs, rfl⟩ := Option.map_eq_some_iff.mp hstep
    have hends := h.ends.step hprocs
    obtain rfl := Option.some.inj hprocs
    exact h.same hends rfl fun _ => rfl
  next next =>
    obtain rfl := Option.some.inj hstep
    exact h.doContextSwitch next
  next => cases hstep

theorem start_inv : Inv start where
  ends := Processes.start_ends
  kernel := ⟨rfl, rfl⟩
  owner := by
    intro p q hp
    by_cases hone : p = 1
    · subst hone
      exact ⟨(Option.some.inj hp).symm, rfl⟩
    · have hnone : start.process (.process p) = none := if_neg hone
      cases hnone.symm.trans hp
  loaded := ⟨nofun, fun q hq => .inr ⟨(Option.some.inj hq).symm, rfl⟩⟩

/-- In every run the directory that is loaded is that of a process that is not destroyed, or the static one. -/
theorem loaded_directory {as : List Action} (hrun : Run (Steps step) start as k) : Loaded k :=
  (hrun.invariant (fun h hstep => h.step hstep) start_inv).loaded

/-- A process forks and waits, and is preempted by its child, which exits. The thread of the child is preempted while the directory
of the child is loaded, and the parent collects the child, which is destroyed. -/
def sampleActions : List Action :=
  [.switch (.process 1), .call .fork, .run, .run, .run, .call (.wait 0), .run, .run, .switch (.process 2), .call (.exit 7), .run,
    .run, .switch (.process 1), .run, .run, .switch .clean, .destroy 2, .switch (.process 2), .run, .run, .run, .switch (.process 1)]

theorem sample_loaded_directory : ∃ k, Run (Steps step) start sampleActions k ∧ k.procs.destroyed 2 = true ∧ Loaded k := by
  have hcheck : (execute step start sampleActions).any (fun k => k.procs.destroyed 2) = true := by decide +kernel
  rw [Option.any_eq_true] at hcheck
  obtain ⟨k, hk, hdestroyed⟩ := hcheck
  have hrun : Run (Steps step) start sampleActions k := run_of_execute hk
  exact ⟨k, hrun, hdestroyed, loaded_directory hrun⟩

end LoadedDirectory

end LuckOS
