import LuckOS.ProcessExits

/-!
# Runs of the processes

Every step of every thread keeps the invariant of the processes. So the status that a
successful `process_wait` stores is the code that the child has passed to `process_exit`, an
exited child is collected at most once and stays available until then, and no thread sleeps
while there is a child for it.
-/

namespace LuckOS

open Function Runs

namespace Processes

variable {k k' : Processes} {p c pid : Nat} {pc : ProcessPc}

/-- `destroy_process` of a collected child. -/
theorem ProcessInv.destroy (h : ProcessInv k) (hc : c ∈ k.deadProcesses) : ProcessInv (k.destroyProcess c) := by
  obtain ⟨hcol, hd⟩ := h.lives.dead hc
  have hc' : c < k.created := h.lives.created_of_delivered (h.lives.ends hcol)
  have hmain : c ≠ 0 := by
    refine (h.lives.acting fun hunborn => ?_).2
    have hdel := h.lives.ends hcol
    rw [hunborn] at hdel
    cases hdel
  have hold : ∀ {d}, update k.destroyed c true d = false → d ≠ c ∧ k.destroyed d = false := by
    intro d hd'
    have hne : d ≠ c := by
      rintro rfl
      rw [update_self] at hd'
      cases hd'
    rw [update_of_ne hne] at hd'
    exact ⟨hne, hd'⟩
  refine ⟨⟨IdPool.whole_freeId h.lives.whole, ?_, ?_, ?_, h.lives.parents, h.lives.acting, h.lives.newborn,
    h.lives.newbornOnce, h.lives.ends, ?_, h.lives.deadOnce.erase c, ?_, h.lives.reapsOnce, ?_⟩,
    ⟨h.tables.valid, h.tables.entry, h.tables.available⟩, ⟨h.sleeps.looping, h.sleeps.blocked⟩,
    ⟨h.codes.called, h.codes.stored, h.codes.logged, h.codes.once⟩⟩
  · exact ⟨h.lives.main.1, h.lives.main.2.1, (update_of_ne hmain.symm ..).trans h.lives.main.2.2⟩
  · intro d hlt hd'
    obtain ⟨hne, hd''⟩ := hold hd'
    change (k.pool.freeId (k.pcb c).id).used (k.pcb d).id = true
    have hid : (k.pcb d).id ≠ (k.pcb c).id := fun heq => hne (h.lives.ids hlt hc' hd'' hd heq)
    rw [IdPool.used_freeId, h.lives.used hlt hd'']
    simp [hid]
  · intro d e hlt hlt' hd' he' heq
    exact h.lives.ids hlt hlt' (hold hd').2 (hold he').2 heq
  · intro d hd'
    have hne : d ≠ c := by
      rintro rfl
      exact (h.lives.deadOnce.mem_erase_iff.mp hd').1 rfl
    obtain ⟨hcol', hd''⟩ := h.lives.dead (List.mem_of_mem_erase hd')
    exact ⟨hcol', (update_of_ne hne ..).trans hd''⟩
  · intro q d hq
    obtain ⟨hcol', hdead', hd'⟩ := h.lives.reaps hq
    refine ⟨hcol', fun hmem => hdead' (List.mem_of_mem_erase hmem), (update_of_ne ?_ ..).trans hd'⟩
    rintro rfl
    exact hdead' hc
  · intro d hd'
    change update k.destroyed c true d = true at hd'
    by_cases heq : d = c
    · rw [heq]
      exact hcol
    · rw [update_of_ne heq] at hd'
      exact h.lives.destroys hd'

theorem ProcessInv.wake (h : ProcessInv k) (n : Option Nat) : ProcessInv (k.wake n) := by
  cases n with
  | none => exact h
  | some n =>
    refine ⟨⟨h.lives.whole, h.lives.main, h.lives.used, h.lives.ids, h.lives.parents, h.lives.acting, h.lives.newborn,
      h.lives.newbornOnce, h.lives.ends, h.lives.dead, h.lives.deadOnce, h.lives.reaps, h.lives.reapsOnce,
      h.lives.destroys⟩, ⟨h.tables.valid, h.tables.entry, h.tables.available⟩, ⟨h.sleeps.looping, fun hq => ?_⟩,
      ⟨h.codes.called, h.codes.stored, h.codes.logged, h.codes.once⟩⟩
    exact h.sleeps.blocked (blocked_of_wake (n := some n) hq).1

/-- Every step of a thread keeps the invariant. -/
theorem ProcessInv.advance (h : ProcessInv k) (hstep : k.advance p = some k') : ProcessInv k' := by
  rw [Processes.advance] at hstep
  cases hp : k.pc p with
  | unborn | user | gone =>
    rw [hp] at hstep
    cases hstep
  | forkCreate =>
    rw [hp] at hstep
    exact h.forkCreate hp hstep
  | forkAdd child =>
    rw [hp] at hstep
    obtain rfl := Option.some.inj hstep
    exact h.forkAdd hp
  | forkStart child =>
    rw [hp] at hstep
    obtain rfl := Option.some.inj hstep
    exact h.forkStart hp
  | waitEnter pid =>
    rw [hp] at hstep
    obtain rfl := Option.some.inj hstep
    exact h.waitEnter hp
  | waitYield pid =>
    rw [hp] at hstep
    obtain rfl := Option.some.inj hstep
    exact h.goto (.waitAgain pid) (by simp [hp]) rfl rfl (by rw [hp]; rfl) (by rw [hp]; rfl) (by simp) (by rw [hp]; rfl)
  | waitAgain pid =>
    rw [hp] at hstep
    dsimp only at hstep
    split_ifs at hstep with hb
    obtain rfl := Option.some.inj hstep
    exact h.waitRound (.inr hp) hb (h.sleeps.looping (by rw [hp]; rfl)).2
  | reap child =>
    rw [hp] at hstep
    obtain rfl := Option.some.inj hstep
    exact h.reap hp
  | exitOwn code =>
    rw [hp] at hstep
    obtain rfl := Option.some.inj hstep
    exact h.exitOwn hp
  | exitParent =>
    rw [hp] at hstep
    obtain ⟨parent, hparent, rfl⟩ := Option.map_eq_some_iff.mp hstep
    exact h.exitParent hp hparent
  | exitThread =>
    rw [hp] at hstep
    obtain rfl := Option.some.inj hstep
    exact h.goto .exitRecord (by simp [hp]) rfl rfl (by rw [hp]; rfl) (by rw [hp]; rfl) (by simp) (by rw [hp]; rfl)
  | exitRecord =>
    rw [hp] at hstep
    obtain rfl := Option.some.inj hstep
    exact h.goto .exitSwitch (by simp [hp]) rfl rfl (by rw [hp]; rfl) (by rw [hp]; rfl) (by simp) (by rw [hp]; rfl)
  | exitSwitch =>
    rw [hp] at hstep
    obtain rfl := Option.some.inj hstep
    exact h.goto .gone (by simp [hp]) rfl rfl (by rw [hp]; rfl) (by rw [hp]; rfl) (by simp) (by rw [hp]; rfl)

theorem ProcessInv.step {a : Action} (h : ProcessInv k) (hstep : k.step a = some k') : ProcessInv k' := by
  cases a with
  | call p f =>
    rw [Processes.step] at hstep
    split_ifs at hstep with hp
    obtain rfl := Option.some.inj hstep
    exact h.call hp f
  | advance p => exact h.advance hstep
  | destroy p =>
    rw [Processes.step] at hstep
    split_ifs at hstep with hp
    obtain rfl := Option.some.inj hstep
    exact h.destroy hp
  | wake p =>
    obtain rfl := Option.some.inj hstep
    exact h.wake (some p)

theorem destroyed_waitRound (k : Processes) (p pid : Nat) : (k.waitRound p pid).destroyed = k.destroyed := by
  rw [Processes.waitRound]
  split <;> rfl

/-- Threads of processes destroy no process. -/
theorem destroyed_advance (hstep : k.advance p = some k') : k'.destroyed = k.destroyed := by
  rw [Processes.advance] at hstep
  cases hp : k.pc p with
  | unborn | user | gone =>
    rw [hp] at hstep
    cases hstep
  | forkCreate =>
    rw [hp] at hstep
    obtain ⟨⟨id, pool⟩, -, rfl⟩ := Option.map_eq_some_iff.mp hstep
    rfl
  | forkAdd | forkStart | waitYield | reap | exitOwn | exitThread | exitRecord | exitSwitch =>
    rw [hp] at hstep
    obtain rfl := Option.some.inj hstep
    rfl
  | waitEnter pid =>
    rw [hp] at hstep
    obtain rfl := Option.some.inj hstep
    rw [Processes.waitEnter]
    split
    · rfl
    · exact destroyed_waitRound _ p pid
  | waitAgain pid =>
    rw [hp] at hstep
    dsimp only at hstep
    split_ifs at hstep
    obtain rfl := Option.some.inj hstep
    exact destroyed_waitRound k p pid
  | exitParent =>
    rw [hp] at hstep
    obtain ⟨parent, -, rfl⟩ := Option.map_eq_some_iff.mp hstep
    exact (exitParent_rest parent).2.2.2.2.2.2.1

theorem start_place (p : Nat) : start.pc p = .user ∧ p = 1 ∨ start.pc p = .unborn := by
  by_cases hp : p = 1
  · exact .inl ⟨if_pos hp, hp⟩
  · exact .inr (if_neg hp)

theorem start_inv : ProcessInv start := by
  have hwhole : start.pool.Whole :=
    IdPool.whole_mark (IdPool.whole_mark (IdPool.init_whole (by decide)) (by simp)) (by simp [IdPool.setId])
  refine ⟨⟨hwhole, ⟨by decide, rfl, rfl⟩, ?_, ?_, ?_, ?_, ?_, ?_, ?_, ?_, .nil, ?_, ?_, ?_⟩, ⟨?_, ?_, ?_⟩, ⟨?_, ?_⟩,
    ⟨?_, ?_, ?_, .nil⟩⟩
  · intro c hc _
    have hcases : c = 0 ∨ c = 1 := by
      have hlt : c < 2 := hc
      omega
    rcases hcases with rfl | rfl
    · decide
    · decide
  · intro c d _ _ _ _ heq
    exact heq
  · intro c p hp
    cases hp
  · intro p hp
    rcases start_place p with ⟨-, rfl⟩ | hunborn
    · decide
    · exact absurd hunborn hp
  · intro p c hp
    rcases start_place p with ⟨hpc, -⟩ | hpc <;> rw [hpc] at hp <;> cases hp
  · intro p p' c hp
    rcases start_place p with ⟨hpc, -⟩ | hpc <;> rw [hpc] at hp <;> cases hp
  · exact fun hc => nomatch hc
  · exact fun hc => nomatch hc
  · intro p c hp
    rcases start_place p with ⟨hpc, -⟩ | hpc <;> rw [hpc] at hp <;> cases hp
  · intro p p' c hp
    rcases start_place p with ⟨hpc, -⟩ | hpc <;> rw [hpc] at hp <;> cases hp
  · exact fun hc => nomatch hc
  · exact fun _ => HashTable.init_valid
  · exact fun hc => nomatch HashTable.get_init.symm.trans hc
  · exact fun hc => nomatch hc
  · intro p pid hp
    rcases start_place p with ⟨hpc, -⟩ | hpc <;> rw [hpc] at hp <;> cases hp
  · exact fun hp => nomatch hp
  · intro c code hc
    rcases start_place c with ⟨hpc, -⟩ | hpc <;> rw [hpc] at hc <;> cases hc
  · intro c hc
    rcases start_place c with ⟨hpc, -⟩ | hpc <;> rw [hpc] at hc <;> cases hc
  · exact fun hc => nomatch hc

/-- A process that has not called `process_exit` successfully. -/
def Alive (k : Processes) (p : Nat) : Prop := (k.pcb p).exited = false

/-- The child has been added to `exit_children_processes` of its parent. -/
def Exited (k : Processes) (c : Nat) : Prop := (k.pc c).delivered = true

/-- What `process_wait` and `process_exit` promise to each other. A status that is stored is
the code of the child, no child is collected twice, an exited child is available to its
parent until it is collected, and a blocked parent has no child that satisfies it. -/
structure ExitWait (k : Processes) : Prop where
  status : ∀ e ∈ k.log, k.passed e.child = some e.status ∧ Exited k e.child ∧ (k.pcb e.child).parent = some e.parent ∧
    (0 < e.pid → (k.pcb e.child).id = e.pid)
  once : (k.log.map Collected.child).Nodup
  available : ∀ p c, Alive k p → (k.pcb c).parent = some p → Exited k c → c ∉ k.log.map Collected.child →
    (k.pcb p).exitChildren.get (k.pcb c).id = some c
  awake : ∀ p pid, k.blocked p = true → k.pc p = .waitYield pid ∨ k.pc p = .waitAgain pid →
    ¬ Satisfies (k.pcb p).exitChildren pid

theorem ProcessInv.exitWait (h : ProcessInv k) : ExitWait k := by
  refine ⟨?_, h.codes.once, ?_, ?_⟩
  · intro e he
    obtain ⟨hparent, hcode, hpid⟩ := h.codes.logged he
    have hexited := h.lives.ends (List.mem_map_of_mem he)
    refine ⟨?_, hexited, hparent, hpid⟩
    rw [h.codes.stored (ended_of_delivered hexited), hcode]
  · exact fun p c halive hparent hexited hcol => h.tables.available hparent hexited halive hcol
  · intro p pid hb hp
    obtain ⟨pid', hpid', hunsat⟩ := h.sleeps.blocked hb
    have hwaiting : (k.pc p).waiting = some pid := by
      rcases hp with hp | hp <;> rw [hp] <;> rfl
    rw [hwaiting] at hpid'
    rwa [Option.some.inj hpid']

theorem inv_of_run {as : List Action} (hrun : Run (Steps step) start as k) : ProcessInv k :=
  hrun.invariant (fun h hstep => h.step hstep) start_inv

/-- In every run of forks, waits, exits and destructions the protocol of exit and wait holds. -/
theorem exit_wait_of_run {as : List Action} (hrun : Run (Steps step) start as k) : ExitWait k :=
  (inv_of_run hrun).exitWait

/-- The first process forks a child and waits for any child; the child exits with 7. -/
def sampleWait : List Action :=
  [.call 1 .fork, .advance 1, .advance 1, .advance 1, .call 1 (.wait 0), .advance 1, .advance 1, .call 2 (.exit 7),
    .advance 2, .advance 2, .advance 1]

theorem sample_exit_wait : ∃ k, Run (Steps step) start sampleWait k ∧ k.log.map Collected.status = [7] ∧ ExitWait k := by
  have hcheck : (execute step start sampleWait).any (fun k => decide (k.log.map Collected.status = [7])) = true := by
    decide +kernel
  rw [Option.any_eq_true] at hcheck
  obtain ⟨k, hk, hlog⟩ := hcheck
  exact ⟨k, run_of_execute hk, of_decide_eq_true hlog, exit_wait_of_run (run_of_execute hk)⟩

end Processes

end LuckOS
