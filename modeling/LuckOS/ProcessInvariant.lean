import LuckOS.Processes

/-!
# The invariant of the processes

`Lives` is about the names, the pids and the places of the threads: a process that is not
destroyed has a pid of its own, and only a collected child is destroyed. `Tables` says that
`exit_children_processes` of a live process has exactly the children that have exited and
are not collected, `Sleeps` that a blocked thread waits for none of them, and `Codes` where
the stored status comes from.
-/

namespace LuckOS

open Function Runs

/-- The thread has passed the section of `process_exit` under the lock of the parent. -/
def ProcessPc.delivered : ProcessPc → Bool
  | exitThread | exitRecord | exitSwitch | gone => true
  | _ => false

/-- The thread has passed the section of `process_exit` under the lock of the process. -/
def ProcessPc.ended : ProcessPc → Bool
  | exitParent | exitThread | exitRecord | exitSwitch | gone => true
  | _ => false

/-- The child that `process_fork` has not yet scheduled. -/
def ProcessPc.forking : ProcessPc → Option Nat
  | forkAdd child | forkStart child => some child
  | _ => none

/-- The child that `process_wait` has collected and not yet added to `dead_processes`. -/
def ProcessPc.reaping : ProcessPc → Option Nat
  | reap child => some child
  | _ => none

/-- The pid for which a thread in the loop of `process_wait` waits. -/
def ProcessPc.waiting : ProcessPc → Option Nat
  | waitYield pid | waitAgain pid => some pid
  | _ => none

namespace Processes

/-- The children that have been collected by `process_wait`. -/
def collected (k : Processes) : List Nat := k.log.map Collected.child

/-- The table has a child for which a thread waits. -/
def Satisfies (t : HashTable Nat) (pid : Nat) : Prop := ∃ key child, t.get key = some child ∧ (pid = 0 ∨ key = pid)

/-- Names, pids and places. -/
structure Lives (k : Processes) : Prop where
  whole : k.pool.Whole
  main : 0 < k.created ∧ (k.pcb 0).id = 0 ∧ k.destroyed 0 = false
  used : ∀ {c}, c < k.created → k.destroyed c = false → k.pool.used (k.pcb c).id = true
  ids : ∀ {c d}, c < k.created → d < k.created → k.destroyed c = false → k.destroyed d = false →
    (k.pcb c).id = (k.pcb d).id → c = d
  parents : ∀ {c p}, (k.pcb c).parent = some p → p < k.created
  acting : ∀ {p}, k.pc p ≠ .unborn → p < k.created ∧ p ≠ 0
  newborn : ∀ {p c}, (k.pc p).forking = some c → c < k.created ∧ c ≠ 0 ∧ k.pc c = .unborn
  newbornOnce : ∀ {p p' c}, (k.pc p).forking = some c → (k.pc p').forking = some c → p = p'
  ends : ∀ {c}, c ∈ k.collected → (k.pc c).delivered = true
  dead : ∀ {c}, c ∈ k.deadProcesses → c ∈ k.collected ∧ k.destroyed c = false
  deadOnce : k.deadProcesses.Nodup
  reaps : ∀ {p c}, (k.pc p).reaping = some c → c ∈ k.collected ∧ c ∉ k.deadProcesses ∧ k.destroyed c = false
  reapsOnce : ∀ {p p' c}, (k.pc p).reaping = some c → (k.pc p').reaping = some c → p = p'
  destroys : ∀ {c}, k.destroyed c = true → c ∈ k.collected

/-- `exit_children_processes`. -/
structure Tables (k : Processes) : Prop where
  valid : ∀ p, (k.pcb p).exitChildren.Valid
  entry : ∀ {p key c}, (k.pcb p).exitChildren.get key = some c →
    (k.pcb c).id = key ∧ (k.pcb c).parent = some p ∧ (k.pc c).delivered = true ∧ c ∉ k.collected
  available : ∀ {p c}, (k.pcb c).parent = some p → (k.pc c).delivered = true → (k.pcb p).exited = false →
    c ∉ k.collected → (k.pcb p).exitChildren.get (k.pcb c).id = some c

/-- Threads in the loop of `process_wait`. -/
structure Sleeps (k : Processes) : Prop where
  looping : ∀ {p pid}, (k.pc p).waiting = some pid → (k.pcb p).waitingThreadNode = some p ∧
    (k.pcb p).waitingChildPid = if 0 < pid then pid else (k.pcb p).id
  blocked : ∀ {p}, k.blocked p = true → ∃ pid, (k.pc p).waiting = some pid ∧ ¬ Satisfies (k.pcb p).exitChildren pid

/-- The codes that are passed and stored. -/
structure Codes (k : Processes) : Prop where
  called : ∀ {c code}, k.pc c = .exitOwn code → k.passed c = some code
  stored : ∀ {c}, (k.pc c).ended = true → k.passed c = some (k.pcb c).exitCode
  logged : ∀ {e}, e ∈ k.log → (k.pcb e.child).parent = some e.parent ∧ (k.pcb e.child).exitCode = e.status ∧
    (0 < e.pid → (k.pcb e.child).id = e.pid)
  once : k.collected.Nodup

structure ProcessInv (k : Processes) : Prop where
  lives : Lives k
  tables : Tables k
  sleeps : Sleeps k
  codes : Codes k

variable {k k' : Processes} {p c pid : Nat} {pc : ProcessPc}

theorem ended_of_delivered (h : pc.delivered = true) : pc.ended = true := by
  cases pc <;> simp_all [ProcessPc.delivered, ProcessPc.ended]

theorem Lives.undestroyed (h : Lives k) (hc : c ∉ k.collected) : k.destroyed c = false := by
  cases hd : k.destroyed c with
  | false => rfl
  | true => exact absurd (h.destroys hd) hc

theorem Lives.uncollected (h : Lives k) (hc : (k.pc c).delivered = false) : c ∉ k.collected := by
  intro hmem
  rw [h.ends hmem] at hc
  cases hc

theorem Lives.created_of_delivered (h : Lives k) (hc : (k.pc c).delivered = true) : c < k.created := by
  refine (h.acting ?_).1
  intro hunborn
  rw [hunborn] at hc
  cases hc

/-- What is taken from `exit_children_processes`. -/
theorem takeExited_spec {t : HashTable Nat} (h : t.Valid) (pid : Nat) :
    (takeExited t pid).2.Valid ∧ (∀ child, (takeExited t pid).1 = some child →
      ∃ key, t.get key = some child ∧ (0 < pid → key = pid) ∧ (takeExited t pid).2.get = update t.get key none) ∧
      ((takeExited t pid).1 = none → (takeExited t pid).2.get = t.get ∧ ¬ Satisfies t pid) := by
  rw [takeExited]
  split_ifs with hany
  · obtain ⟨kv, hnext, hget⟩ := HashTable.iteratorNext_createIterator h hany.2
    rw [hnext]
    obtain ⟨hvalid, hresult, hremove⟩ := HashTable.remove_spec h kv.1
    refine ⟨hvalid, fun child hchild => ?_, fun hnone => ?_⟩
    · refine ⟨kv.1, hresult.symm.trans hchild, fun hpos => ?_, hremove⟩
      omega
    · rw [hresult, hget] at hnone
      cases hnone
  · obtain ⟨hvalid, hresult, hremove⟩ := HashTable.remove_spec h pid
    refine ⟨hvalid, fun child hchild => ?_, fun hnone => ?_⟩
    · exact ⟨pid, hresult.symm.trans hchild, fun _ => rfl, hremove⟩
    · rw [hresult] at hnone
      refine ⟨by rw [hremove, ← hnone, update_eq_self], ?_⟩
      rintro ⟨key, child, hget, rfl | rfl⟩
      · have hsize : t.size = 0 := by omega
        rw [(HashTable.size_eq_zero h).mp hsize key] at hget
        cases hget
      · rw [hnone] at hget
        cases hget

/-! ## Steps that change little -/

/-- The thread of a process goes on, and no process is created, collected or destroyed. -/
theorem Lives.goto (h : Lives k) (hpool : k'.pool = k.pool) (hcreated : k'.created = k.created)
    (hid : ∀ c, (k'.pcb c).id = (k.pcb c).id)
    (hparent : ∀ {c q}, (k'.pcb c).parent = some q → (k.pcb c).parent = some q ∨ q < k.created)
    (hlog : k'.collected = k.collected) (hdead : k'.deadProcesses = k.deadProcesses)
    (hdestroyed : k'.destroyed = k.destroyed) (hpc : k'.pc = update k.pc p pc) (hborn : k.pc p ≠ .unborn)
    (hfork : pc.forking = none ∨ pc.forking = (k.pc p).forking) (hreap : pc.reaping = none)
    (hdel : (k.pc p).delivered = true → pc.delivered = true) : Lives k' := by
  have hplace : ∀ {q}, q ≠ p → k'.pc q = k.pc q := by
    intro q hq
    rw [hpc, update_of_ne hq]
  have hself : k'.pc p = pc := by rw [hpc, update_self]
  have hforking : ∀ {q c}, (k'.pc q).forking = some c → (k.pc q).forking = some c := by
    intro q c hq
    by_cases heq : q = p
    · subst heq
      rw [hself] at hq
      rcases hfork with hnone | hsame
      · rw [hnone] at hq
        cases hq
      · rwa [← hsame]
    · rwa [← hplace heq]
  have hreaping : ∀ {q c}, (k'.pc q).reaping = some c → (k.pc q).reaping = some c := by
    intro q c hq
    by_cases heq : q = p
    · subst heq
      rw [hself, hreap] at hq
      cases hq
    · rwa [← hplace heq]
  refine ⟨hpool ▸ h.whole, ?_, ?_, ?_, ?_, ?_, ?_, ?_, ?_, ?_, ?_, ?_, ?_, ?_⟩
  · rw [hcreated, hid, hdestroyed]
    exact h.main
  · intro c hc hd
    rw [hpool, hid]
    exact h.used (hcreated ▸ hc) (hdestroyed ▸ hd)
  · intro c d hc hd hc' hd' heq
    rw [hid, hid] at heq
    exact h.ids (hcreated ▸ hc) (hcreated ▸ hd) (hdestroyed ▸ hc') (hdestroyed ▸ hd') heq
  · intro c q hc
    rw [hcreated]
    exact (hparent hc).elim h.parents id
  · intro q hq
    rw [hcreated]
    by_cases heq : q = p
    · rw [heq]
      exact h.acting hborn
    · exact h.acting (hplace heq ▸ hq)
  · intro q c hq
    obtain ⟨hc, hzero, hunborn⟩ := h.newborn (hforking hq)
    have hne : c ≠ p := by
      rintro rfl
      exact hborn hunborn
    exact ⟨hcreated ▸ hc, hzero, (hplace hne).trans hunborn⟩
  · exact fun hq hq' => h.newbornOnce (hforking hq) (hforking hq')
  · intro c hc
    rw [hlog] at hc
    by_cases heq : c = p
    · subst heq
      rw [hself]
      exact hdel (h.ends hc)
    · rw [hplace heq]
      exact h.ends hc
  · rw [hdead, hlog, hdestroyed]
    exact h.dead
  · rw [hdead]
    exact h.deadOnce
  · intro q c hq
    rw [hlog, hdead, hdestroyed]
    exact h.reaps (hreaping hq)
  · exact fun hq hq' => h.reapsOnce (hreaping hq) (hreaping hq')
  · rw [hdestroyed, hlog]
    exact h.destroys

/-- The exited children and who has collected them stay the same. -/
theorem Tables.frame (h : Tables k)
    (hget : ∀ q, (k'.pcb q).exitChildren.Valid ∧ (k'.pcb q).exitChildren.get = (k.pcb q).exitChildren.get)
    (hid : ∀ c, (k.pc c).delivered = true → (k'.pcb c).id = (k.pcb c).id ∧ (k'.pcb c).parent = (k.pcb c).parent)
    (hexit : ∀ q, (k'.pcb q).exited = (k.pcb q).exited) (hdel : ∀ c, (k'.pc c).delivered = (k.pc c).delivered)
    (hlog : k'.collected = k.collected) : Tables k' := by
  refine ⟨fun q => (hget q).1, ?_, ?_⟩
  · intro q key c hc
    rw [(hget q).2] at hc
    obtain ⟨hkey, hparent, hd, hcol⟩ := h.entry hc
    rw [hlog, hdel, (hid c hd).1, (hid c hd).2]
    exact ⟨hkey, hparent, hd, hcol⟩
  · intro q c hparent hd halive hcol
    rw [hdel] at hd
    rw [(hid c hd).2] at hparent
    rw [hlog] at hcol
    rw [hexit] at halive
    rw [(hget q).2, (hid c hd).1]
    exact h.available hparent hd halive hcol

/-- The threads in the loop of `process_wait` are left alone. -/
theorem Sleeps.frame (h : Sleeps k) (hpc : ∀ {q pid}, (k'.pc q).waiting = some pid → (k.pc q).waiting = some pid)
    (hpcb : ∀ {q pid}, (k.pc q).waiting = some pid → (k'.pcb q).waitingThreadNode = (k.pcb q).waitingThreadNode ∧
      (k'.pcb q).waitingChildPid = (k.pcb q).waitingChildPid ∧ (k'.pcb q).id = (k.pcb q).id ∧
      (k'.pcb q).exitChildren.get = (k.pcb q).exitChildren.get)
    (hblocked : ∀ {q}, k'.blocked q = true → k.blocked q = true ∧ (k'.pc q).waiting = (k.pc q).waiting) : Sleeps k' := by
  refine ⟨?_, ?_⟩
  · intro q pid hq
    obtain ⟨hnode, hwait, hid, -⟩ := hpcb (hpc hq)
    rw [hnode, hwait, hid]
    exact h.looping (hpc hq)
  · intro q hq
    obtain ⟨hold, hsame⟩ := hblocked hq
    obtain ⟨pid, hpid, hunsat⟩ := h.blocked hold
    refine ⟨pid, hsame.trans hpid, ?_⟩
    rw [Satisfies, (hpcb hpid).2.2.2]
    exact hunsat

theorem Sleeps.not_blocked (h : Sleeps k) (hp : (k.pc p).waiting = none) : k.blocked p ≠ true := by
  intro hb
  obtain ⟨pid, hpid, -⟩ := h.blocked hb
  rw [hp] at hpid
  cases hpid

/-- No code is passed or stored, and no child is collected. -/
theorem Codes.frame (h : Codes k) (hpassed : k'.passed = k.passed) (hlog : k'.log = k.log)
    (hpcb : ∀ {c}, (k.pc c).ended = true → (k'.pcb c).exitCode = (k.pcb c).exitCode ∧
      (k'.pcb c).parent = (k.pcb c).parent ∧ (k'.pcb c).id = (k.pcb c).id)
    (hlives : Lives k) (hpc : k'.pc = update k.pc p pc) (hown : ∀ code, pc ≠ .exitOwn code)
    (hended : pc.ended = true → (k.pc p).ended = true) : Codes k' := by
  have hplace : ∀ {q}, q ≠ p → k'.pc q = k.pc q := by
    intro q hq
    rw [hpc, update_of_ne hq]
  have hself : k'.pc p = pc := by rw [hpc, update_self]
  refine ⟨?_, ?_, ?_, ?_⟩
  · intro c code hc
    have hne : c ≠ p := by
      rintro rfl
      exact hown code (hself.symm.trans hc)
    rw [hpassed]
    exact h.called ((hplace hne).symm.trans hc)
  · intro c hc
    have hold : (k.pc c).ended = true := by
      by_cases heq : c = p
      · subst heq
        rw [hself] at hc
        exact hended hc
      · rwa [hplace heq] at hc
    rw [hpassed, (hpcb hold).1]
    exact h.stored hold
  · intro e he
    rw [hlog] at he
    have hold := ended_of_delivered (hlives.ends (List.mem_map_of_mem he))
    obtain ⟨hcode, hparent, hid⟩ := hpcb hold
    rw [hcode, hparent, hid]
    exact h.logged he
  · rw [collected, hlog]
    exact h.once

end Processes

end LuckOS
