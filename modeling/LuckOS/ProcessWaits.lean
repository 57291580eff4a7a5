import LuckOS.ProcessForks

/-!
# `process_wait`

A round of the loop takes an exited child out of the table, or blocks the thread when no child in the table satisfies the
call. A collected child is added to `dead_processes`.
-/

namespace LuckOS

open Function Runs

namespace Processes

variable {k k' : Processes} {p c pid : Nat} {pc : ProcessPc}

/-- The fields of a process change that tell for whom its thread waits. -/
theorem ProcessInv.setPcb {x : Pcb} (h : ProcessInv k) (hborn : k.pc p ≠ .unborn) (hreap : (k.pc p).reaping = none)
    (hown : ∀ code, k.pc p ≠ .exitOwn code) (hid : x.id = (k.pcb p).id) (hparent : x.parent = (k.pcb p).parent)
    (hexited : x.exited = (k.pcb p).exited) (hcode : x.exitCode = (k.pcb p).exitCode)
    (hvalid : x.exitChildren.Valid) (hget : x.exitChildren.get = (k.pcb p).exitChildren.get)
    (hwait : (k.pc p).waiting = none ∨ x.waitingThreadNode = (k.pcb p).waitingThreadNode ∧
      x.waitingChildPid = (k.pcb p).waitingChildPid) : ProcessInv (k.setPcb p x) := by
  have hfields : ∀ q, ((k.setPcb p x).pcb q).id = (k.pcb q).id ∧ ((k.setPcb p x).pcb q).parent = (k.pcb q).parent ∧
      ((k.setPcb p x).pcb q).exited = (k.pcb q).exited ∧ ((k.setPcb p x).pcb q).exitCode = (k.pcb q).exitCode ∧
      ((k.setPcb p x).pcb q).exitChildren.Valid ∧
      ((k.setPcb p x).pcb q).exitChildren.get = (k.pcb q).exitChildren.get := by
    intro q
    by_cases hq : q = p
    · subst hq
      simp only [Processes.setPcb, update_self]
      exact ⟨hid, hparent, hexited, hcode, hvalid, hget⟩
    · simp only [Processes.setPcb, update_of_ne hq]
      exact ⟨trivial, trivial, trivial, trivial, h.tables.valid q, trivial⟩
  have hpc : k.pc = update k.pc p (k.pc p) := (update_eq_self ..).symm
  refine ⟨?_, ?_, ?_, ?_⟩
  · exact h.lives.goto rfl rfl (fun q => (hfields q).1) (fun {q _} hq => .inl ((hfields q).2.1 ▸ hq)) rfl rfl rfl hpc hborn
      (.inr rfl) hreap id
  · exact h.tables.frame (fun q => (hfields q).2.2.2.2) (fun q _ => ⟨(hfields q).1, (hfields q).2.1⟩)
      (fun q => (hfields q).2.2.1) (fun _ => rfl) rfl
  · refine h.sleeps.frame id (fun {q pid} hq => ?_) fun hq => ⟨hq, rfl⟩
    have hnode : ((k.setPcb p x).pcb q).waitingThreadNode = (k.pcb q).waitingThreadNode ∧
        ((k.setPcb p x).pcb q).waitingChildPid = (k.pcb q).waitingChildPid := by
      by_cases heq : q = p
      · subst heq
        simp only [Processes.setPcb, update_self]
        refine hwait.resolve_left fun hnone => ?_
        rw [hnone] at hq
        cases hq
      · simp only [Processes.setPcb, update_of_ne heq]
        exact ⟨trivial, trivial⟩
    exact ⟨hnode.1, hnode.2, (hfields q).1, (hfields q).2.2.2.2.2⟩
  · exact h.codes.frame rfl rfl (fun {q} _ => ⟨(hfields q).2.2.2.1, (hfields q).2.1, (hfields q).1⟩) h.lives hpc hown id

/-- The thread of a process goes to sleep. -/
theorem ProcessInv.block (h : ProcessInv k) (hborn : k.pc p ≠ .unborn) (hdel : (k.pc p).delivered = false)
    (hnode : (k.pcb p).waitingThreadNode = some p)
    (hwaits : (k.pcb p).waitingChildPid = if 0 < pid then pid else (k.pcb p).id)
    (hunsat : ¬ Satisfies (k.pcb p).exitChildren pid) :
    ProcessInv { k.goto p (.waitYield pid) with blocked := update k.blocked p true } := by
  have hplace : ∀ {q}, q ≠ p → update k.pc p (.waitYield pid) q = k.pc q := fun hq => update_of_ne hq ..
  have hself : update k.pc p (.waitYield pid) p = .waitYield pid := update_self ..
  refine ⟨?_, ?_, ⟨?_, ?_⟩, ?_⟩
  · exact h.lives.goto rfl rfl (fun _ => rfl) .inl rfl rfl rfl rfl hborn (.inl rfl) rfl (by simp [hdel])
  · exact h.tables.frame (fun q => ⟨h.tables.valid q, rfl⟩) (fun _ _ => ⟨rfl, rfl⟩) (fun _ => rfl)
      (apply_place _ _ _ ProcessPc.delivered hdel.symm) rfl
  · intro q pid' hq
    change (update k.pc p (.waitYield pid) q).waiting = some pid' at hq
    by_cases heq : q = p
    · subst heq
      rw [hself] at hq
      rw [← Option.some.inj hq]
      exact ⟨hnode, hwaits⟩
    · rw [hplace heq] at hq
      exact h.sleeps.looping hq
  · intro q hq
    change update k.blocked p true q = true at hq
    change ∃ pid', (update k.pc p (.waitYield pid) q).waiting = some pid' ∧ _
    by_cases heq : q = p
    · subst heq
      rw [hself]
      exact ⟨pid, rfl, hunsat⟩
    · rw [update_of_ne heq] at hq
      rw [hplace heq]
      exact h.sleeps.blocked hq
  · exact h.codes.frame rfl rfl (fun _ => ⟨rfl, rfl, rfl⟩) h.lives rfl (by simp) (by simp [ProcessPc.ended])

/-- The state behind a successful `process_wait`. -/
def collect (k : Processes) (p pid child : Nat) (exitChildren : HashTable Nat) : Processes :=
  { (k.setPcb p { k.pcb p with exitChildren := exitChildren }).goto p (.reap child) with
    log := k.log ++ [⟨p, pid, child, (k.pcb child).exitCode⟩] }

section Collect

variable {exitChildren : HashTable Nat} {key : Nat}

theorem collect_fields (k : Processes) (p pid c : Nat) (exitChildren : HashTable Nat) (q : Nat) :
    ((k.collect p pid c exitChildren).pcb q).id = (k.pcb q).id ∧
    ((k.collect p pid c exitChildren).pcb q).parent = (k.pcb q).parent ∧
    ((k.collect p pid c exitChildren).pcb q).exited = (k.pcb q).exited ∧
    ((k.collect p pid c exitChildren).pcb q).exitCode = (k.pcb q).exitCode := by
  by_cases hq : q = p
  · subst hq
    simp [collect, Processes.setPcb, Processes.goto]
  · simp [collect, Processes.setPcb, Processes.goto, hq]

theorem collected_collect : (k.collect p pid c exitChildren).collected = k.collected ++ [c] := by
  simp [collect, collected]

theorem Lives.collect (h : Lives k) (hborn : k.pc p ≠ .unborn) (hdel : (k.pc p).delivered = false)
    (hc : (k.pc c).delivered = true) (hcol : c ∉ k.collected) : Lives (k.collect p pid c exitChildren) := by
  have hfields := collect_fields k p pid c exitChildren
  have hplace : ∀ {q}, q ≠ p → update k.pc p (.reap c) q = k.pc q := fun hq => update_of_ne hq ..
  have hself : update k.pc p (.reap c) p = .reap c := update_self ..
  have hforking : ∀ {q d}, (update k.pc p (.reap c) q).forking = some d → (k.pc q).forking = some d := by
    intro q d hq
    by_cases heq : q = p
    · rw [heq, hself] at hq
      cases hq
    · rwa [hplace heq] at hq
  have hreaping : ∀ {q d}, (update k.pc p (.reap c) q).reaping = some d →
      q = p ∧ d = c ∨ q ≠ p ∧ (k.pc q).reaping = some d := by
    intro q d hq
    by_cases heq : q = p
    · rw [heq, hself] at hq
      exact .inl ⟨heq, (Option.some.inj hq).symm⟩
    · rw [hplace heq] at hq
      exact .inr ⟨heq, hq⟩
  have hmem : ∀ {d}, d ∈ k.collected → d ∈ k.collected ++ [c] := fun hd => List.mem_append_left _ hd
  refine ⟨h.whole, ?_, ?_, ?_, ?_, ?_, ?_, ?_, ?_, ?_, h.deadOnce, ?_, ?_, ?_⟩
  · rw [(hfields 0).1]
    exact h.main
  · intro d hd hd'
    rw [(hfields d).1]
    exact h.used hd hd'
  · intro d e hd he hd' he' heq
    rw [(hfields d).1, (hfields e).1] at heq
    exact h.ids hd he hd' he' heq
  · intro d q hd
    rw [(hfields d).2.1] at hd
    exact h.parents hd
  · intro q hq
    by_cases heq : q = p
    · rw [heq]
      exact h.acting hborn
    · exact h.acting fun hunborn => hq ((hplace heq).trans hunborn)
  · intro q d hq
    obtain ⟨hd, hd', hunborn⟩ := h.newborn (hforking hq)
    refine ⟨hd, hd', (hplace ?_).trans hunborn⟩
    rintro rfl
    exact hborn hunborn
  · exact fun hq hq' => h.newbornOnce (hforking hq) (hforking hq')
  · intro d hd
    rw [collected_collect, List.mem_append, List.mem_singleton] at hd
    have hd' : (k.pc d).delivered = true := by
      rcases hd with hd | rfl
      · exact h.ends hd
      · exact hc
    have hne : d ≠ p := by
      rintro rfl
      rw [hdel] at hd'
      cases hd'
    exact (congrArg ProcessPc.delivered (hplace hne)).trans hd'
  · intro d hd
    rw [collected_collect]
    exact ⟨hmem (h.dead hd).1, (h.dead hd).2⟩
  · intro q d hq
    rw [collected_collect]
    rcases hreaping hq with ⟨-, rfl⟩ | ⟨-, hold⟩
    · exact ⟨by simp, fun hd => hcol (h.dead hd).1, h.undestroyed hcol⟩
    · obtain ⟨hd, hd'⟩ := h.reaps hold
      exact ⟨hmem hd, hd'⟩
  · intro q q' d hq hq'
    rcases hreaping hq with ⟨rfl, rfl⟩ | ⟨-, hold⟩ <;> rcases hreaping hq' with ⟨rfl, hd⟩ | ⟨-, hold'⟩
    · rfl
    · exact absurd (h.reaps hold').1 hcol
    · subst hd
      exact absurd (h.reaps hold).1 hcol
    · exact h.reapsOnce hold hold'
  · intro d hd
    rw [collected_collect]
    exact hmem (h.destroys hd)

theorem Tables.collect (h : Tables k) (hdel : (k.pc p).delivered = false) (hvalid : exitChildren.Valid)
    (hc : (k.pcb p).exitChildren.get key = some c) (hget : exitChildren.get = update (k.pcb p).exitChildren.get key none) :
    Tables (k.collect p pid c exitChildren) := by
  have hfields := collect_fields k p pid c exitChildren
  have hself : ((k.collect p pid c exitChildren).pcb p).exitChildren = exitChildren := by
    simp [Processes.collect, Processes.setPcb, Processes.goto]
  have hother : ∀ {q}, q ≠ p → ((k.collect p pid c exitChildren).pcb q).exitChildren = (k.pcb q).exitChildren := by
    intro q hq
    simp [Processes.collect, Processes.setPcb, Processes.goto, hq]
  have hplace : ∀ q, ((k.collect p pid c exitChildren).pc q).delivered = (k.pc q).delivered :=
    apply_place k.pc p (.reap c) ProcessPc.delivered hdel.symm
  obtain ⟨hkey, hparent, -, -⟩ := h.entry hc
  refine ⟨?_, ?_, ?_⟩
  · intro q
    by_cases hq : q = p
    · rw [hq, hself]
      exact hvalid
    · rw [hother hq]
      exact h.valid q
  · intro q key' d hd
    rw [collected_collect, hplace, (hfields d).1, (hfields d).2.1, List.mem_append, List.mem_singleton, not_or]
    by_cases hq : q = p
    · subst hq
      rw [hself, hget] at hd
      have hne : key' ≠ key := by
        rintro rfl
        rw [update_self] at hd
        cases hd
      rw [update_of_ne hne] at hd
      obtain ⟨hkey', hparent', hd', hcol'⟩ := h.entry hd
      refine ⟨hkey', hparent', hd', hcol', ?_⟩
      rintro rfl
      exact hne (hkey'.symm.trans hkey)
    · rw [hother hq] at hd
      obtain ⟨hkey', hparent', hd', hcol'⟩ := h.entry hd
      refine ⟨hkey', hparent', hd', hcol', ?_⟩
      rintro rfl
      exact hq (Option.some.inj (hparent'.symm.trans hparent))
  · intro q d hd hd' halive hcol
    rw [collected_collect, List.mem_append, List.mem_singleton, not_or] at hcol
    rw [hplace] at hd'
    rw [(hfields d).2.1] at hd
    rw [(hfields q).2.2.1] at halive
    rw [(hfields d).1]
    have hold := h.available hd hd' halive hcol.1
    by_cases hq : q = p
    · subst hq
      rw [hself, hget, update_of_ne]
      · exact hold
      · intro heq
        rw [heq, hc] at hold
        exact hcol.2 (Option.some.inj hold).symm
    · rw [hother hq]
      exact hold

theorem Sleeps.collect (h : Sleeps k) (hb : k.blocked p ≠ true) : Sleeps (k.collect p pid c exitChildren) := by
  have hwaits : ∀ {q}, q ≠ p → update k.pc p (.reap c) q = k.pc q := fun hq => update_of_ne hq ..
  have hne : ∀ {q pid'}, ((k.collect p pid c exitChildren).pc q).waiting = some pid' → q ≠ p := by
    rintro q pid' hq rfl
    simp [Processes.collect, Processes.goto, ProcessPc.waiting] at hq
  have hpcb : ∀ {q}, q ≠ p → (k.collect p pid c exitChildren).pcb q = k.pcb q := fun hq => update_of_ne hq ..
  refine ⟨?_, ?_⟩
  · intro q pid' hq
    rw [hpcb (hne hq)]
    exact h.looping ((congrArg ProcessPc.waiting (hwaits (hne hq))).symm.trans hq)
  · intro q hq
    have hq' : q ≠ p := by
      rintro rfl
      exact hb hq
    obtain ⟨pid', hpid, hunsat⟩ := h.blocked hq
    rw [hpcb hq']
    exact ⟨pid', (congrArg ProcessPc.waiting (hwaits hq')).trans hpid, hunsat⟩

theorem ProcessInv.collect (h : ProcessInv k) (hborn : k.pc p ≠ .unborn) (hdel : (k.pc p).ended = false)
    (hb : k.blocked p ≠ true) (hvalid : exitChildren.Valid) (hc : (k.pcb p).exitChildren.get key = some c)
    (hget : exitChildren.get = update (k.pcb p).exitChildren.get key none) (hpid : 0 < pid → key = pid) :
    ProcessInv (k.collect p pid c exitChildren) := by
  obtain ⟨hkey, hparent, hdelivered, hcol⟩ := h.tables.entry hc
  have hfields := collect_fields k p pid c exitChildren
  have hpdel : (k.pc p).delivered = false := by
    cases hd : (k.pc p).delivered with
    | false => rfl
    | true => exact absurd (ended_of_delivered hd) (by simp [hdel])
  have hplace : ∀ {q}, q ≠ p → update k.pc p (.reap c) q = k.pc q := fun hq => update_of_ne hq ..
  have hself : update k.pc p (.reap c) p = .reap c := update_self ..
  refine ⟨h.lives.collect hborn hpdel hdelivered hcol, h.tables.collect hpdel hvalid hc hget, h.sleeps.collect hb, ?_, ?_, ?_,
    ?_⟩
  · intro d code hd
    change update k.pc p (.reap c) d = _ at hd
    have hne : d ≠ p := by
      rintro rfl
      rw [hself] at hd
      cases hd
    rw [hplace hne] at hd
    exact h.codes.called hd
  · intro d hd
    change (update k.pc p (.reap c) d).ended = true at hd
    have hne : d ≠ p := by
      rintro rfl
      rw [hself] at hd
      cases hd
    rw [hplace hne] at hd
    rw [(hfields d).2.2.2]
    exact h.codes.stored hd
  · intro e he
    rcases List.mem_append.mp he with he | he
    · rw [(hfields e.child).1, (hfields e.child).2.1, (hfields e.child).2.2.2]
      exact h.codes.logged he
    · rw [List.mem_singleton.mp he, (hfields c).1, (hfields c).2.1, (hfields c).2.2.2]
      exact ⟨hparent, rfl, fun hpos => hkey.trans (hpid hpos)⟩
  · rw [collected_collect]
    exact List.nodup_append.mpr ⟨h.codes.once, by simp, by
      rintro d hd e he rfl
      exact hcol (List.mem_singleton.mp he ▸ hd)⟩

end Collect

/-- One round of the loop of `process_wait`. -/
theorem ProcessInv.waitRound (h : ProcessInv k) (hp : k.pc p = .waitEnter pid ∨ k.pc p = .waitAgain pid)
    (hb : k.blocked p ≠ true) (hwaits : (k.pcb p).waitingChildPid = if 0 < pid then pid else (k.pcb p).id) :
    ProcessInv (k.waitRound p pid) := by
  have hborn : k.pc p ≠ .unborn := by rcases hp with hp | hp <;> simp [hp]
  have hended : (k.pc p).ended = false := by rcases hp with hp | hp <;> rw [hp] <;> rfl
  have hdel : (k.pc p).delivered = false := by rcases hp with hp | hp <;> rw [hp] <;> rfl
  have hreap : (k.pc p).reaping = none := by rcases hp with hp | hp <;> rw [hp] <;> rfl
  have hown : ∀ code, k.pc p ≠ .exitOwn code := by rcases hp with hp | hp <;> simp [hp]
  obtain ⟨hvalid, hsome, hnone⟩ := takeExited_spec (h.tables.valid p) pid
  rw [Processes.waitRound]
  split
  next child exitChildren htake =>
    rw [htake] at hvalid hsome
    obtain ⟨key, hget, hpid, hremove⟩ := hsome child rfl
    exact h.collect hborn hended hb hvalid hget hremove hpid
  next exitChildren htake =>
    rw [htake] at hvalid hnone
    obtain ⟨hget, hunsat⟩ := hnone rfl
    have hset : ProcessInv (k.setPcb p { k.pcb p with exitChildren := exitChildren, waitingThreadNode := some p }) := by
      refine h.setPcb hborn hreap hown rfl rfl rfl rfl hvalid hget ?_
      rcases hp with hp | hp
      · exact .inl (by rw [hp]; rfl)
      · exact .inr ⟨(h.sleeps.looping (by rw [hp]; rfl)).1.symm, rfl⟩
    have hself : (k.setPcb p { k.pcb p with exitChildren := exitChildren, waitingThreadNode := some p }).pcb p =
        { k.pcb p with exitChildren := exitChildren, waitingThreadNode := some p } := update_self ..
    refine hset.block hborn hdel (by rw [hself]) (by rw [hself]; exact hwaits) ?_
    rw [hself, Satisfies]
    dsimp only
    rw [hget]
    exact hunsat

theorem ProcessInv.waitEnter (h : ProcessInv k) (hp : k.pc p = .waitEnter pid) : ProcessInv (k.waitEnter p pid) := by
  rw [Processes.waitEnter]
  split
  · exact h.goto .user (by simp [hp]) rfl rfl (by rw [hp]; rfl) (by rw [hp]; rfl) (by simp) (by rw [hp]; rfl)
  · have hset := h.setPcb (p := p) (x := { k.pcb p with waitingChildPid := if 0 < pid then pid else (k.pcb p).id })
      (by simp [hp]) (by rw [hp]; rfl) (by simp [hp]) rfl rfl rfl rfl (h.tables.valid p) rfl (.inl (by rw [hp]; rfl))
    refine hset.waitRound (.inl hp) (h.sleeps.not_blocked (by rw [hp]; rfl)) ?_
    simp [Processes.setPcb]

/-- A collected child is added to `dead_processes`. -/
theorem ProcessInv.reap (h : ProcessInv k) (hp : k.pc p = .reap c) :
    ProcessInv { k.goto p .user with deadProcesses := k.deadProcesses ++ [c] } := by
  have hreaping : (k.pc p).reaping = some c := by rw [hp]; rfl
  obtain ⟨hcol, hdead, hd⟩ := h.lives.reaps hreaping
  have hgoto := h.goto (p := p) .user (by simp [hp]) rfl rfl (by rw [hp]; rfl) (by rw [hp]; rfl) (by simp) (by rw [hp]; rfl)
  have hlives := hgoto.lives
  refine ⟨⟨hlives.whole, hlives.main, hlives.used, hlives.ids, hlives.parents, hlives.acting, hlives.newborn,
    hlives.newbornOnce, hlives.ends, ?_, ?_, ?_, hlives.reapsOnce, hlives.destroys⟩,
    ⟨hgoto.tables.valid, hgoto.tables.entry, hgoto.tables.available⟩, ⟨hgoto.sleeps.looping, hgoto.sleeps.blocked⟩,
    ⟨hgoto.codes.called, hgoto.codes.stored, hgoto.codes.logged, hgoto.codes.once⟩⟩
  · intro d hd'
    rcases List.mem_append.mp hd' with hd' | hd'
    · exact hlives.dead hd'
    · rw [List.mem_singleton.mp hd']
      exact ⟨hcol, hd⟩
  · exact List.nodup_append.mpr ⟨h.lives.deadOnce, by simp, by
      rintro d hd' e he rfl
      exact hdead (List.mem_singleton.mp he ▸ hd')⟩
  · intro q d hq
    obtain ⟨hcol', hdead', hd'⟩ := hlives.reaps hq
    refine ⟨hcol', fun hmem => ?_, hd'⟩
    rcases List.mem_append.mp hmem with hmem | hmem
    · exact hdead' hmem
    · rw [List.mem_singleton.mp hmem] at hq
      have hne : q ≠ p := by
        rintro rfl
        simp [Processes.goto, ProcessPc.reaping] at hq
      have hold : (k.pc q).reaping = some c := (congrArg ProcessPc.reaping (update_of_ne hne ..)).symm.trans hq
      exact hne (h.lives.reapsOnce hold hreaping)

end Processes

end LuckOS
