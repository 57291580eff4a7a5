import LuckOS.ProcessChildren

/-!
# Pending waits

A thread in the loop of `process_wait` that nobody wakes without a reason is blocked, or one
of the children for which it waits has exited. The only thread that a process ever records in
`waiting_thread_node` is its own.
-/

namespace LuckOS

open Function Runs

namespace Processes

structure Pending (k : Processes) : Prop where
  served : ∀ {p pid}, (k.pc p).waiting = some pid → k.blocked p = true ∨ Satisfies (k.pcb p).exitChildren pid
  nodes : ∀ {p n}, (k.pcb p).waitingThreadNode = some n → n = p
  keyed : ∀ {p pid}, (k.pc p).waiting = some pid → 0 < pid → (k.pcb p).children.get pid ≠ none
  own : ∀ {p c}, (k.pcb c).parent = some p → (k.pcb c).id ≠ (k.pcb p).id

variable {k k' : Processes} {p c pid : Nat}

/-- A step that wakes nobody, and that takes no exited child from a thread in the loop. -/
structure KeepsPending (k k' : Processes) : Prop where
  waiting : ∀ {q pid}, (k'.pc q).waiting = some pid → (k.pc q).waiting = some pid ∧
    (k.blocked q = true → k'.blocked q = true) ∧ (k'.pcb q).exitChildren.get = (k.pcb q).exitChildren.get
  nodes : ∀ {q n}, (k'.pcb q).waitingThreadNode = some n → n = q ∨ (k.pcb q).waitingThreadNode = some n
  kids : KeepsKids k k'

theorem Pending.keep (h : Pending k) (hkeep : KeepsPending k k') : Pending k' := by
  refine ⟨?_, ?_, ?_, ?_⟩
  · intro q pid hq
    obtain ⟨hold, hblocked, hget⟩ := hkeep.waiting hq
    rw [Satisfies, hget]
    exact (h.served hold).imp_left hblocked
  · intro q n hn
    exact (hkeep.nodes hn).elim id h.nodes
  · intro q pid hq hpos
    rw [(hkeep.kids.pcb q).1]
    exact h.keyed (hkeep.waiting hq).1 hpos
  · intro q c hc
    rw [(hkeep.kids.pcb c).2.2, (hkeep.kids.pcb q).2.2]
    rw [(hkeep.kids.pcb c).2.1] at hc
    exact h.own hc

/-- The place of a thread outside of the loop changes. -/
theorem keepsPending_goto {x : ProcessPc} (hx : ∀ c, x ≠ .forkAdd c)
    (hwait : x.waiting = none ∨ x.waiting = (k.pc p).waiting) : KeepsPending k (k.goto p x) := by
  refine ⟨fun {q pid} hq => ⟨?_, id, rfl⟩, .inr, keepsKids_goto hx⟩
  change (update k.pc p x q).waiting = some pid at hq
  by_cases heq : q = p
  · rw [heq, update_self] at hq
    rw [heq]
    rcases hwait with hnone | hsame
    · rw [hnone] at hq
      cases hq
    · rw [← hsame]
      exact hq
  · rwa [update_of_ne heq] at hq

theorem keepsPending_setWaiting (n : Nat) : KeepsPending k (k.setPcb p { k.pcb p with waitingChildPid := n }) := by
  have hexit := setPcb_apply Pcb.exitChildren k (p := p) { k.pcb p with waitingChildPid := n } rfl
  have hnode := setPcb_apply Pcb.waitingThreadNode k (p := p) { k.pcb p with waitingChildPid := n } rfl
  refine ⟨fun {q _} hq => ⟨hq, id, ?_⟩, fun {q _} hn => .inr ?_, keepsKids_setPcb ⟨rfl, rfl, rfl⟩⟩
  · rw [hexit q]
  · rw [← hnode q]
    exact hn

theorem Pending.call (h : Pending k) (f : ProcessCall) : Pending (k.call p f) := by
  cases f with
  | fork => exact h.keep (keepsPending_goto (by simp [ProcessCall.entry]) (.inl rfl))
  | wait pid => exact h.keep (keepsPending_goto (by simp [ProcessCall.entry]) (.inl rfl))
  | exit code =>
    have hgoto := h.keep (keepsPending_goto (p := p) (x := .exitOwn code) (by simp) (.inl rfl))
    exact ⟨hgoto.served, hgoto.nodes, hgoto.keyed, hgoto.own⟩

theorem Pending.destroy (h : Pending k) : Pending (k.destroyProcess p) := ⟨h.served, h.nodes, h.keyed, h.own⟩

theorem Pending.forkCreate (h : Pending k) (hf : FamilyInv k) (hstep : k.forkCreate p = some k') : Pending k' := by
  obtain ⟨⟨id, pool⟩, -, rfl⟩ := Option.map_eq_some_iff.mp hstep
  have hunborn : k.pc k.created = .unborn := by
    by_contra hpc
    exact Nat.lt_irrefl _ (hf.lives.acting hpc).1
  have hwaiting : ∀ {q pid}, (update k.pc p (.forkAdd k.created) q).waiting = some pid →
      (k.pc q).waiting = some pid ∧ update k.pcb k.created (newPcb id) q = k.pcb q := by
    intro q pid hq
    have hold : (k.pc q).waiting = some pid := by
      by_cases heq : q = p
      · rw [heq, update_self] at hq
        cases hq
      · rwa [update_of_ne heq] at hq
    refine ⟨hold, update_of_ne ?_ ..⟩
    rintro rfl
    rw [hunborn] at hold
    cases hold
  refine ⟨?_, ?_, ?_, ?_⟩
  · intro q pid hq
    obtain ⟨hold, hsame⟩ := hwaiting hq
    change k.blocked q = true ∨ Satisfies (update k.pcb k.created (newPcb id) q).exitChildren pid
    rw [hsame]
    exact h.served hold
  · intro q n hn
    change (update k.pcb k.created (newPcb id) q).waitingThreadNode = some n at hn
    by_cases heq : q = k.created
    · rw [heq, update_self] at hn
      cases hn
    · rw [update_of_ne heq] at hn
      exact h.nodes hn
  · intro q pid hq hpos
    obtain ⟨hold, hsame⟩ := hwaiting hq
    change (update k.pcb k.created (newPcb id) q).children.get pid ≠ none
    rw [hsame]
    exact h.keyed hold hpos
  · intro q c hc
    change (update k.pcb k.created (newPcb id) c).parent = some q at hc
    change (update k.pcb k.created (newPcb id) c).id ≠ (update k.pcb k.created (newPcb id) q).id
    have hne : c ≠ k.created := by
      rintro rfl
      rw [update_self] at hc
      cases hc
    rw [update_of_ne hne] at hc ⊢
    have hne' : q ≠ k.created := fun heq => Nat.lt_irrefl _ (heq ▸ hf.lives.parents hc)
    rw [update_of_ne hne']
    exact h.own hc

theorem Pending.forkAdd (h : Pending k) (hf : FamilyInv k) (hp : k.pc p = .forkAdd c) :
    Pending ((k.addChild p c).goto p (.forkStart c)) := by
  have hforking : (k.pc p).forking = some c := by rw [hp]; rfl
  obtain ⟨hlt, -, hunborn⟩ := hf.lives.newborn hforking
  have hne : c ≠ p := by
    rintro rfl
    rw [hunborn] at hp
    cases hp
  have hfields := addChild_fields (k := k) hne
  have hchildren := addChild_children (k := k) hne
  obtain ⟨-, -, hput⟩ := HashTable.put_spec (hf.kids.valid p) (k.pcb c).id c
  have hwaits := apply_place k.pc p (.forkStart c) ProcessPc.waiting (by rw [hp]; rfl)
  refine ⟨?_, ?_, ?_, ?_⟩
  · intro q pid hq
    change k.blocked q = true ∨ Satisfies ((k.addChild p c).pcb q).exitChildren pid
    rw [(hfields q).2.2.2.1]
    exact h.served ((hwaits q).symm.trans hq)
  · intro q n hn
    exact h.nodes ((hfields q).2.2.2.2.2.1.symm.trans hn)
  · intro q pid hq hpos
    have hold := h.keyed ((hwaits q).symm.trans hq) hpos
    change ((k.addChild p c).pcb q).children.get pid ≠ none
    rw [hchildren]
    split_ifs with heq
    · rw [hput]
      by_cases hkey : pid = (k.pcb c).id
      · rw [hkey, update_self]
        simp
      · rw [update_of_ne hkey, ← heq]
        exact hold
    · exact hold
  · intro q d hd
    change ((k.addChild p c).pcb d).parent = some q at hd
    change ((k.addChild p c).pcb d).id ≠ ((k.addChild p c).pcb q).id
    rw [(hfields d).1, (hfields q).1]
    rw [(hfields d).2.2.2.2.2.2] at hd
    split_ifs at hd with heq
    · subst heq
      obtain rfl := Option.some.inj hd
      have hundestroyed : ∀ {m}, (k.pc m).delivered = false → k.destroyed m = false :=
        fun hm => hf.lives.undestroyed (hf.lives.uncollected hm)
      intro hid
      exact hne (hf.lives.ids hlt (hf.lives.acting (by simp [hp])).1 (hundestroyed (by rw [hunborn]; rfl))
        (hundestroyed (by rw [hp]; rfl)) hid)
    · exact h.own hd

theorem Pending.waitRound (h : Pending k) (hkey : 0 < pid → (k.pcb p).children.get pid ≠ none) :
    Pending (k.waitRound p pid) := by
  have hkids := keepsKids_waitRound (k := k) (p := p) pid
  rw [Processes.waitRound] at hkids ⊢
  split at hkids
  next child exitChildren _ =>
    refine h.keep ⟨fun {q pid'} hq => ?_, fun {q n} hn => ?_, hkids⟩
    · have hne : q ≠ p := by
        rintro rfl
        simp [goto, ProcessPc.waiting] at hq
      refine ⟨(congrArg ProcessPc.waiting (update_of_ne hne ..)).symm.trans hq, id, ?_⟩
      exact congrArg (fun x => HashTable.get (Pcb.exitChildren x)) (setPcb_of_ne k _ hne)
    · exact .inr ((setPcb_apply Pcb.waitingThreadNode k { k.pcb p with exitChildren := exitChildren } rfl q).symm.trans hn)
  next exitChildren _ =>
    have hplace : ∀ {q}, q ≠ p → update k.pc p (.waitYield pid) q = k.pc q := fun hq => update_of_ne hq ..
    have hpcb : ∀ {q}, q ≠ p → (k.setPcb p { k.pcb p with
        exitChildren := exitChildren, waitingThreadNode := some p }).pcb q = k.pcb q := fun hq => setPcb_of_ne k _ hq
    refine ⟨?_, ?_, ?_, ?_⟩
    · intro q pid' hq
      by_cases heq : q = p
      · rw [heq]
        exact .inl (update_self ..)
      · have hold := (congrArg ProcessPc.waiting (hplace heq)).symm.trans hq
        change update k.blocked p true q = true ∨ Satisfies ((k.setPcb p _).pcb q).exitChildren pid'
        rw [update_of_ne heq, hpcb heq]
        exact h.served hold
    · intro q n hn
      by_cases heq : q = p
      · subst heq
        have hnode := (congrArg Pcb.waitingThreadNode (setPcb_self k q _)).symm.trans hn
        exact (Option.some.inj hnode).symm
      · exact h.nodes ((congrArg Pcb.waitingThreadNode (hpcb heq)).symm.trans hn)
    · intro q pid' hq hpos
      rw [(hkids.pcb q).1]
      by_cases heq : q = p
      · subst heq
        have hself : (ProcessPc.waitYield pid).waiting = some pid' :=
          (congrArg ProcessPc.waiting (update_self ..)).symm.trans hq
        obtain rfl := Option.some.inj hself
        exact hkey hpos
      · exact h.keyed ((congrArg ProcessPc.waiting (hplace heq)).symm.trans hq) hpos
    · intro q c hc
      rw [(hkids.pcb c).2.2, (hkids.pcb q).2.2]
      exact h.own ((hkids.pcb c).2.1.symm.trans hc)

theorem Pending.waitEnter (h : Pending k) : Pending (k.waitEnter p pid) := by
  rw [Processes.waitEnter]
  split
  · exact h.keep (keepsPending_goto (by simp) (.inl rfl))
  next hcheck =>
    have hset := keepsPending_setWaiting (k := k) (p := p) (if 0 < pid then pid else (k.pcb p).id)
    refine (h.keep hset).waitRound fun hpos hnone => hcheck ⟨hpos, ?_⟩
    rwa [setPcb_self] at hnone

/-- A child that is put into the table satisfies its parent if it wakes it. -/
theorem Pending.exitParent {parent : Nat} (h : Pending k) (hf : FamilyInv k) (hp : k.pc p = .exitParent) :
    Pending ((k.exitParent p parent).goto p .exitThread) := by
  have hfields := exitParent_fields (k := k) (p := p) parent
  obtain ⟨-, -, hpc, -, -, -, -, hblocked⟩ := exitParent_rest (k := k) (p := p) parent
  have hkids := (keepsKids_exitParent (k := k) (p := p) parent).trans
    (keepsKids_goto (p := p) (x := .exitThread) (by simp))
  have hwaits : ∀ q, (((k.exitParent p parent).goto p .exitThread).pc q).waiting = (k.pc q).waiting := by
    intro q
    change (update (k.exitParent p parent).pc p .exitThread q).waiting = _
    rw [hpc]
    exact apply_place _ _ _ ProcessPc.waiting (by rw [hp]; rfl) q
  obtain ⟨-, -, hput⟩ := HashTable.put_spec (hf.tables.valid parent) (k.pcb p).id p
  refine ⟨?_, ?_, ?_, ?_⟩
  · intro q pid hq
    have hq' := (hwaits q).symm.trans hq
    change (k.exitParent p parent).blocked q = true ∨ Satisfies ((k.exitParent p parent).pcb q).exitChildren pid
    rw [hblocked, (hfields q).2.2.2.2.2.2]
    by_cases heq : q = parent
    · subst heq
      rw [if_pos rfl]
      have hmono : Satisfies (k.pcb q).exitChildren pid →
          Satisfies ((k.pcb q).exitChildren.put (k.pcb p).id p).2 pid := by
        rintro ⟨key, child, hget, hor⟩
        by_cases hkey : key = (k.pcb p).id
        · exact ⟨key, p, by rw [hput, hkey, update_self], hor⟩
        · exact ⟨key, child, by rw [hput, update_of_ne hkey, hget], hor⟩
      split_ifs with hn
      · refine .inr ⟨(k.pcb p).id, p, by rw [hput, update_self], ?_⟩
        by_contra hnot
        rw [not_or] at hnot
        have hpos : 0 < pid := Nat.pos_of_ne_zero hnot.1
        obtain ⟨-, hwait⟩ := hf.sleeps.looping hq'
        rw [if_pos hpos] at hwait
        rw [Notifies, hwait] at hn
        obtain ⟨c, hc, hid⟩ := (hf.kids.keys q pid).mp (h.keyed hq' hpos)
        rcases hn with hn | hn
        · exact hnot.2 hn.symm
        · exact h.own hc (hid.trans hn)
      · exact (h.served hq').imp_right hmono
    · rw [if_neg heq]
      have hold := h.served hq'
      split_ifs with hn
      · refine hold.imp_left fun hb => ?_
        cases hnode : (k.pcb parent).waitingThreadNode with
        | none => exact hb
        | some n =>
          have hn' : q ≠ n := fun hqn => heq (hqn.trans (h.nodes hnode))
          exact (update_of_ne hn' ..).trans hb
      · exact hold
  · intro q n hn
    exact h.nodes ((hfields q).2.2.2.2.2.1.symm.trans hn)
  · intro q pid hq hpos
    rw [(hkids.pcb q).1]
    exact h.keyed ((hwaits q).symm.trans hq) hpos
  · intro q c hc
    rw [(hkids.pcb c).2.2, (hkids.pcb q).2.2]
    exact h.own ((hkids.pcb c).2.1.symm.trans hc)

theorem Pending.advance (h : Pending k) (hf : FamilyInv k) (hstep : k.advance p = some k') : Pending k' := by
  rw [Processes.advance] at hstep
  cases hp : k.pc p with
  | unborn | user | gone =>
    rw [hp] at hstep
    cases hstep
  | forkCreate =>
    rw [hp] at hstep
    exact h.forkCreate hf hstep
  | forkAdd child =>
    rw [hp] at hstep
    obtain rfl := Option.some.inj hstep
    exact h.forkAdd hf hp
  | forkStart child =>
    rw [hp] at hstep
    obtain rfl := Option.some.inj hstep
    exact (h.keep (keepsPending_goto (by simp) (.inl rfl))).keep (keepsPending_goto (by simp) (.inl rfl))
  | waitEnter pid =>
    rw [hp] at hstep
    obtain rfl := Option.some.inj hstep
    exact h.waitEnter
  | waitYield pid =>
    rw [hp] at hstep
    obtain rfl := Option.some.inj hstep
    exact h.keep (keepsPending_goto (by simp) (.inr (by rw [hp]; rfl)))
  | waitAgain pid =>
    rw [hp] at hstep
    dsimp only at hstep
    split_ifs at hstep
    obtain rfl := Option.some.inj hstep
    exact h.waitRound fun hpos => h.keyed (by rw [hp]; rfl) hpos
  | reap child =>
    rw [hp] at hstep
    obtain rfl := Option.some.inj hstep
    have hgoto := h.keep (keepsPending_goto (p := p) (x := .user) (by simp) (.inl rfl))
    exact ⟨hgoto.served, hgoto.nodes, hgoto.keyed, hgoto.own⟩
  | exitOwn code =>
    rw [hp] at hstep
    obtain rfl := Option.some.inj hstep
    have hset := keepsKids_setPcb (k := k) (p := p) (x := { k.pcb p with
      exitCode := code, exited := true, exitChildren := (k.pcb p).exitChildren.destroy }) ⟨rfl, rfl, rfl⟩
    have hnode := setPcb_apply Pcb.waitingThreadNode k (p := p) { k.pcb p with
      exitCode := code, exited := true, exitChildren := (k.pcb p).exitChildren.destroy } rfl
    refine h.keep ⟨fun {q pid} hq => ?_, fun {q n} hn => .inr ((hnode q).symm.trans hn),
      hset.trans (keepsKids_goto (by simp))⟩
    have hne : q ≠ p := by
      rintro rfl
      simp [goto, ProcessPc.waiting] at hq
    refine ⟨(congrArg ProcessPc.waiting (update_of_ne hne ..)).symm.trans hq, id, ?_⟩
    exact congrArg (fun x => HashTable.get (Pcb.exitChildren x)) (setPcb_of_ne k _ hne)
  | exitParent =>
    rw [hp] at hstep
    obtain ⟨parent, -, rfl⟩ := Option.map_eq_some_iff.mp hstep
    exact h.exitParent hf hp
  | exitThread | exitRecord | exitSwitch =>
    rw [hp] at hstep
    obtain rfl := Option.some.inj hstep
    exact h.keep (keepsPending_goto (by simp) (.inl rfl))

theorem start_pending : Pending start := by
  refine ⟨fun hp => ?_, fun hn => (nomatch hn), fun hp => ?_, fun hc => (nomatch hc)⟩
  · rcases start_place _ with ⟨hpc, -⟩ | hpc <;> rw [hpc] at hp <;> cases hp
  · rcases start_place _ with ⟨hpc, -⟩ | hpc <;> rw [hpc] at hp <;> cases hp

end Processes

end LuckOS
