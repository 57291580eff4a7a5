import LuckOS.ProcessRuns

/-!
# The table of the children

`process_fork` puts every child into `children_processes`, and no function takes one out of
it. The keys are therefore the pids of all children that a process has ever forked, also of
those that it has collected, and the table is exact only if each of these pids has been
given to a new child of the process.
-/

namespace LuckOS

open Function Runs

namespace Processes

/-- The keys of `children_processes` are the pids of all children. -/
structure Kids (k : Processes) : Prop where
  valid : ∀ p, (k.pcb p).children.Valid
  keys : ∀ p key, (k.pcb p).children.get key ≠ none ↔ ∃ c, (k.pcb c).parent = some p ∧ (k.pcb c).id = key
  orphan : ∀ {p c}, k.pc p = .forkAdd c → (k.pcb c).parent = none
  fresh : ∀ {c}, k.created ≤ c → (k.pcb c).parent = none

variable {k k' : Processes} {p c pid : Nat}

/-- A step outside of `process_fork`. -/
structure KeepsKids (k k' : Processes) : Prop where
  pcb : ∀ q, (k'.pcb q).children = (k.pcb q).children ∧ (k'.pcb q).parent = (k.pcb q).parent ∧
    (k'.pcb q).id = (k.pcb q).id
  created : k'.created = k.created
  forks : ∀ {q c}, k'.pc q = .forkAdd c → k.pc q = .forkAdd c

theorem Kids.keep (h : Kids k) (hkeep : KeepsKids k k') : Kids k' := by
  refine ⟨fun q => ?_, fun q key => ?_, fun hq => ?_, fun hc => ?_⟩
  · rw [(hkeep.pcb q).1]
    exact h.valid q
  · rw [(hkeep.pcb q).1, h.keys]
    refine exists_congr fun c => ?_
    rw [(hkeep.pcb c).2.1, (hkeep.pcb c).2.2]
  · rw [(hkeep.pcb _).2.1]
    exact h.orphan (hkeep.forks hq)
  · rw [(hkeep.pcb _).2.1]
    exact h.fresh (hkeep.created ▸ hc)

theorem forks_of_update {places : Nat → ProcessPc} {pc : ProcessPc} (hpc : ∀ c, pc ≠ .forkAdd c) {q c : Nat}
    (h : update places p pc q = .forkAdd c) : places q = .forkAdd c := by
  by_cases hq : q = p
  · rw [hq, update_self] at h
    exact absurd h (hpc c)
  · rwa [update_of_ne hq] at h

theorem keepsKids_goto {x : ProcessPc} (hx : ∀ c, x ≠ .forkAdd c) : KeepsKids k (k.goto p x) :=
  ⟨fun _ => ⟨rfl, rfl, rfl⟩, rfl, forks_of_update hx⟩

/-- The fields of a process other than its children change. -/
theorem keepsKids_setPcb {x : Pcb} (hx : x.children = (k.pcb p).children ∧ x.parent = (k.pcb p).parent ∧ x.id = (k.pcb p).id) :
    KeepsKids k (k.setPcb p x) := by
  exact ⟨fun q => ⟨setPcb_apply Pcb.children k x hx.1 q, setPcb_apply Pcb.parent k x hx.2.1 q,
    setPcb_apply Pcb.id k x hx.2.2 q⟩, rfl, id⟩

theorem KeepsKids.trans {k'' : Processes} (h : KeepsKids k k') (h' : KeepsKids k' k'') : KeepsKids k k'' where
  pcb := fun q => ⟨(h'.pcb q).1.trans (h.pcb q).1, (h'.pcb q).2.1.trans (h.pcb q).2.1, (h'.pcb q).2.2.trans (h.pcb q).2.2⟩
  created := h'.created.trans h.created
  forks := fun hq => h.forks (h'.forks hq)

theorem keepsKids_wake (n : Option Nat) : KeepsKids k (k.wake n) := by
  cases n with
  | none => exact ⟨fun _ => ⟨rfl, rfl, rfl⟩, rfl, id⟩
  | some n => exact ⟨fun _ => ⟨rfl, rfl, rfl⟩, rfl, id⟩

theorem keepsKids_waitRound (pid : Nat) : KeepsKids k (k.waitRound p pid) := by
  rw [waitRound]
  split
  next child exitChildren _ =>
    have hset := keepsKids_setPcb (k := k) (p := p) (x := { k.pcb p with exitChildren := exitChildren }) ⟨rfl, rfl, rfl⟩
    have hgoto := hset.trans (keepsKids_goto (p := p) (x := .reap child) (by simp))
    exact ⟨hgoto.pcb, hgoto.created, hgoto.forks⟩
  next exitChildren _ =>
    have hset := keepsKids_setPcb (k := k) (p := p)
      (x := { k.pcb p with exitChildren := exitChildren, waitingThreadNode := some p }) ⟨rfl, rfl, rfl⟩
    have hgoto := hset.trans (keepsKids_goto (p := p) (x := .waitYield pid) (by simp))
    exact ⟨hgoto.pcb, hgoto.created, hgoto.forks⟩

theorem keepsKids_waitEnter : KeepsKids k (k.waitEnter p pid) := by
  rw [waitEnter]
  split
  · exact keepsKids_goto (by simp)
  · have hset := keepsKids_setPcb (k := k) (p := p)
      (x := { k.pcb p with waitingChildPid := if 0 < pid then pid else (k.pcb p).id }) ⟨rfl, rfl, rfl⟩
    exact hset.trans (keepsKids_waitRound _)

theorem keepsKids_exitParent (parent : Nat) : KeepsKids k (k.exitParent p parent) := by
  have hset := keepsKids_setPcb (k := k) (p := parent) (x := { k.pcb parent with
    exitChildren := ((k.pcb parent).exitChildren.put (k.pcb p).id p).2 }) ⟨rfl, rfl, rfl⟩
  simp only [exitParent]
  split_ifs
  · exact hset.trans (keepsKids_wake _)
  · exact hset

theorem Kids.forkCreate (h : Kids k) (hl : Lives k) (hstep : k.forkCreate p = some k') : Kids k' := by
  obtain ⟨⟨id, pool⟩, -, rfl⟩ := Option.map_eq_some_iff.mp hstep
  have hparent : ∀ c, (update k.pcb k.created (newPcb id) c).parent = (k.pcb c).parent := by
    intro c
    by_cases hc : c = k.created
    · rw [hc, update_self, h.fresh (Nat.le_refl _)]
      rfl
    · rw [update_of_ne hc]
  refine ⟨fun q => ?_, fun q key => ?_, fun {q c} hq => ?_, fun {c} hc => ?_⟩
  · change (update k.pcb k.created (newPcb id) q).children.Valid
    by_cases hq : q = k.created
    · rw [hq, update_self]
      exact HashTable.init_valid
    · rw [update_of_ne hq]
      exact h.valid q
  · change (update k.pcb k.created (newPcb id) q).children.get key ≠ none ↔
      ∃ c, (update k.pcb k.created (newPcb id) c).parent = some q ∧ (update k.pcb k.created (newPcb id) c).id = key
    have hids : ∀ c, (k.pcb c).parent = some q →
        (update k.pcb k.created (newPcb id) c).id = (k.pcb c).id := by
      intro c hc
      rw [update_of_ne]
      rintro rfl
      rw [h.fresh (Nat.le_refl _)] at hc
      cases hc
    by_cases hq : q = k.created
    · subst hq
      rw [update_self]
      refine iff_of_false (fun hne => hne HashTable.get_init) ?_
      rintro ⟨c, hc, -⟩
      rw [hparent] at hc
      exact Nat.lt_irrefl _ (hl.parents hc)
    · rw [update_of_ne hq, h.keys]
      refine exists_congr fun c => ?_
      rw [hparent]
      exact and_congr_right fun hc => by rw [hids c hc]
  · change (update k.pcb k.created (newPcb id) c).parent = none
    rw [hparent]
    change update k.pc p (.forkAdd k.created) q = .forkAdd c at hq
    by_cases heq : q = p
    · rw [heq, update_self] at hq
      rw [← ProcessPc.forkAdd.inj hq]
      exact h.fresh (Nat.le_refl _)
    · rw [update_of_ne heq] at hq
      exact h.orphan hq
  · change (update k.pcb k.created (newPcb id) c).parent = none
    rw [hparent]
    exact h.fresh (Nat.le_of_succ_le hc)

theorem addChild_children (hne : c ≠ p) (q : Nat) : ((k.addChild p c).pcb q).children =
    if q = p then ((k.pcb p).children.put (k.pcb c).id c).2 else (k.pcb q).children := by
  have hp : (k.setPcb c { k.pcb c with parent := some p }).pcb p = k.pcb p := setPcb_of_ne _ _ hne.symm
  rw [addChild]
  dsimp only
  split_ifs with hq
  · rw [hq, setPcb_self, hp, setPcb_self]
  · rw [setPcb_of_ne _ _ hq]
    by_cases hc : q = c
    · rw [hc, setPcb_self]
    · rw [setPcb_of_ne _ _ hc]

theorem Kids.forkAdd (h : Kids k) (hl : Lives k) (hp : k.pc p = .forkAdd c) :
    Kids ((k.addChild p c).goto p (.forkStart c)) := by
  have hforking : (k.pc p).forking = some c := by rw [hp]; rfl
  obtain ⟨hlt, -, hunborn⟩ := hl.newborn hforking
  have hne : c ≠ p := by
    rintro rfl
    rw [hunborn] at hp
    cases hp
  have hfields := addChild_fields (k := k) hne
  have hchildren := addChild_children (k := k) hne
  have hnone := h.orphan hp
  obtain ⟨hvalid, -, hput⟩ := HashTable.put_spec (h.valid p) (k.pcb c).id c
  refine ⟨fun q => ?_, fun q key => ?_, fun {q d} hq => ?_, fun {d} hd => ?_⟩
  · change ((k.addChild p c).pcb q).children.Valid
    rw [hchildren]
    split_ifs
    · exact hvalid
    · exact h.valid q
  · change ((k.addChild p c).pcb q).children.get key ≠ none ↔
      ∃ d, ((k.addChild p c).pcb d).parent = some q ∧ ((k.addChild p c).pcb d).id = key
    have hchild : (∃ d, ((k.addChild p c).pcb d).parent = some q ∧ ((k.addChild p c).pcb d).id = key) ↔
        q = p ∧ key = (k.pcb c).id ∨ ∃ d, (k.pcb d).parent = some q ∧ (k.pcb d).id = key := by
      constructor
      · rintro ⟨d, hd, hid⟩
        rw [(hfields d).1] at hid
        rw [(hfields d).2.2.2.2.2.2] at hd
        split_ifs at hd with heq
        · subst heq
          exact .inl ⟨(Option.some.inj hd).symm, hid.symm⟩
        · exact .inr ⟨d, hd, hid⟩
      · rintro (⟨rfl, rfl⟩ | ⟨d, hd, hid⟩)
        · exact ⟨c, by rw [(hfields c).2.2.2.2.2.2, if_pos rfl], (hfields c).1⟩
        · refine ⟨d, ?_, (hfields d).1.trans hid⟩
          rw [(hfields d).2.2.2.2.2.2, if_neg]
          · exact hd
          · rintro rfl
            rw [hnone] at hd
            cases hd
    rw [hchild, hchildren]
    split_ifs with hq
    · subst hq
      rw [hput]
      by_cases hkey : key = (k.pcb c).id
      · rw [hkey, update_self]
        simp
      · rw [update_of_ne hkey, h.keys]
        simp [hkey]
    · rw [h.keys]
      simp [hq]
  · have hold : k.pc q = .forkAdd d := forks_of_update (by simp) hq
    have hqp : q ≠ p := by
      rintro rfl
      simp [Processes.goto] at hq
    change ((k.addChild p c).pcb d).parent = none
    rw [(hfields d).2.2.2.2.2.2, if_neg]
    · exact h.orphan hold
    · rintro rfl
      exact hqp (hl.newbornOnce (by rw [hold]; rfl) hforking)
  · change ((k.addChild p c).pcb d).parent = none
    rw [(hfields d).2.2.2.2.2.2, if_neg]
    · exact h.fresh hd
    · rintro rfl
      exact Nat.lt_irrefl _ (Nat.lt_of_lt_of_le hlt hd)

theorem Kids.advance (h : Kids k) (hl : Lives k) (hstep : k.advance p = some k') : Kids k' := by
  rw [Processes.advance] at hstep
  cases hp : k.pc p with
  | unborn | user | gone =>
    rw [hp] at hstep
    cases hstep
  | forkCreate =>
    rw [hp] at hstep
    exact h.forkCreate hl hstep
  | forkAdd child =>
    rw [hp] at hstep
    obtain rfl := Option.some.inj hstep
    exact h.forkAdd hl hp
  | forkStart child =>
    rw [hp] at hstep
    obtain rfl := Option.some.inj hstep
    exact h.keep ((keepsKids_goto (by simp)).trans (keepsKids_goto (by simp)))
  | waitEnter pid =>
    rw [hp] at hstep
    obtain rfl := Option.some.inj hstep
    exact h.keep keepsKids_waitEnter
  | waitYield pid =>
    rw [hp] at hstep
    obtain rfl := Option.some.inj hstep
    exact h.keep (keepsKids_goto (by simp))
  | waitAgain pid =>
    rw [hp] at hstep
    dsimp only at hstep
    split_ifs at hstep
    obtain rfl := Option.some.inj hstep
    exact h.keep (keepsKids_waitRound _)
  | reap child =>
    rw [hp] at hstep
    obtain rfl := Option.some.inj hstep
    exact h.keep ⟨fun _ => ⟨rfl, rfl, rfl⟩, rfl, forks_of_update (by simp)⟩
  | exitOwn code =>
    rw [hp] at hstep
    obtain rfl := Option.some.inj hstep
    have hset := keepsKids_setPcb (k := k) (p := p) (x := { k.pcb p with
      exitCode := code, exited := true, exitChildren := (k.pcb p).exitChildren.destroy }) ⟨rfl, rfl, rfl⟩
    exact h.keep (hset.trans (keepsKids_goto (by simp)))
  | exitParent =>
    rw [hp] at hstep
    obtain ⟨parent, -, rfl⟩ := Option.map_eq_some_iff.mp hstep
    exact h.keep ((keepsKids_exitParent _).trans (keepsKids_goto (by simp)))
  | exitThread | exitRecord | exitSwitch =>
    rw [hp] at hstep
    obtain rfl := Option.some.inj hstep
    exact h.keep (keepsKids_goto (by simp))

theorem Kids.step {a : Action} (h : Kids k) (hl : Lives k) (hstep : k.step a = some k') : Kids k' := by
  cases a with
  | call p f =>
    rw [Processes.step] at hstep
    split_ifs at hstep
    obtain rfl := Option.some.inj hstep
    cases f with
    | fork => exact h.keep (keepsKids_goto (by simp [ProcessCall.entry]))
    | wait pid => exact h.keep (keepsKids_goto (by simp [ProcessCall.entry]))
    | exit code => exact h.keep ⟨fun _ => ⟨rfl, rfl, rfl⟩, rfl, forks_of_update (by simp [ProcessCall.entry])⟩
  | advance p => exact h.advance hl hstep
  | destroy p =>
    rw [Processes.step] at hstep
    split_ifs at hstep
    obtain rfl := Option.some.inj hstep
    exact h.keep ⟨fun _ => ⟨rfl, rfl, rfl⟩, rfl, id⟩
  | wake p =>
    obtain rfl := Option.some.inj hstep
    exact h.keep (keepsKids_wake _)

theorem start_kids : Kids start := by
  refine ⟨fun _ => HashTable.init_valid, fun p key => ?_, fun hp => ?_, fun _ => rfl⟩
  · refine iff_of_false (fun hne => hne HashTable.get_init) ?_
    rintro ⟨c, hc, -⟩
    cases hc
  · rcases start_place _ with ⟨hpc, -⟩ | hpc <;> rw [hpc] at hp <;> cases hp

/-- Both invariants. -/
structure FamilyInv (k : Processes) : Prop extends ProcessInv k where
  kids : Kids k

theorem FamilyInv.step {a : Action} (h : FamilyInv k) (hstep : k.step a = some k') : FamilyInv k' :=
  ⟨h.toProcessInv.step hstep, h.kids.step h.lives hstep⟩

theorem familyInv_of_run {as : List Action} (hrun : Run (Steps step) start as k) : FamilyInv k :=
  hrun.invariant (fun h hstep => h.step hstep) ⟨start_inv, start_kids⟩

/-- A child that the process has forked and not collected. -/
def Uncollected (k : Processes) (p c : Nat) : Prop := (k.pcb c).parent = some p ∧ c ∉ k.collected

/-- The keys of `children_processes` are the pids of the uncollected children, and
`process_wait` fails at once for every other pid. -/
structure ChildrenExact (k : Processes) (p : Nat) : Prop where
  keys : ∀ pid, (k.pcb p).children.get pid ≠ none ↔ ∃ c, Uncollected k p c ∧ (k.pcb c).id = pid
  refuses : ∀ pid, 0 < pid → (¬ ∃ c, Uncollected k p c ∧ (k.pcb c).id = pid) → k.waitEnter p pid = k.goto p .user

/-- The table of a process is exact if and only if the pid of each child that it has collected
belongs to a child again that it has not. -/
theorem children_exact_iff {as : List Action} (hrun : Run (Steps step) start as k) (p : Nat) :
    ChildrenExact k p ↔
      ∀ c, (k.pcb c).parent = some p → c ∈ k.collected → ∃ d, Uncollected k p d ∧ (k.pcb d).id = (k.pcb c).id := by
  have hkids := (familyInv_of_run hrun).kids
  constructor
  · intro h c hc _
    exact (h.keys _).mp ((hkids.keys p _).mpr ⟨c, hc, rfl⟩)
  · intro h
    have hkeys : ∀ pid, (k.pcb p).children.get pid ≠ none ↔ ∃ c, Uncollected k p c ∧ (k.pcb c).id = pid := by
      intro pid
      rw [hkids.keys]
      constructor
      · rintro ⟨c, hc, rfl⟩
        by_cases hcol : c ∈ k.collected
        · exact h c hc hcol
        · exact ⟨c, ⟨hc, hcol⟩, rfl⟩
      · rintro ⟨c, hc, rfl⟩
        exact ⟨c, hc.1, rfl⟩
    refine ⟨hkeys, fun pid hpos hnone => ?_⟩
    have hget : (k.pcb p).children.get pid = none := by
      by_contra hne
      exact hnone ((hkeys pid).mp hne)
    rw [waitEnter, if_pos ⟨hpos, hget⟩]

theorem sample_children_exact :
    ∃ k, Run (Steps step) start (sampleWait.take 4) k ∧ (k.pcb 2).parent = some 1 ∧ ChildrenExact k 1 := by
  have hcheck : (execute step start (sampleWait.take 4)).any
      (fun k => decide ((k.pcb 2).parent = some 1 ∧ k.collected = [])) = true := by decide +kernel
  rw [Option.any_eq_true] at hcheck
  obtain ⟨k, hk, hstate⟩ := hcheck
  obtain ⟨hparent, hcol⟩ := of_decide_eq_true hstate
  refine ⟨k, run_of_execute hk, hparent, (children_exact_iff (run_of_execute hk) 1).mpr fun c _ hc => ?_⟩
  rw [hcol] at hc
  cases hc

/-- A child that has been collected is still in the table, and a second `process_wait` for its
pid sleeps. -/
theorem sample_children_not_exact : ∃ as k, Run (Steps step) start as k ∧ Alive k 1 ∧ ¬ ChildrenExact k 1 := by
  have hcheck : (execute step start sampleWait).any (fun k => decide ((k.pcb 1).exited = false ∧ (k.pcb 2).id = 2 ∧
      2 ∈ k.collected ∧ k.destroyed 2 = false ∧ (k.pcb 1).children.get 2 ≠ none)) = true := by decide +kernel
  rw [Option.any_eq_true] at hcheck
  obtain ⟨k, hk, hstate⟩ := hcheck
  obtain ⟨halive, hid, hcol, hdestroyed, hget⟩ := of_decide_eq_true hstate
  have hinv := familyInv_of_run (run_of_execute hk)
  refine ⟨_, k, run_of_execute hk, halive, fun hexact => ?_⟩
  obtain ⟨c, ⟨hparent, huncol⟩, hc⟩ := (hexact.keys 2).mp hget
  have hlt : c < k.created := by
    by_contra hge
    rw [hinv.kids.fresh (Nat.le_of_not_lt hge)] at hparent
    cases hparent
  have hlt' : 2 < k.created := hinv.lives.created_of_delivered (hinv.lives.ends hcol)
  have heq := hinv.lives.ids hlt hlt' (hinv.lives.undestroyed huncol) hdestroyed (hc.trans hid.symm)
  exact huncol (heq ▸ hcol)

end Processes

end LuckOS
