import LuckOS.ProcessChildren

/-!
# Pointers to processes

A process is pointed to by its children, by `processes_map`, and by the tables of its parent. Its
struct is freed by `destroy_process`, or by the destruction of the table of exited children when the
parent exits.
-/

namespace LuckOS

open Function Runs

/-- The next step is the section of `process_exit` under the lock of the process. -/
def ProcessPc.exits : ProcessPc → Bool
  | exitOwn _ => true
  | _ => false

/-- The processes with `processes_map` and the freed structs. -/
structure ProcessPointers where
  procs : Processes
  processesMap : HashTable Nat
  freed : Nat → Bool

namespace ProcessPointers

/-- The main process and the first process. -/
def start : ProcessPointers where
  procs := .start
  processesMap := ((HashTable.init.put 0 0).2.put 1 1).2
  freed := fun _ => false

/-- `add_new_process`. -/
def addNewProcess (procs : Processes) (p : Nat) (processesMap : HashTable Nat) : HashTable Nat :=
  (processesMap.put (procs.pcb p).id p).2

/-- `processes_map` after a step. `create_process` and `process_fork` add the new process. -/
def nextMap (k : ProcessPointers) (a : Processes.Action) (procs : Processes) : HashTable Nat :=
  match a with
  | .advance p =>
    if k.procs.pc p = .forkCreate then
      addNewProcess procs k.procs.created (addNewProcess procs k.procs.created k.processesMap)
    else k.processesMap
  | _ => k.processesMap

/-- `hash_table_destroy` of the exited children frees them, and `destroy_process` frees its argument. -/
def nextFreed (k : ProcessPointers) (a : Processes.Action) : Nat → Bool :=
  match a with
  | .advance p =>
    match k.procs.pc p with
    | .exitOwn _ => fun c => k.freed c || (k.procs.pcb p).exitChildren.entries.any (·.2 == c)
    | _ => k.freed
  | .destroy p => update k.freed p true
  | _ => k.freed

def step (k : ProcessPointers) (a : Processes.Action) : Option ProcessPointers :=
  (k.procs.step a).map fun procs => ⟨procs, k.nextMap a procs, k.nextFreed a⟩

/-- Pointers to processes are to structs that are not freed, and a process that is about to be added to the
exited children of its parent has a parent with this table. -/
structure NoDangling (k : ProcessPointers) : Prop where
  parent : ∀ p < k.procs.created, (k.procs.pcb p).exited = false → ∀ q, (k.procs.pcb p).parent = some q → k.freed q = false
  map : ∀ id q, k.processesMap.get id = some q → k.freed q = false
  children : ∀ p < k.procs.created, k.freed p = false → ∀ id q, (k.procs.pcb p).children.get id = some q → k.freed q = false
  exitChildren : ∀ p < k.procs.created, k.freed p = false → ∀ id q, (k.procs.pcb p).exitChildren.get id = some q →
    k.freed q = false
  inserts : ∀ p, k.procs.pc p = .exitParent → ∃ q, (k.procs.pcb p).parent = some q ∧ (k.procs.pcb q).exited = false

/-- A process has a parent that has not exited, none of its exited children is left, and no child of it is between the
two sections of `process_exit`. -/
def MayExit (k : Processes) (p : Nat) : Prop :=
  (∃ q ∈ (k.pcb p).parent, (k.pcb q).exited = false) ∧ (k.pcb p).exitChildren.size = 0 ∧
    ∀ c < k.created, (k.pcb c).parent = some p → k.pc c ≠ .exitParent

/-- No process is destroyed, and a process exits only if it may. -/
def Permits (k : ProcessPointers) (a : Processes.Action) : Prop :=
  match a with
  | .destroy _ => False
  | .advance p => (k.procs.pc p).exits = true → MayExit k.procs p
  | _ => True

instance (k : Processes) (p : Nat) : Decidable (MayExit k p) := inferInstanceAs (Decidable (_ ∧ _ ∧ _))

instance (k : ProcessPointers) (a : Processes.Action) : Decidable (Permits k a) :=
  match a with
  | .destroy _ => inferInstanceAs (Decidable False)
  | .advance _ => inferInstanceAs (Decidable (_ → _))
  | .call .. | .wake _ => inferInstanceAs (Decidable True)

end ProcessPointers

/-! ## Steps of the processes -/

namespace Processes

variable {k k' k'' : Processes} {p q c pid : Nat} {pc : ProcessPc} {x : Pcb}

/-- The pids and the parents stay as they are, and no process exits or is destroyed. -/
structure KeepsParents (k k' : Processes) : Prop where
  created : k'.created = k.created
  id : ∀ q, (k'.pcb q).id = (k.pcb q).id
  parent : ∀ {q r}, (k.pcb q).parent = some r → (k'.pcb q).parent = some r
  other : ∀ {q r}, (k'.pcb q).parent = some r → (k.pcb q).parent = some r ∨ r ≠ q
  exited : ∀ q, (k'.pcb q).exited = (k.pcb q).exited
  exiting : ∀ {q}, k'.pc q = .exitParent → k.pc q = .exitParent
  destroyed : k'.destroyed = k.destroyed

theorem KeepsParents.trans (h : KeepsParents k k') (h' : KeepsParents k' k'') : KeepsParents k k'' where
  created := h'.created.trans h.created
  id := fun q => (h'.id q).trans (h.id q)
  parent := fun hq => h'.parent (h.parent hq)
  other := fun hq => (h'.other hq).elim h.other .inr
  exited := fun q => (h'.exited q).trans (h.exited q)
  exiting := fun hq => h.exiting (h'.exiting hq)
  destroyed := h'.destroyed.trans h.destroyed

/-- Only other fields than the pcbs and the places change. -/
theorem keepsParents_of_eq (hpcb : k'.pcb = k.pcb) (hcreated : k'.created = k.created) (hpc : k'.pc = k.pc)
    (hdestroyed : k'.destroyed = k.destroyed) : KeepsParents k k' where
  created := hcreated
  id := fun q => by rw [hpcb]
  parent := fun hq => by rwa [hpcb]
  other := fun hq => .inl (by rwa [hpcb] at hq)
  exited := fun q => by rw [hpcb]
  exiting := fun hq => by rwa [hpc] at hq
  destroyed := hdestroyed

theorem keepsParents_goto (p : Nat) (pc : ProcessPc) (hpc : pc ≠ .exitParent) : KeepsParents k (k.goto p pc) where
  created := rfl
  id := fun _ => rfl
  parent := id
  other := .inl
  exited := fun _ => rfl
  destroyed := rfl
  exiting := by
    intro q hq
    change update k.pc p pc q = .exitParent at hq
    by_cases hqp : q = p
    · rw [hqp, update_self] at hq
      exact absurd hq hpc
    · rwa [update_of_ne hqp] at hq

theorem keepsParents_setPcb (hid : x.id = (k.pcb p).id) (hparent : x.parent = (k.pcb p).parent)
    (hexited : x.exited = (k.pcb p).exited) : KeepsParents k (k.setPcb p x) where
  created := rfl
  destroyed := rfl
  id := fun q => setPcb_apply Pcb.id k x hid q
  parent := fun {q _} hq => (setPcb_apply Pcb.parent k x hparent q).trans hq
  other := fun {q _} hq => .inl ((setPcb_apply Pcb.parent k x hparent q).symm.trans hq)
  exited := fun q => setPcb_apply Pcb.exited k x hexited q
  exiting := id

theorem keepsParents_wake (n : Option Nat) : KeepsParents k (k.wake n) := by
  cases n <;> exact keepsParents_of_eq rfl rfl rfl rfl

theorem keepsParents_waitRound (pid : Nat) : KeepsParents k (k.waitRound p pid) := by
  rw [waitRound]
  split
  next child exitChildren _ =>
    have hset : KeepsParents k (k.setPcb p { k.pcb p with exitChildren := exitChildren }) := keepsParents_setPcb rfl rfl rfl
    have hgoto := hset.trans (keepsParents_goto p (.reap child) (by simp))
    exact hgoto.trans (keepsParents_of_eq rfl rfl rfl rfl)
  next exitChildren _ =>
    have hset : KeepsParents k (k.setPcb p { k.pcb p with exitChildren := exitChildren, waitingThreadNode := some p }) :=
      keepsParents_setPcb rfl rfl rfl
    have hgoto := hset.trans (keepsParents_goto p (.waitYield pid) (by simp))
    exact hgoto.trans (keepsParents_of_eq rfl rfl rfl rfl)

theorem keepsParents_waitEnter : KeepsParents k (k.waitEnter p pid) := by
  rw [waitEnter]
  split
  · exact keepsParents_goto _ _ (by simp)
  · have hset : KeepsParents k (k.setPcb p { k.pcb p with waitingChildPid := if 0 < pid then pid else (k.pcb p).id }) :=
      keepsParents_setPcb rfl rfl rfl
    exact hset.trans (keepsParents_waitRound _)

theorem keepsParents_exitParent (parent : Nat) : KeepsParents k (k.exitParent p parent) := by
  have hset : KeepsParents k (k.setPcb parent { k.pcb parent with
      exitChildren := ((k.pcb parent).exitChildren.put (k.pcb p).id p).2 }) := keepsParents_setPcb rfl rfl rfl
  simp only [exitParent]
  split_ifs
  · exact hset.trans (keepsParents_wake _)
  · exact hset

/-- A new process gets another process as its parent. -/
theorem keepsParents_addChild (hf : FamilyInv k) (hp : k.pc p = .forkAdd c) : KeepsParents k (k.addChild p c) := by
  have hborn := (hf.lives.newborn (p := p) (c := c) (by rw [hp]; rfl)).2.2
  have hne : c ≠ p := fun heq => by simp [heq, hp] at hborn
  have hfields := addChild_fields (k := k) hne
  refine ⟨rfl, fun q => (hfields q).1, fun {q r} hq => ?_, fun {q r} hq => ?_, fun q => (hfields q).2.1, id, rfl⟩
  · rw [(hfields q).2.2.2.2.2.2, if_neg, hq]
    rintro rfl
    rw [hf.kids.orphan hp] at hq
    cases hq
  · rw [(hfields q).2.2.2.2.2.2] at hq
    split_ifs at hq with hqc
    · obtain rfl := Option.some.inj hq
      exact .inr (hqc ▸ hne.symm)
    · exact .inl hq

/-- No process is created or destroyed or begins to exit. -/
def Plain (k : Processes) (a : Action) : Prop :=
  match a with
  | .advance p => k.pc p ≠ .forkCreate ∧ ∀ code, k.pc p ≠ .exitOwn code
  | .destroy _ => False
  | _ => True

theorem keepsParents_advance (hf : FamilyInv k) (hplain : Plain k (.advance p)) (hstep : k.advance p = some k') :
    KeepsParents k k' := by
  rw [Processes.advance] at hstep
  cases hp : k.pc p with
  | unborn | user | gone =>
    rw [hp] at hstep
    cases hstep
  | forkCreate => exact absurd hp hplain.1
  | forkAdd child =>
    rw [hp] at hstep
    obtain rfl := Option.some.inj hstep
    exact (keepsParents_addChild hf hp).trans (keepsParents_goto _ _ (by simp))
  | forkStart child =>
    rw [hp] at hstep
    obtain rfl := Option.some.inj hstep
    exact (keepsParents_goto _ _ (by simp)).trans (keepsParents_goto _ _ (by simp))
  | waitEnter pid =>
    rw [hp] at hstep
    obtain rfl := Option.some.inj hstep
    exact keepsParents_waitEnter
  | waitYield pid =>
    rw [hp] at hstep
    obtain rfl := Option.some.inj hstep
    exact keepsParents_goto _ _ (by simp)
  | waitAgain pid =>
    rw [hp] at hstep
    dsimp only at hstep
    split_ifs at hstep
    obtain rfl := Option.some.inj hstep
    exact keepsParents_waitRound _
  | reap child =>
    rw [hp] at hstep
    obtain rfl := Option.some.inj hstep
    exact (keepsParents_goto _ _ (by simp)).trans (keepsParents_of_eq rfl rfl rfl rfl)
  | exitOwn code => exact absurd hp (hplain.2 code)
  | exitParent =>
    rw [hp] at hstep
    obtain ⟨parent, -, rfl⟩ := Option.map_eq_some_iff.mp hstep
    exact (keepsParents_exitParent _).trans (keepsParents_goto _ _ (by simp))
  | exitThread | exitRecord | exitSwitch =>
    rw [hp] at hstep
    obtain rfl := Option.some.inj hstep
    exact keepsParents_goto _ _ (by simp)

theorem keepsParents_step {a : Action} (hf : FamilyInv k) (hplain : Plain k a) (hstep : k.step a = some k') : KeepsParents k k' := by
  cases a with
  | call p f =>
    rw [Processes.step] at hstep
    split_ifs at hstep
    obtain rfl := Option.some.inj hstep
    cases f with
    | fork => exact keepsParents_goto _ _ (by simp [ProcessCall.entry])
    | wait pid => exact keepsParents_goto _ _ (by simp [ProcessCall.entry])
    | exit code =>
      exact (keepsParents_goto p (.exitOwn code) (by simp)).trans (keepsParents_of_eq rfl rfl rfl rfl)
  | advance p => exact keepsParents_advance hf hplain hstep
  | destroy p => cases hplain
  | wake p =>
    obtain rfl := Option.some.inj hstep
    exact keepsParents_wake _

end Processes

/-! ## Pointers -/

namespace ProcessPointers

variable {k k' : ProcessPointers} {a : Processes.Action} {p : Nat}

/-- No process is freed yet, and `processes_map` has all of them. -/
structure Inv (k : ProcessPointers) : Prop where
  family : Processes.FamilyInv k.procs
  valid : k.processesMap.Valid
  freed : ∀ p, k.freed p = false
  destroyed : ∀ p, k.procs.destroyed p = false
  mapped : ∀ p < k.procs.created, k.processesMap.get (k.procs.pcb p).id = some p
  other : ∀ {p q}, (k.procs.pcb p).parent = some q → q ≠ p
  inserts : ∀ p, k.procs.pc p = .exitParent → ∃ q, (k.procs.pcb p).parent = some q ∧ (k.procs.pcb q).exited = false

theorem Inv.noDangling (h : Inv k) : NoDangling k where
  parent := fun _ _ _ q _ => h.freed q
  map := fun _ q _ => h.freed q
  children := fun _ _ _ _ q _ => h.freed q
  exitChildren := fun _ _ _ _ q _ => h.freed q
  inserts := h.inserts

theorem start_inv : Inv start := by
  have hput : ∀ {table : HashTable Nat} {p : Nat}, table.Valid → (table.put p p).2.Valid ∧
      (table.put p p).2.get = update table.get p (some p) := fun hvalid =>
    ⟨(HashTable.put_spec hvalid _ _).1, (HashTable.put_spec hvalid _ _).2.2⟩
  have hinit : (HashTable.init : HashTable Nat).Valid := HashTable.init_valid
  have hget : start.processesMap.get = update (update HashTable.init.get 0 (some 0)) 1 (some 1) := by
    rw [← (hput hinit).2]
    exact (hput (hput hinit).1).2
  constructor
  case family => exact ⟨Processes.start_inv, Processes.start_kids⟩
  case valid => exact (hput (hput hinit).1).1
  case freed => exact fun _ => rfl
  case destroyed => exact fun _ => rfl
  case mapped =>
    intro p hp
    have hlt : p < 2 := hp
    have hcases : p = 0 ∨ p = 1 := by omega
    rw [hget]
    rcases hcases with rfl | rfl <;> rfl
  case other => nofun
  case inserts =>
    intro p hp
    rcases Processes.start_place p with ⟨hpc, -⟩ | hpc <;> rw [start, hpc] at hp <;> cases hp

/-- A step of the processes with its effect on the map and on the structs. -/
theorem procs_step (hstep : step k a = some k') : k.procs.step a = some k'.procs ∧ k'.processesMap = k.nextMap a k'.procs ∧
    k'.freed = k.nextFreed a := by
  obtain ⟨procs, hprocs, rfl⟩ := Option.map_eq_some_iff.mp hstep
  exact ⟨hprocs, rfl, rfl⟩

/-- A step that creates, destroys and exits no process. -/
theorem Inv.plain (h : Inv k) (hplain : Processes.Plain k.procs a) (hstep : step k a = some k') : Inv k' := by
  obtain ⟨hprocs, hmap, hfreed⟩ := procs_step hstep
  have hkeeps := Processes.keepsParents_step h.family hplain hprocs
  have hmap' : k'.processesMap = k.processesMap := by
    rw [hmap]
    cases a with
    | advance p => exact if_neg hplain.1
    | call | wake | destroy => rfl
  have hfreed' : k'.freed = k.freed := by
    rw [hfreed]
    cases a with
    | advance p =>
      rw [nextFreed]
      split
      next code hpc => exact absurd hpc (hplain.2 code)
      next => rfl
    | destroy => cases hplain
    | call | wake => rfl
  constructor
  case family => exact h.family.step hprocs
  case valid => exact hmap' ▸ h.valid
  case freed => exact hfreed' ▸ h.freed
  case destroyed => exact hkeeps.destroyed ▸ h.destroyed
  case mapped =>
    intro p hp
    rw [hmap', hkeeps.id]
    exact h.mapped p (hkeeps.created ▸ hp)
  case other =>
    intro p q hp
    exact (hkeeps.other hp).elim h.other id
  case inserts =>
    intro p hp
    obtain ⟨q, hparent, hexited⟩ := h.inserts p (hkeeps.exiting hp)
    exact ⟨q, hkeeps.parent hparent, (hkeeps.exited q).trans hexited⟩

/-- `create_process` gives the new process an id that no other process has. -/
theorem Inv.forkCreate (h : Inv k) (hp : k.procs.pc p = .forkCreate) (hstep : step k (.advance p) = some k') : Inv k' := by
  obtain ⟨hprocs, hmap, hfreed⟩ := procs_step hstep
  have hfamily := h.family.step hprocs
  have hnew : k.procs.forkCreate p = some k'.procs := by
    have hadvance : k.procs.advance p = some k'.procs := hprocs
    rwa [Processes.advance, hp] at hadvance
  obtain ⟨⟨id, pool⟩, -, heq⟩ := Option.map_eq_some_iff.mp hnew
  have hpcb : k'.procs.pcb = update k.procs.pcb k.procs.created (Processes.newPcb id) := by
    rw [← heq]
    rfl
  have hcreated : k'.procs.created = k.procs.created + 1 := by rw [← heq]
  have hdestroyed : k'.procs.destroyed = k.procs.destroyed := by
    rw [← heq]
    rfl
  have hpc : k'.procs.pc = update k.procs.pc p (.forkAdd k.procs.created) := by
    rw [← heq]
    rfl
  have hfreed' : k'.freed = k.freed := by
    rw [hfreed, nextFreed, hp]
  have hput : ∀ {table : HashTable Nat}, table.Valid → (addNewProcess k'.procs k.procs.created table).Valid ∧
      (addNewProcess k'.procs k.procs.created table).get =
        update table.get (k'.procs.pcb k.procs.created).id (some k.procs.created) := fun hvalid =>
    ⟨(HashTable.put_spec hvalid _ _).1, (HashTable.put_spec hvalid _ _).2.2⟩
  have hmap' : k'.processesMap =
      addNewProcess k'.procs k.procs.created (addNewProcess k'.procs k.procs.created k.processesMap) :=
    hmap.trans (if_pos hp)
  have hget : k'.processesMap.get =
      update k.processesMap.get (k'.procs.pcb k.procs.created).id (some k.procs.created) := by
    rw [hmap', (hput (hput h.valid).1).2, (hput h.valid).2, update_idem]
  have hold : ∀ q, q ≠ k.procs.created → k'.procs.pcb q = k.procs.pcb q := fun q hq => by rw [hpcb, update_of_ne hq]
  constructor
  case family => exact hfamily
  case valid => exact hmap' ▸ (hput (hput h.valid).1).1
  case freed => exact hfreed' ▸ h.freed
  case destroyed => exact hdestroyed ▸ h.destroyed
  case mapped =>
    intro q hq
    rw [hget]
    by_cases hqc : q = k.procs.created
    · rw [hqc, update_self]
    · have hlt : k.procs.created < k'.procs.created := by omega
      have hids : (k'.procs.pcb q).id ≠ (k'.procs.pcb k.procs.created).id := fun heq' =>
        hqc (hfamily.lives.ids hq hlt (by rw [hdestroyed, h.destroyed]) (by rw [hdestroyed, h.destroyed]) heq')
      rw [update_of_ne hids, hold q hqc]
      exact h.mapped q (by omega)
  case other =>
    intro q r hq
    by_cases hqc : q = k.procs.created
    · rw [hqc, hpcb, update_self] at hq
      cases hq
    · rw [hold q hqc] at hq
      exact h.other hq
  case inserts =>
    intro q hq
    rw [hpc] at hq
    have hqp : q ≠ p := by
      rintro rfl
      rw [update_self] at hq
      cases hq
    rw [update_of_ne hqp] at hq
    obtain ⟨r, hparent, hexited⟩ := h.inserts q hq
    have hqc : q ≠ k.procs.created := by
      rintro rfl
      rw [h.family.kids.fresh (Nat.le_refl _)] at hparent
      cases hparent
    have hrc : r ≠ k.procs.created := Nat.ne_of_lt (h.family.lives.parents hparent)
    refine ⟨r, ?_, ?_⟩
    · rw [hold q hqc, hparent]
    · rw [hold r hrc, hexited]

/-- The section of `process_exit` under the lock of the process. -/
theorem exitOwn_step {code : Int} (hp : k.procs.pc p = .exitOwn code) (hstep : step k (.advance p) = some k') :
    k'.procs = (k.procs.exitOwn p code).goto p .exitParent ∧ k'.processesMap = k.processesMap ∧
      k'.freed = fun c => k.freed c || (k.procs.pcb p).exitChildren.entries.any (·.2 == c) := by
  obtain ⟨hprocs, hmap, hfreed⟩ := procs_step hstep
  refine ⟨?_, ?_, ?_⟩
  · have hadvance : k.procs.advance p = some k'.procs := hprocs
    rw [Processes.advance, hp] at hadvance
    exact (Option.some.inj hadvance).symm
  · rw [hmap, nextMap, if_neg (by simp [hp])]
  · rw [hfreed, nextFreed, hp]

/-- The fields after this section. -/
theorem exitOwn_pcb {code : Int} (hprocs : k'.procs = (k.procs.exitOwn p code).goto p .exitParent) (q : Nat) :
    (k'.procs.pcb q).id = (k.procs.pcb q).id ∧ (k'.procs.pcb q).parent = (k.procs.pcb q).parent ∧
      (k'.procs.pcb q).exited = (decide (q = p) || (k.procs.pcb q).exited) := by
  rw [hprocs]
  by_cases hq : q = p
  · subst hq
    simp [Processes.exitOwn, Processes.goto]
  · simp [Processes.exitOwn, Processes.goto, Processes.setPcb_of_ne _ _ hq, hq]

theorem Inv.exitOwn {code : Int} (h : Inv k) (hp : k.procs.pc p = .exitOwn code) (hok : Permits k (.advance p))
    (hstep : step k (.advance p) = some k') : Inv k' := by
  obtain ⟨⟨parent, hparent, halive⟩, hempty, hchildren⟩ : MayExit k.procs p := hok (by rw [hp]; rfl)
  obtain ⟨hprocs, hmap, hfreed⟩ := exitOwn_step hp hstep
  have hfields := exitOwn_pcb hprocs
  have hvalid := h.family.tables.valid p
  have hpc : k'.procs.pc = update k.procs.pc p .exitParent := by
    rw [hprocs]
    rfl
  constructor
  case family => exact h.family.step (procs_step hstep).1
  case valid => exact hmap ▸ h.valid
  case freed =>
    intro c
    have hnone : (k.procs.pcb p).exitChildren.entries.any (·.2 == c) = false := by
      rw [List.any_eq_false]
      rintro ⟨id, d⟩ hmem
      have hget := (HashTable.get_eq_some hvalid).mpr hmem
      rw [(HashTable.size_eq_zero hvalid).mp hempty] at hget
      cases hget
    rw [hfreed]
    exact Bool.or_eq_false_iff.mpr ⟨h.freed c, hnone⟩
  case destroyed =>
    intro q
    rw [hprocs]
    exact h.destroyed q
  case mapped =>
    intro q hq
    rw [hmap, (hfields q).1]
    rw [hprocs] at hq
    exact h.mapped q hq
  case other =>
    intro q r hq
    rw [(hfields q).2.1] at hq
    exact h.other hq
  case inserts =>
    intro q hq
    rw [hpc] at hq
    by_cases hqp : q = p
    · subst hqp
      refine ⟨parent, (hfields q).2.1.trans hparent, ?_⟩
      rw [(hfields parent).2.2, halive, decide_eq_false (h.other hparent)]
      rfl
    · rw [update_of_ne hqp] at hq
      obtain ⟨r, hr, hexited⟩ := h.inserts q hq
      refine ⟨r, (hfields q).2.1.trans hr, ?_⟩
      have hlt := (h.family.lives.acting (p := q) (by rw [hq]; nofun)).1
      have hrp : r ≠ p := fun heq => hchildren q hlt (heq ▸ hr) hq
      rw [(hfields r).2.2, hexited, decide_eq_false hrp]
      rfl

theorem Inv.step (h : Inv k) (hok : Permits k a) (hstep : step k a = some k') : Inv k' := by
  cases a with
  | call p f =>
    have hplain : Processes.Plain k.procs (.call p f) := trivial
    exact h.plain hplain hstep
  | wake p =>
    have hplain : Processes.Plain k.procs (.wake p) := trivial
    exact h.plain hplain hstep
  | destroy => cases hok
  | advance p =>
    cases hp : k.procs.pc p with
    | forkCreate => exact h.forkCreate hp hstep
    | exitOwn code => exact h.exitOwn hp hok hstep
    | _ =>
      have hplain : Processes.Plain k.procs (.advance p) := ⟨by simp [hp], fun code => by simp [hp]⟩
      exact h.plain hplain hstep

/-- A step leads to a state without dangling pointers if and only if it is permitted. -/
theorem Inv.noDangling_iff (h : Inv k) (hstep : ProcessPointers.step k a = some k') : NoDangling k' ↔ Permits k a := by
  refine ⟨fun hgood => ?_, fun hok => (h.step hok hstep).noDangling⟩
  obtain ⟨hprocs, hmap, hfreed⟩ := procs_step hstep
  cases a with
  | call | wake => trivial
  | destroy p =>
    rw [Processes.step] at hprocs
    split_ifs at hprocs with hdead
    have hlt := h.family.lives.created_of_delivered (h.family.lives.ends (h.family.lives.dead hdead).1)
    have hget : k'.processesMap.get (k.procs.pcb p).id = some p := by
      rw [hmap]
      exact h.mapped p hlt
    have hlive := hgood.map _ _ hget
    rw [hfreed, nextFreed, update_self] at hlive
    cases hlive
  | advance p =>
    intro hexits
    obtain ⟨code, hp⟩ : ∃ code, k.procs.pc p = .exitOwn code := by
      cases hp : k.procs.pc p <;> simp_all [ProcessPc.exits]
    have hvalid := h.family.tables.valid p
    obtain ⟨hprocs', hmap', hfreed'⟩ := exitOwn_step hp hstep
    have hfields := exitOwn_pcb hprocs'
    have hpc : k'.procs.pc = update k.procs.pc p .exitParent := by
      rw [hprocs']
      rfl
    refine ⟨?_, (HashTable.size_eq_zero hvalid).mpr fun id => ?_, fun c _ hparent hc => ?_⟩
    · obtain ⟨q, hparent, halive⟩ := hgood.inserts p (by rw [hpc, update_self])
      rw [(hfields q).2.2, Bool.or_eq_false_iff] at halive
      exact ⟨q, (hfields p).2.1.symm.trans hparent, halive.2⟩
    · by_contra hne
      obtain ⟨c, hc⟩ := Option.ne_none_iff_exists'.mp hne
      have hlt := h.family.lives.created_of_delivered (h.family.tables.entry hc).2.2.1
      have hlive := hgood.map _ _ (hmap' ▸ h.mapped c hlt)
      rw [hfreed', Bool.or_eq_false_iff, List.any_eq_false] at hlive
      exact hlive.2 _ ((HashTable.get_eq_some hvalid).mp hc) (by simp)
    · have hcp : c ≠ p := fun heq => by simp [heq, hp] at hc
      obtain ⟨q, hq, halive⟩ := hgood.inserts c (by rw [hpc, update_of_ne hcp, hc])
      rw [(hfields c).2.1, hparent] at hq
      obtain rfl := Option.some.inj hq
      rw [(hfields p).2.2] at halive
      simp at halive

/-- Along a run, no pointer dangles if and only if every step is permitted. -/
theorem no_dangling_iff {as : List Processes.Action} (hrun : Run (Steps ProcessPointers.step) start as k) :
    (∀ bs k', bs <+: as → Run (Steps ProcessPointers.step) start bs k' → NoDangling k') ↔
      Run (Guarded Permits (Steps ProcessPointers.step)) start as k :=
  throughout_iff (fun h hok hstep => h.step hok hstep) (fun h hstep => h.noDangling_iff hstep) start_inv
    start_inv.noDangling hrun

/-- A process forks, the child exits, and the parent waits for it. -/
def sampleActions : List Processes.Action :=
  [.call 1 .fork, .advance 1, .advance 1, .advance 1, .call 2 (.exit 7), .advance 2, .advance 2, .call 1 (.wait 0),
    .advance 1, .advance 1]

theorem sample_no_dangling : ∃ k, Run (Steps ProcessPointers.step) start sampleActions k ∧
    ∀ bs k', bs <+: sampleActions → Run (Steps ProcessPointers.step) start bs k' → NoDangling k' := by
  have hcheck : (execute (permit (fun k a => decide (Permits k a)) ProcessPointers.step) start sampleActions).isSome = true := by
    decide +kernel
  obtain ⟨k, hk⟩ := Option.isSome_iff_exists.mp hcheck
  have hrun : Run (Guarded Permits (Steps ProcessPointers.step)) start sampleActions k :=
    run_of_execute_permit of_decide_eq_true hk
  exact ⟨k, hrun.unguard, (no_dangling_iff hrun.unguard).mpr hrun⟩

/-- When the child is destroyed, it is still in `processes_map` and in the table of its parent. -/
theorem destroyed_dangles : ∃ k, Run (Steps ProcessPointers.step) start (sampleActions ++ [.destroy 2]) k ∧
    k.processesMap.get 2 = some 2 ∧ (k.procs.pcb 1).children.get 2 = some 2 ∧ ¬ NoDangling k := by
  have hcheck : (execute ProcessPointers.step start (sampleActions ++ [.destroy 2])).any (fun k =>
      decide (k.processesMap.get 2 = some 2 ∧ (k.procs.pcb 1).children.get 2 = some 2 ∧ k.freed 2 = true)) = true := by
    decide +kernel
  rw [Option.any_eq_true] at hcheck
  obtain ⟨k, hk, hstate⟩ := hcheck
  obtain ⟨hmap, hchildren, hfreed⟩ := of_decide_eq_true hstate
  refine ⟨k, run_of_execute hk, hmap, hchildren, fun hgood => ?_⟩
  rw [hgood.map 2 2 hmap] at hfreed
  cases hfreed

end ProcessPointers

end LuckOS
