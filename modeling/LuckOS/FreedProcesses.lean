import LuckOS.ProcessPointers
import LuckOS.LoadedDirectory

/-!
# Freed processes

In every run no process in a table of exited children is freed, and a process that has been collected
is freed only when the clean thread destroys it.
-/

namespace LuckOS

open Function Runs

namespace ProcessPc

/-- The thread has been added to `dead_tasks`. -/
def recorded : ProcessPc → Bool
  | exitSwitch | gone => true
  | _ => false

/-- A thread does not leave the sections of `process_exit` that it has passed. -/
structure Before (pc pc' : ProcessPc) : Prop where
  ended : pc.ended = true → pc'.ended = true
  delivered : pc.delivered = true → pc'.delivered = true
  recorded : pc.recorded = true → pc'.recorded = true

variable {pc pc' pc'' : ProcessPc}

theorem Before.trans (h : Before pc pc') (h' : Before pc' pc'') : Before pc pc'' :=
  ⟨h'.ended ∘ h.ended, h'.delivered ∘ h.delivered, h'.recorded ∘ h.recorded⟩

theorem Before.refl (pc : ProcessPc) : Before pc pc := ⟨id, id, id⟩

theorem before_of_not_ended (h : pc.ended = false) : Before pc pc' := by
  cases pc with
  | exitParent | exitThread | exitRecord | exitSwitch | gone => cases h
  | _ => exact ⟨nofun, nofun, nofun⟩

end ProcessPc

namespace Processes

variable {k k' k'' : Processes} {p c pid : Nat} {x : Pcb}

/-- The child has not exited, or it is in the table of its parent. -/
def Available (k : Processes) (c : Nat) : Prop :=
  (k.pc c).delivered = false ∨ ∃ p key, (k.pcb p).exitChildren.get key = some c

/-- No thread goes back before `process_exit`, and only available children are listed or collected. -/
structure Grows (k k' : Processes) : Prop where
  exited : ∀ {p}, (k'.pcb p).exited = true → (k.pcb p).exited = true ∨ (k'.pc p).ended = true
  place : ∀ p, (k.pc p).Before (k'.pc p)
  listed : ∀ {p key c}, (k'.pcb p).exitChildren.get key = some c → Available k c
  collected : ∀ {c}, c ∈ k'.collected → c ∈ k.collected ∨ Available k c
  destroyed : ∀ {c}, k'.destroyed c = false → k.destroyed c = false

theorem Grows.trans (h : Grows k k') (h' : Grows k' k'') : Grows k k'' := by
  have hback : ∀ {c}, Available k' c → Available k c := by
    rintro c (hc | ⟨p, key, hget⟩)
    · cases hold : (k.pc c).delivered with
      | false => exact .inl hold
      | true =>
        rw [(h.place c).delivered hold] at hc
        cases hc
    · exact h.listed hget
  constructor
  case exited =>
    intro p hp
    rcases h'.exited hp with hp | hp
    · exact (h.exited hp).imp_right (h'.place p).ended
    · exact .inr hp
  case place => exact fun p => (h.place p).trans (h'.place p)
  case listed => exact fun hc => hback (h'.listed hc)
  case collected => exact fun hc => (h'.collected hc).elim h.collected fun hc => .inr (hback hc)
  case destroyed => exact fun hc => h.destroyed (h'.destroyed hc)

/-- The pcbs, the places, the collected and the destroyed processes stay the same. -/
theorem grows_of_eq (hpcb : k'.pcb = k.pcb) (hpc : k'.pc = k.pc) (hlog : k'.collected = k.collected)
    (hdestroyed : k'.destroyed = k.destroyed) : Grows k k' := by
  refine ⟨?_, ?_, ?_, ?_, ?_⟩
  · exact fun hp => .inl (hpcb ▸ hp)
  · exact fun p => hpc ▸ .refl _
  · exact fun {p key c} hget => .inr ⟨p, key, hpcb ▸ hget⟩
  · exact fun hc => .inl (hlog ▸ hc)
  · exact fun hc => hdestroyed ▸ hc

theorem grows_goto (pc : ProcessPc) (hpc : (k.pc p).Before pc) : Grows k (k.goto p pc) := by
  constructor
  case exited => exact fun hq => .inl hq
  case place =>
    intro q
    change (k.pc q).Before (update k.pc p pc q)
    by_cases hq : q = p
    · rw [hq, update_self]
      exact hpc
    · rw [update_of_ne hq]
      exact .refl _
  case listed => exact fun {q key c} hget => .inr ⟨q, key, hget⟩
  case collected => exact fun hc => .inl hc
  case destroyed => exact fun hc => hc

theorem grows_setPcb (hexited : x.exited = true → (k.pcb p).exited = true ∨ (k.pc p).ended = true)
    (hlisted : ∀ {key c}, x.exitChildren.get key = some c → Available k c) : Grows k (k.setPcb p x) := by
  have hpcb : ∀ {q}, (k.setPcb p x).pcb q = if q = p then x else k.pcb q := fun {q} => Function.update_apply ..
  constructor
  case exited =>
    intro q hq
    rw [hpcb] at hq
    split_ifs at hq with hqp
    · exact hqp ▸ hexited hq
    · exact .inl hq
  case place => exact fun q => .refl _
  case listed =>
    intro q key c hget
    rw [hpcb] at hget
    split_ifs at hget
    · exact hlisted hget
    · exact .inr ⟨q, key, hget⟩
  case collected => exact fun hc => .inl hc
  case destroyed => exact fun hc => hc

theorem grows_wake (n : Option Nat) : Grows k (k.wake n) := by
  cases n <;> exact grows_of_eq rfl rfl rfl rfl

/-- An available child is collected. -/
theorem Grows.collect (h : Grows k k') (hc : Available k c) (hpcb : k''.pcb = k'.pcb) (hpc : k''.pc = k'.pc)
    (hlog : k''.collected = k'.collected ++ [c]) (hdestroyed : k''.destroyed = k'.destroyed) : Grows k k'' := by
  refine ⟨?_, ?_, ?_, ?_, ?_⟩
  · intro q hq
    rw [hpc]
    exact h.exited (hpcb ▸ hq)
  · exact fun q => hpc ▸ h.place q
  · exact fun hget => h.listed (hpcb ▸ hget)
  · intro d hd
    rw [hlog] at hd
    rcases List.mem_append.mp hd with hd | hd
    · exact h.collected hd
    · exact .inr (List.mem_singleton.mp hd ▸ hc)
  · exact fun hd => h.destroyed (hdestroyed ▸ hd)

theorem grows_waitRound (hvalid : (k.pcb p).exitChildren.Valid) (hpc : (k.pc p).ended = false) (pid : Nat) :
    Grows k (k.waitRound p pid) := by
  obtain ⟨-, hsome, hnone⟩ := takeExited_spec hvalid pid
  rw [waitRound]
  split
  next child table htake =>
    rw [htake] at hsome
    obtain ⟨key, hget, -, hrest⟩ := hsome child rfl
    have hset : Grows k (k.setPcb p { k.pcb p with exitChildren := table }) := by
      refine grows_setPcb .inl fun {key' c} hc => ?_
      have hne : key' ≠ key := fun heq => by simp [heq, hrest] at hc
      rw [hrest, update_of_ne hne] at hc
      exact .inr ⟨p, key', hc⟩
    have hgoto := hset.trans (grows_goto (p := p) (.reap child) (ProcessPc.before_of_not_ended hpc))
    refine hgoto.collect (.inr ⟨p, key, hget⟩) rfl rfl ?_ rfl
    simp [collected, setPcb, goto]
  next table htake =>
    rw [htake] at hnone
    have hset : Grows k (k.setPcb p { k.pcb p with exitChildren := table, waitingThreadNode := some p }) := by
      refine grows_setPcb .inl fun {key' c} hc => ?_
      rw [(hnone rfl).1] at hc
      exact .inr ⟨p, key', hc⟩
    have hgoto := hset.trans (grows_goto (p := p) (.waitYield pid) (ProcessPc.before_of_not_ended hpc))
    exact hgoto.trans (grows_of_eq rfl rfl rfl rfl)

theorem grows_exitParent {parent : Nat} (hvalid : (k.pcb parent).exitChildren.Valid) (hp : k.pc p = .exitParent) :
    Grows k (k.exitParent p parent) := by
  have hset : Grows k (k.setPcb parent { k.pcb parent with
      exitChildren := ((k.pcb parent).exitChildren.put (k.pcb p).id p).2 }) := by
    refine grows_setPcb .inl fun {key c} hc => ?_
    rw [(HashTable.put_spec hvalid _ _).2.2] at hc
    by_cases hkey : key = (k.pcb p).id
    · rw [hkey, update_self] at hc
      obtain rfl := Option.some.inj hc
      exact .inl (by rw [hp]; rfl)
    · rw [update_of_ne hkey] at hc
      exact .inr ⟨parent, key, hc⟩
  simp only [exitParent]
  split_ifs
  · exact hset.trans (grows_wake _)
  · exact hset

theorem grows_advance (hf : FamilyInv k) (hstep : k.advance p = some k') : Grows k k' := by
  have hbefore : ∀ {pc}, (k.pc p).ended = false → (k.pc p).Before pc := ProcessPc.before_of_not_ended
  rw [Processes.advance] at hstep
  cases hp : k.pc p with
  | unborn | user | gone =>
    rw [hp] at hstep
    cases hstep
  | forkCreate =>
    rw [hp] at hstep
    obtain ⟨⟨id, pool⟩, -, rfl⟩ := Option.map_eq_some_iff.mp hstep
    have hset : Grows k (k.setPcb k.created (newPcb id)) :=
      grows_setPcb (by simp [newPcb]) fun hc => absurd (HashTable.get_init.symm.trans hc) (by simp)
    have hgoto := hset.trans (grows_goto (p := p) (.forkAdd k.created) (hbefore (by rw [hp]; rfl)))
    exact hgoto.trans (grows_of_eq rfl rfl rfl rfl)
  | forkAdd child =>
    rw [hp] at hstep
    obtain rfl := Option.some.inj hstep
    have hchild : Grows k (k.setPcb child { k.pcb child with parent := some p }) :=
      grows_setPcb .inl fun hc => .inr ⟨child, _, hc⟩
    have hadd : Grows k (k.addChild p child) := by
      refine hchild.trans (grows_setPcb .inl fun {key c} hc => .inr ⟨p, key, ?_⟩)
      exact hc
    exact hadd.trans (grows_goto _ (hbefore (by rw [hp]; rfl)))
  | forkStart child =>
    rw [hp] at hstep
    obtain rfl := Option.some.inj hstep
    have hunborn := (hf.lives.newborn (p := p) (c := child) (by rw [hp]; rfl)).2.2
    have hne : p ≠ child := fun heq => by simp [← heq, hp] at hunborn
    have hborn : Grows k (k.goto child .user) := grows_goto _ (ProcessPc.before_of_not_ended (by rw [hunborn]; rfl))
    have hplace : (k.goto child .user).pc p = .forkStart child := (update_of_ne hne ..).trans hp
    exact hborn.trans (grows_goto _ (ProcessPc.before_of_not_ended (by rw [hplace]; rfl)))
  | waitEnter pid =>
    rw [hp] at hstep
    obtain rfl := Option.some.inj hstep
    rw [waitEnter]
    split
    · exact grows_goto _ (hbefore (by rw [hp]; rfl))
    · have hset : Grows k (k.setPcb p { k.pcb p with waitingChildPid := if 0 < pid then pid else (k.pcb p).id }) :=
        grows_setPcb .inl fun hc => .inr ⟨p, _, hc⟩
      refine hset.trans (grows_waitRound ?_ ?_ pid)
      · rw [setPcb_self]
        exact hf.tables.valid p
      · rw [show (k.setPcb p _).pc p = k.pc p from rfl, hp]
        rfl
  | waitYield pid =>
    rw [hp] at hstep
    obtain rfl := Option.some.inj hstep
    exact grows_goto _ (hbefore (by rw [hp]; rfl))
  | waitAgain pid =>
    rw [hp] at hstep
    dsimp only at hstep
    split_ifs at hstep
    obtain rfl := Option.some.inj hstep
    exact grows_waitRound (hf.tables.valid p) (by rw [hp]; rfl) pid
  | reap child =>
    rw [hp] at hstep
    obtain rfl := Option.some.inj hstep
    exact (grows_goto _ (hbefore (by rw [hp]; rfl))).trans
      (grows_of_eq rfl rfl rfl rfl)
  | exitOwn code =>
    rw [hp] at hstep
    obtain rfl := Option.some.inj hstep
    have hgoto : Grows k (k.goto p .exitParent) :=
      grows_goto _ (hbefore (by rw [hp]; rfl))
    refine hgoto.trans (grows_setPcb (fun _ => .inr ?_) fun {key c} hc => ?_)
    · simp [goto, ProcessPc.ended]
    · rw [(HashTable.destroy_spec (hf.tables.valid p)).2] at hc
      cases hc
  | exitParent =>
    rw [hp] at hstep
    obtain ⟨parent, -, rfl⟩ := Option.map_eq_some_iff.mp hstep
    have hpc := (exitParent_rest (k := k) (p := p) parent).2.2.1
    have hrecorded : ((k.exitParent p parent).pc p).recorded = true → ProcessPc.recorded .exitThread = true := by
      rw [hpc, hp]
      exact id
    exact (grows_exitParent (hf.tables.valid parent) hp).trans (grows_goto _ ⟨fun _ => rfl, fun _ => rfl, hrecorded⟩)
  | exitThread | exitRecord | exitSwitch =>
    rw [hp] at hstep
    obtain rfl := Option.some.inj hstep
    exact grows_goto _ (by rw [hp]; exact ⟨fun _ => rfl, fun _ => rfl, by simp [ProcessPc.recorded]⟩)

theorem grows_step {a : Action} (hf : FamilyInv k) (hstep : k.step a = some k') : Grows k k' := by
  cases a with
  | call p f =>
    rw [Processes.step] at hstep
    split_ifs at hstep with hp
    obtain rfl := Option.some.inj hstep
    have hgoto : Grows k (k.goto p f.entry) :=
      grows_goto _ (ProcessPc.before_of_not_ended (by rw [hp]; rfl))
    cases f with
    | fork | wait => exact hgoto
    | exit code => exact hgoto.trans (grows_of_eq rfl rfl rfl rfl)
  | advance p => exact grows_advance hf hstep
  | destroy p =>
    rw [Processes.step] at hstep
    split_ifs at hstep
    obtain rfl := Option.some.inj hstep
    refine ⟨.inl, fun _ => .refl _, fun {q key c} hget => .inr ⟨q, key, hget⟩, .inl, fun {c} hc => ?_⟩
    change update k.destroyed p true c = false at hc
    by_cases hcp : c = p
    · rw [hcp, update_self] at hc
      cases hc
    · rwa [update_of_ne hcp] at hc
  | wake p =>
    obtain rfl := Option.some.inj hstep
    exact grows_wake _

/-- A thread that has passed the section of `process_exit` under the lock of its process has marked it. -/
theorem exits_step {a : Action} (hf : FamilyInv k) (hends : ∀ {q}, (k.pc q).ended = true → (k.pcb q).exited = true)
    (hstep : k.step a = some k') {q : Nat} (hq : (k'.pc q).ended = true) : (k'.pcb q).exited = true := by
  cases a with
  | call p f =>
    have hexited : (k'.pcb q).exited = (k.pcb q).exited := (keepsParents_step hf (a := .call p f) trivial hstep).exited q
    rw [Processes.step] at hstep
    split_ifs at hstep with hp
    rw [hexited]
    refine hends ?_
    have hplace : k'.pc = update k.pc p f.entry := by
      rw [← Option.some.inj hstep]
      cases f <;> rfl
    rw [hplace] at hq
    exact ended_of_update (by cases f <;> simp [ProcessCall.entry, ProcessPc.ended]) hq
  | wake p =>
    obtain rfl := Option.some.inj hstep
    exact hends hq
  | destroy p =>
    rw [Processes.step] at hstep
    split_ifs at hstep
    obtain rfl := Option.some.inj hstep
    exact hends hq
  | advance p =>
    have hadvance : k.advance p = some k' := hstep
    rcases ended_advance hadvance hq with hold | ⟨rfl, code, hp⟩
    · by_cases hplain : Plain k (.advance p)
      · rw [(keepsParents_step hf hplain hstep).exited q]
        exact hends hold
      · rw [Processes.advance] at hadvance
        cases hp : k.pc p with
        | forkCreate =>
          rw [hp] at hadvance
          obtain ⟨⟨id, pool⟩, -, rfl⟩ := Option.map_eq_some_iff.mp hadvance
          have hne : q ≠ k.created := by
            refine Nat.ne_of_lt (hf.lives.acting fun hunborn => ?_).1
            rw [hunborn] at hold
            cases hold
          change (update k.pcb k.created (newPcb id) q).exited = true
          rw [update_of_ne hne]
          exact hends hold
        | exitOwn code =>
          rw [hp] at hadvance
          obtain rfl := Option.some.inj hadvance
          change (update k.pcb p _ q).exited = true
          by_cases hqp : q = p
          · rw [hqp, update_self]
          · rw [update_of_ne hqp]
            exact hends hold
        | _ => exact absurd ⟨by simp [hp], by simp [hp]⟩ hplain
    · rw [Processes.advance, hp] at hadvance
      obtain rfl := Option.some.inj hadvance
      change (update k.pcb q _ q).exited = true
      rw [update_self]

end Processes

namespace ProcessPointers

variable {k k' : ProcessPointers} {a : Processes.Action} {p c : Nat}

/-- No freed process is listed, and a collected process is freed only by its destruction. -/
structure FreedInv (k : ProcessPointers) : Prop where
  family : Processes.FamilyInv k.procs
  valid : k.processesMap.Valid
  exits : ∀ {p}, (k.procs.pcb p).exited = true → (k.procs.pc p).ended = true
  ends : ∀ {p}, (k.procs.pc p).ended = true → (k.procs.pcb p).exited = true
  freed : ∀ {c}, k.freed c = true → (k.procs.pc c).delivered = true
  listed : ∀ {p key c}, (k.procs.pcb p).exitChildren.get key = some c → k.freed c = false
  collected : ∀ {c}, c ∈ k.procs.collected → k.procs.destroyed c = false → k.freed c = false
  destroyed : ∀ {c}, k.procs.destroyed c = true → k.freed c = true

theorem FreedInv.available (h : FreedInv k) (hc : k.procs.Available c) : k.freed c = false := by
  rcases hc with hc | ⟨p, key, hget⟩
  · by_contra hfreed
    rw [h.freed (eq_true_of_ne_false hfreed)] at hc
    cases hc
  · exact h.listed hget

/-- A step, and the processes that it frees. -/
theorem FreedInv.grow (h : FreedInv k) (hprocs : k.procs.step a = some k'.procs) (hvalid : k'.processesMap.Valid)
    (hdestroyed : ∀ {c}, k'.procs.destroyed c = true → k'.freed c = true)
    (hnew : ∀ c, k'.freed c = true → k.freed c = true ∨ (k.procs.pc c).delivered = true ∧
      (∀ q key, (k'.procs.pcb q).exitChildren.get key ≠ some c) ∧
      (c ∈ k'.procs.collected → k'.procs.destroyed c = true)) : FreedInv k' := by
  have hgrows := Processes.grows_step h.family hprocs
  have hkeep : ∀ {c}, k.freed c = false → (¬ ((∀ q key, (k'.procs.pcb q).exitChildren.get key ≠ some c) ∧
      (c ∈ k'.procs.collected → k'.procs.destroyed c = true))) → k'.freed c = false := by
    intro c hfreed hno
    by_contra hfreed'
    rcases hnew c (eq_true_of_ne_false hfreed') with hold | ⟨-, hlist⟩
    · rw [hfreed] at hold
      cases hold
    · exact hno hlist
  constructor
  case family => exact h.family.step hprocs
  case valid => exact hvalid
  case exits =>
    intro p hp
    rcases hgrows.exited hp with hp | hp
    · exact (hgrows.place p).ended (h.exits hp)
    · exact hp
  case ends => exact fun hp => Processes.exits_step h.family h.ends hprocs hp
  case freed =>
    intro c hc
    rcases hnew c hc with hc | ⟨hc, -⟩
    · exact (hgrows.place c).delivered (h.freed hc)
    · exact (hgrows.place c).delivered hc
  case listed =>
    intro p key c hget
    exact hkeep (h.available (hgrows.listed hget)) fun hno => hno.1 p key hget
  case collected =>
    intro c hc hdestroyed
    have hfreed : k.freed c = false := by
      rcases hgrows.collected hc with hold | havailable
      · exact h.collected hold (hgrows.destroyed hdestroyed)
      · exact h.available havailable
    refine hkeep hfreed fun hno => ?_
    rw [hno.2 hc] at hdestroyed
    cases hdestroyed
  case destroyed => exact hdestroyed

theorem addNewProcess_valid {procs : Processes} {table : HashTable Nat} (h : table.Valid) (p : Nat) :
    (addNewProcess procs p table).Valid := (HashTable.put_spec h _ _).1

theorem FreedInv.exitOwn {code : Int} (h : FreedInv k) (hp : k.procs.pc p = .exitOwn code)
    (hstep : step k (.advance p) = some k') : FreedInv k' := by
  obtain ⟨hprocs, hmap, hfreed⟩ := exitOwn_step hp hstep
  have hdestroyed : ∀ {c}, k'.procs.destroyed c = true → k'.freed c = true := by
    intro c hc
    rw [hprocs] at hc
    rw [hfreed]
    exact Bool.or_eq_true_iff.mpr (.inl (h.destroyed hc))
  refine h.grow (procs_step hstep).1 (hmap ▸ h.valid) hdestroyed fun c hc => ?_
  rw [hfreed] at hc
  rcases Bool.or_eq_true_iff.mp hc with hc | hc
  · exact .inl hc
  right
  obtain ⟨⟨key, d⟩, hmem, heq⟩ := List.any_eq_true.mp hc
  obtain rfl := eq_of_beq heq
  obtain ⟨-, hparent, hdel, hcol⟩ :=
    h.family.tables.entry ((HashTable.get_eq_some (h.family.tables.valid p)).mpr hmem)
  refine ⟨hdel, fun q key' hget => ?_, fun hcol' => absurd hcol' ?_⟩
  · by_cases hq : q = p
    · subst hq
      rw [hprocs] at hget
      simp [Processes.exitOwn, Processes.goto, (HashTable.destroy_spec (h.family.tables.valid q)).2] at hget
    · have hsame : (k'.procs.pcb q).exitChildren = (k.procs.pcb q).exitChildren := by
        rw [hprocs]
        simp [Processes.exitOwn, Processes.goto, Processes.setPcb_of_ne _ _ hq]
      rw [hsame] at hget
      have hparent' := (h.family.tables.entry hget).2.1
      rw [hparent] at hparent'
      exact hq (Option.some.inj hparent').symm
  · rw [hprocs]
    exact hcol

theorem FreedInv.destroy (h : FreedInv k) (hstep : step k (.destroy p) = some k') : FreedInv k' := by
  obtain ⟨hprocs, hmap, hfreed⟩ := procs_step hstep
  have hstep' := hprocs
  rw [Processes.step] at hprocs
  split_ifs at hprocs with hdead
  have hprocs' := (Option.some.inj hprocs).symm
  have hdestroyed : ∀ {c}, k'.procs.destroyed c = true → k'.freed c = true := by
    intro c hc
    rw [hprocs'] at hc
    change update k.procs.destroyed p true c = true at hc
    rw [hfreed, nextFreed]
    by_cases hcp : c = p
    · rw [hcp, update_self]
    · rw [update_of_ne hcp] at hc ⊢
      exact h.destroyed hc
  refine h.grow hstep' (hmap ▸ h.valid) hdestroyed fun c hc => ?_
  rw [hfreed, nextFreed] at hc
  by_cases hcp : c = p
  · subst hcp
    obtain ⟨hcol, -⟩ := h.family.lives.dead hdead
    refine .inr ⟨h.family.lives.ends hcol, fun q key hget => ?_, fun _ => ?_⟩
    · rw [hprocs'] at hget
      exact (h.family.tables.entry hget).2.2.2 hcol
    · rw [hprocs']
      exact update_self ..
  · rw [update_of_ne hcp] at hc
    exact .inl hc

theorem FreedInv.step (h : FreedInv k) (hstep : step k a = some k') : FreedInv k' := by
  obtain ⟨hprocs, hmap, hfreed⟩ := procs_step hstep
  have hsame : k'.freed = k.freed → k'.procs.destroyed = k.procs.destroyed → k'.processesMap.Valid → FreedInv k' := by
    intro hfreed hdestroyed hvalid
    refine h.grow hprocs hvalid (fun {c} hc => ?_) fun c hc => .inl (hfreed ▸ hc)
    rw [hfreed]
    exact h.destroyed (hdestroyed ▸ hc)
  cases a with
  | call p f =>
    rw [Processes.step] at hprocs
    split_ifs at hprocs
    refine hsame hfreed ?_ (hmap ▸ h.valid)
    rw [← Option.some.inj hprocs]
    cases f <;> rfl
  | wake p => exact hsame hfreed (by rw [← Option.some.inj hprocs]; rfl) (hmap ▸ h.valid)
  | destroy p => exact h.destroy hstep
  | advance p =>
    have hvalid : k'.processesMap.Valid := by
      rw [hmap, nextMap]
      split_ifs
      · exact addNewProcess_valid (addNewProcess_valid h.valid _) _
      · exact h.valid
    cases hp : k.procs.pc p with
    | exitOwn code => exact h.exitOwn hp hstep
    | _ => exact hsame (by rw [hfreed, nextFreed, hp]) (Processes.destroyed_advance hprocs) hvalid

theorem start_freedInv : FreedInv start where
  family := start_inv.family
  valid := start_inv.valid
  exits := fun hp => nomatch hp
  ends := by
    intro p hp
    rcases Processes.start_place p with ⟨hpc, -⟩ | hpc <;> rw [start, hpc] at hp <;> cases hp
  freed := fun hc => nomatch hc
  listed := fun _ => rfl
  collected := fun _ _ => rfl
  destroyed := fun hc => nomatch hc

end ProcessPointers

end LuckOS
