import LuckOS.ProcessInvariant

/-!
# `process_fork`

A thread that goes on elsewhere, the calls of the three functions, and the steps of `process_fork`. The child takes an id
of its own, and enters the table of its parent before its thread can run.
-/

namespace LuckOS

open Function Runs

namespace Processes

variable {k k' : Processes} {p c pid : Nat} {pc : ProcessPc}

/-- Only the place of one thread changes. -/
theorem ProcessInv.goto (h : ProcessInv k) (pc : ProcessPc) (hborn : k.pc p ≠ .unborn) (hfork : pc.forking = none)
    (hreap : pc.reaping = none) (hdel : pc.delivered = (k.pc p).delivered) (hended : pc.ended = (k.pc p).ended)
    (hown : ∀ code, pc ≠ .exitOwn code) (hwait : pc.waiting = (k.pc p).waiting) : ProcessInv (k.goto p pc) := by
  have hwaits := apply_place _ _ _ ProcessPc.waiting hwait
  refine ⟨?_, ?_, ?_, ?_⟩
  · exact h.lives.goto rfl rfl (fun _ => rfl) .inl rfl rfl rfl rfl hborn (.inl hfork) hreap fun hd => hdel.trans hd
  · exact h.tables.frame (fun q => ⟨h.tables.valid q, rfl⟩) (fun _ _ => ⟨rfl, rfl⟩) (fun _ => rfl)
      (apply_place _ _ _ ProcessPc.delivered hdel) rfl
  · exact h.sleeps.frame (fun hq => (hwaits _).symm.trans hq) (fun _ => ⟨rfl, rfl, rfl, rfl⟩) fun hq => ⟨hq, hwaits _⟩
  · exact h.codes.frame rfl rfl (fun _ => ⟨rfl, rfl, rfl⟩) h.lives rfl hown fun he => hended.symm.trans he

/-- The call of `process_exit`. -/
theorem ProcessInv.callExit (h : ProcessInv k) (hp : k.pc p = .user) (code : Int) :
    ProcessInv { k.goto p (.exitOwn code) with passed := update k.passed p (some code) } := by
  have hplace : ∀ q, q ≠ p → update k.pc p (.exitOwn code) q = k.pc q := fun q hq => update_of_ne hq ..
  have hself : update k.pc p (.exitOwn code) p = .exitOwn code := update_self ..
  have hwaits := apply_place k.pc p (.exitOwn code) ProcessPc.waiting (by rw [hp]; rfl)
  refine ⟨?_, ?_, ?_, ?_, ?_, ?_, h.codes.once⟩
  · exact h.lives.goto rfl rfl (fun _ => rfl) .inl rfl rfl rfl rfl (by simp [hp]) (.inl rfl) rfl (by simp [hp, ProcessPc.delivered])
  · exact h.tables.frame (fun q => ⟨h.tables.valid q, rfl⟩) (fun _ _ => ⟨rfl, rfl⟩) (fun _ => rfl)
      (apply_place _ _ _ ProcessPc.delivered (by rw [hp]; rfl)) rfl
  · exact h.sleeps.frame (fun hq => (hwaits _).symm.trans hq) (fun _ => ⟨rfl, rfl, rfl, rfl⟩) fun hq => ⟨hq, hwaits _⟩
  · intro c code' hc
    change update k.pc p (.exitOwn code) c = _ at hc
    change update k.passed p (some code) c = _
    by_cases heq : c = p
    · subst heq
      rw [hself] at hc
      rw [update_self, ProcessPc.exitOwn.inj hc]
    · rw [hplace c heq] at hc
      rw [update_of_ne heq]
      exact h.codes.called hc
  · intro c hc
    change (update k.pc p (.exitOwn code) c).ended = _ at hc
    change update k.passed p (some code) c = _
    by_cases heq : c = p
    · subst heq
      rw [hself] at hc
      cases hc
    · rw [hplace c heq] at hc
      rw [update_of_ne heq]
      exact h.codes.stored hc
  · exact h.codes.logged

theorem ProcessInv.call (h : ProcessInv k) (hp : k.pc p = .user) (f : ProcessCall) : ProcessInv (k.call p f) := by
  cases f with
  | fork => exact h.goto .forkCreate (by simp [hp]) rfl rfl (by rw [hp]; rfl) (by rw [hp]; rfl) (by simp) (by rw [hp]; rfl)
  | wait pid =>
    exact h.goto (.waitEnter pid) (by simp [hp]) rfl rfl (by rw [hp]; rfl) (by rw [hp]; rfl) (by simp) (by rw [hp]; rfl)
  | exit code => exact h.callExit hp code

/-! ## `process_fork` -/

theorem Lives.forkCreate {id : Nat} {pool : IdPool} (h : Lives k) (hp : k.pc p = .forkCreate)
    (halloc : k.pool.allocateId = some (id, pool)) :
    Lives { (k.setPcb k.created (newPcb id)).goto p (.forkAdd k.created) with
      pool := pool, created := k.created + 1 } := by
  obtain ⟨hwhole, hfree, hused⟩ := IdPool.allocateId_spec h.whole halloc
  have hne : ∀ {c}, c < k.created → c ≠ k.created := fun hc => Nat.ne_of_lt hc
  have hold : ∀ {c}, c < k.created → update k.pcb k.created (newPcb id) c = k.pcb c := fun hc => update_of_ne (hne hc) ..
  have hnew : update k.pcb k.created (newPcb id) k.created = newPcb id := update_self ..
  have hunborn : k.pc k.created = .unborn := by
    by_contra hpc
    exact hne (h.acting hpc).1 rfl
  have hcp : k.created ≠ p := by
    intro heq
    rw [← heq, hunborn] at hp
    cases hp
  have hself : update k.pc p (.forkAdd k.created) p = .forkAdd k.created := update_self ..
  have hplace : ∀ {q}, q ≠ p → update k.pc p (.forkAdd k.created) q = k.pc q := fun hq => update_of_ne hq ..
  have hforks : ∀ {q c}, (update k.pc p (.forkAdd k.created) q).forking = some c →
      q = p ∧ c = k.created ∨ q ≠ p ∧ (k.pc q).forking = some c := by
    intro q c hq
    by_cases heq : q = p
    · subst heq
      rw [hself] at hq
      exact .inl ⟨rfl, (Option.some.inj hq).symm⟩
    · rw [hplace heq] at hq
      exact .inr ⟨heq, hq⟩
  have hcases : ∀ {c}, c < k.created + 1 → c < k.created ∨ c = k.created := by omega
  have hids : ∀ {c}, c < k.created → k.destroyed c = false → (k.pcb c).id ≠ id := by
    intro c hc hd heq
    have hu := h.used hc hd
    rw [heq, hfree] at hu
    cases hu
  refine ⟨hwhole, ?_, ?_, ?_, ?_, ?_, ?_, ?_, ?_, h.dead, h.deadOnce, ?_, ?_, h.destroys⟩
  · refine ⟨Nat.succ_pos _, ?_, h.main.2.2⟩
    change (update k.pcb k.created (newPcb id) 0).id = 0
    rw [hold h.main.1]
    exact h.main.2.1
  · intro c hc hd
    change pool.used (update k.pcb k.created (newPcb id) c).id = true
    rw [hused]
    rcases hcases hc with hlt | rfl
    · rw [hold hlt, h.used hlt hd, Bool.or_true]
    · rw [hnew]
      simp [newPcb]
  · intro c d hc hd hc' hd' heq
    change (update k.pcb k.created (newPcb id) c).id = (update k.pcb k.created (newPcb id) d).id at heq
    rcases hcases hc with hlt | rfl <;> rcases hcases hd with hlt' | rfl
    · rw [hold hlt, hold hlt'] at heq
      exact h.ids hlt hlt' hc' hd' heq
    · rw [hold hlt, hnew] at heq
      exact absurd heq (hids hlt hc')
    · rw [hold hlt', hnew] at heq
      exact absurd heq.symm (hids hlt' hd')
    · rfl
  · intro c q hc
    change (update k.pcb k.created (newPcb id) c).parent = some q at hc
    by_cases heq : c = k.created
    · rw [heq, update_self] at hc
      cases hc
    · rw [update_of_ne heq] at hc
      exact Nat.lt_succ_of_lt (h.parents hc)
  · intro q hq
    have hborn : k.pc q ≠ .unborn := by
      by_cases heq : q = p
      · rw [heq, hp]
        simp
      · exact hplace heq ▸ hq
    obtain ⟨hlt, hzero⟩ := h.acting hborn
    exact ⟨Nat.lt_succ_of_lt hlt, hzero⟩
  · intro q c hq
    rcases hforks hq with ⟨rfl, rfl⟩ | ⟨-, hq⟩
    · exact ⟨Nat.lt_succ_self _, Nat.ne_of_gt h.main.1, (hplace hcp).trans hunborn⟩
    · obtain ⟨hlt, hzero, hborn⟩ := h.newborn hq
      refine ⟨Nat.lt_succ_of_lt hlt, hzero, (hplace ?_).trans hborn⟩
      rintro rfl
      rw [hborn] at hp
      cases hp
  · intro q q' c hq hq'
    rcases hforks hq with ⟨rfl, rfl⟩ | ⟨-, hold⟩ <;> rcases hforks hq' with ⟨rfl, hc⟩ | ⟨-, hold'⟩
    · rfl
    · exact absurd rfl (hne (h.newborn hold').1)
    · exact absurd hc (hne (h.newborn hold).1)
    · exact h.newbornOnce hold hold'
  · intro c hc
    have hd := h.ends hc
    have hcp' : c ≠ p := by
      rintro rfl
      rw [hp] at hd
      cases hd
    exact (congrArg ProcessPc.delivered (hplace hcp')).trans hd
  · intro q c hq
    have hreaps := apply_place k.pc p (.forkAdd k.created) ProcessPc.reaping (by rw [hp]; rfl) q
    exact h.reaps (hreaps.symm.trans hq)
  · intro q q' c hq hq'
    have hreaps := apply_place k.pc p (.forkAdd k.created) ProcessPc.reaping (by rw [hp]; rfl)
    exact h.reapsOnce ((hreaps q).symm.trans hq) ((hreaps q').symm.trans hq')

theorem ProcessInv.forkCreate (h : ProcessInv k) (hp : k.pc p = .forkCreate) (hstep : k.forkCreate p = some k') :
    ProcessInv k' := by
  obtain ⟨⟨id, pool⟩, halloc, rfl⟩ := Option.map_eq_some_iff.mp hstep
  have hunborn : k.pc k.created = .unborn := by
    by_contra hpc
    exact Nat.lt_irrefl _ (h.lives.acting hpc).1
  have hold : ∀ {c}, k.pc c ≠ .unborn → update k.pcb k.created (newPcb id) c = k.pcb c := by
    intro c hc
    refine update_of_ne ?_ ..
    rintro rfl
    exact hc hunborn
  have hwaits := apply_place k.pc p (.forkAdd k.created) ProcessPc.waiting (by rw [hp]; rfl)
  have hdel := apply_place k.pc p (.forkAdd k.created) ProcessPc.delivered (by rw [hp]; rfl)
  have hborn : ∀ {c}, (k.pc c).delivered = true → k.pc c ≠ .unborn := by
    intro c hc heq
    rw [heq] at hc
    cases hc
  refine ⟨h.lives.forkCreate hp halloc, ⟨?_, ?_, ?_⟩, ?_, ?_⟩
  · intro q
    change (update k.pcb k.created (newPcb id) q).exitChildren.Valid
    by_cases hq : q = k.created
    · rw [hq, update_self]
      exact HashTable.init_valid
    · rw [update_of_ne hq]
      exact h.tables.valid q
  · intro q key c hc
    change (update k.pcb k.created (newPcb id) q).exitChildren.get key = some c at hc
    by_cases hq : q = k.created
    · rw [hq, update_self] at hc
      exact nomatch HashTable.get_init.symm.trans hc
    · rw [update_of_ne hq] at hc
      obtain ⟨hkey, hparent, hd, hcol⟩ := h.tables.entry hc
      refine ⟨?_, ?_, (hdel c).trans hd, hcol⟩
      · exact (congrArg Pcb.id (hold (hborn hd))).trans hkey
      · exact (congrArg Pcb.parent (hold (hborn hd))).trans hparent
  · intro q c hparent hd halive hcol
    have hd' := (hdel c).symm.trans hd
    have hc := hold (hborn hd')
    change (update k.pcb k.created (newPcb id) c).parent = some q at hparent
    change (update k.pcb k.created (newPcb id) q).exited = false at halive
    change (update k.pcb k.created (newPcb id) q).exitChildren.get (update k.pcb k.created (newPcb id) c).id = some c
    rw [hc] at hparent ⊢
    have hq : q ≠ k.created := fun heq => Nat.lt_irrefl _ (heq ▸ h.lives.parents hparent)
    rw [update_of_ne hq] at halive ⊢
    exact h.tables.available hparent hd' halive hcol
  · refine h.sleeps.frame (fun hq => (hwaits _).symm.trans hq) (fun hq => ?_) fun hq => ⟨hq, hwaits _⟩
    have hsame := hold (c := _) fun heq => by rw [heq] at hq; cases hq
    exact ⟨congrArg _ hsame, congrArg _ hsame, congrArg _ hsame, congrArg (fun x => HashTable.get (Pcb.exitChildren x)) hsame⟩
  · refine h.codes.frame rfl rfl (fun {c} hc => ?_) h.lives rfl (by simp) (by simp [ProcessPc.ended])
    have hsame := hold (c := c) fun heq => by rw [heq] at hc; cases hc
    exact ⟨congrArg _ hsame, congrArg _ hsame, congrArg _ hsame⟩

/-- `add_child_process` changes one table and the parent of the child. -/
theorem addChild_fields (hne : c ≠ p) (q : Nat) : ((k.addChild p c).pcb q).id = (k.pcb q).id ∧
    ((k.addChild p c).pcb q).exited = (k.pcb q).exited ∧ ((k.addChild p c).pcb q).exitCode = (k.pcb q).exitCode ∧
    ((k.addChild p c).pcb q).exitChildren = (k.pcb q).exitChildren ∧
    ((k.addChild p c).pcb q).waitingChildPid = (k.pcb q).waitingChildPid ∧
    ((k.addChild p c).pcb q).waitingThreadNode = (k.pcb q).waitingThreadNode ∧
    ((k.addChild p c).pcb q).parent = if q = c then some p else (k.pcb q).parent := by
  by_cases hp : q = p
  · subst hp
    simp [addChild, setPcb, hne.symm]
  · by_cases hc : q = c
    · subst hc
      simp [addChild, setPcb, hne]
    · simp [addChild, setPcb, hp, hc]

theorem ProcessInv.forkAdd (h : ProcessInv k) (hp : k.pc p = .forkAdd c) :
    ProcessInv ((k.addChild p c).goto p (.forkStart c)) := by
  have hforking : (k.pc p).forking = some c := by rw [hp]; rfl
  obtain ⟨hlt, hzero, hunborn⟩ := h.lives.newborn hforking
  have hborn : k.pc p ≠ .unborn := by simp [hp]
  have hne : c ≠ p := by
    rintro rfl
    exact hborn hunborn
  have hfields := addChild_fields (k := k) hne
  have hparent : ∀ {q}, k.pc q ≠ .unborn → ((k.addChild p c).pcb q).parent = (k.pcb q).parent := by
    intro q hq
    rw [(hfields q).2.2.2.2.2.2, if_neg]
    rintro rfl
    exact hq hunborn
  have hwaits := apply_place k.pc p (.forkStart c) ProcessPc.waiting (by rw [hp]; rfl)
  have hdel := apply_place k.pc p (.forkStart c) ProcessPc.delivered (by rw [hp]; rfl)
  refine ⟨?_, ?_, ?_, ?_⟩
  · refine h.lives.goto rfl rfl (fun q => (hfields q).1) ?_ rfl rfl rfl rfl hborn (.inr (by rw [hp]; rfl)) rfl
      (by simp [hp, ProcessPc.delivered])
    intro d q hd
    change ((k.addChild p c).pcb d).parent = some q at hd
    rw [(hfields d).2.2.2.2.2.2] at hd
    split_ifs at hd
    · rw [← Option.some.inj hd]
      exact .inr (h.lives.acting hborn).1
    · exact .inl hd
  · refine h.tables.frame (fun q => ?_) (fun q hq => ⟨(hfields q).1, hparent fun heq => ?_⟩)
      (fun q => (hfields q).2.1) hdel rfl
    · change ((k.addChild p c).pcb q).exitChildren.Valid ∧ ((k.addChild p c).pcb q).exitChildren.get = _
      rw [(hfields q).2.2.2.1]
      exact ⟨h.tables.valid q, rfl⟩
    · rw [heq] at hq
      cases hq
  · refine h.sleeps.frame (fun hq => (hwaits _).symm.trans hq) (fun {q _} _ => ?_) fun hq => ⟨hq, hwaits _⟩
    exact ⟨(hfields q).2.2.2.2.2.1, (hfields q).2.2.2.2.1, (hfields q).1, congrArg HashTable.get (hfields q).2.2.2.1⟩
  · refine h.codes.frame rfl rfl (fun {q} hq => ⟨(hfields q).2.2.1, hparent fun heq => ?_, (hfields q).1⟩) h.lives rfl
      (by simp) (by simp [ProcessPc.ended])
    rw [heq] at hq
    cases hq

/-- The thread of a new process is scheduled. -/
theorem ProcessInv.birth (h : ProcessInv k) (hc : k.pc c = .unborn) (hlt : c < k.created) (hzero : c ≠ 0)
    (hfork : ∀ q, (k.pc q).forking ≠ some c) : ProcessInv (k.goto c .user) := by
  have hforking := apply_place k.pc c .user ProcessPc.forking (by rw [hc]; rfl)
  have hreaping := apply_place k.pc c .user ProcessPc.reaping (by rw [hc]; rfl)
  have hdel := apply_place k.pc c .user ProcessPc.delivered (by rw [hc]; rfl)
  have hwaits := apply_place k.pc c .user ProcessPc.waiting (by rw [hc]; rfl)
  refine ⟨?_, ?_, ?_, ?_⟩
  · refine ⟨h.lives.whole, h.lives.main, h.lives.used, h.lives.ids, h.lives.parents, ?_, ?_, ?_, ?_, h.lives.dead,
      h.lives.deadOnce, fun hq => h.lives.reaps ((hreaping _).symm.trans hq),
      fun hq hq' => h.lives.reapsOnce ((hreaping _).symm.trans hq) ((hreaping _).symm.trans hq'), h.lives.destroys⟩
    · intro q hq
      by_cases heq : q = c
      · rw [heq]
        exact ⟨hlt, hzero⟩
      · exact h.lives.acting fun hborn => hq ((update_of_ne heq ..).trans hborn)
    · intro q d hq
      have hold := (hforking q).symm.trans hq
      obtain ⟨hd, hd', hborn⟩ := h.lives.newborn hold
      refine ⟨hd, hd', (update_of_ne ?_ ..).trans hborn⟩
      rintro rfl
      exact hfork q hold
    · exact fun hq hq' => h.lives.newbornOnce ((hforking _).symm.trans hq) ((hforking _).symm.trans hq')
    · exact fun hd => (hdel _).trans (h.lives.ends hd)
  · exact h.tables.frame (fun q => ⟨h.tables.valid q, rfl⟩) (fun _ _ => ⟨rfl, rfl⟩) (fun _ => rfl) hdel rfl
  · exact h.sleeps.frame (fun hq => (hwaits _).symm.trans hq) (fun _ => ⟨rfl, rfl, rfl, rfl⟩) fun hq => ⟨hq, hwaits _⟩
  · exact h.codes.frame rfl rfl (fun _ => ⟨rfl, rfl, rfl⟩) h.lives rfl (by simp) (by simp [ProcessPc.ended])

theorem ProcessInv.forkStart (h : ProcessInv k) (hp : k.pc p = .forkStart c) :
    ProcessInv ((k.goto c .user).goto p .user) := by
  have hforking : (k.pc p).forking = some c := by rw [hp]; rfl
  obtain ⟨hlt, hzero, hunborn⟩ := h.lives.newborn hforking
  have hne : c ≠ p := by
    rintro rfl
    rw [hunborn] at hp
    cases hp
  have hfirst := h.goto (p := p) .user (by simp [hp]) rfl rfl (by rw [hp]; rfl) (by rw [hp]; rfl) (by simp) (by rw [hp]; rfl)
  have hcomm : (k.goto c .user).goto p .user = (k.goto p .user).goto c .user := by
    simp only [Processes.goto]
    rw [update_comm hne]
  rw [hcomm]
  refine hfirst.birth ((update_of_ne hne ..).trans hunborn) hlt hzero fun q hq => ?_
  by_cases heq : q = p
  · rw [heq] at hq
    simp [Processes.goto, ProcessPc.forking] at hq
  · have hold : (k.pc q).forking = some c := (congrArg ProcessPc.forking (update_of_ne heq ..)).symm.trans hq
    exact heq (h.lives.newbornOnce hold hforking)

end Processes

end LuckOS
