import LuckOS.ProcessWaits

/-!
# `process_exit`

The process stores its exit code, and enters the table of its parent, which it wakes up when it waits for this child.
-/

namespace LuckOS

open Function Runs

namespace Processes

variable {k k' : Processes} {p c pid : Nat} {pc : ProcessPc}

theorem ProcessInv.exitOwn {code : Int} (h : ProcessInv k) (hp : k.pc p = .exitOwn code) :
    ProcessInv ((k.exitOwn p code).goto p .exitParent) := by
  have hborn : k.pc p ≠ .unborn := by simp [hp]
  have hother : ∀ {q}, q ≠ p → (k.exitOwn p code).pcb q = k.pcb q := fun hq => update_of_ne hq ..
  have hself : (k.exitOwn p code).pcb p =
      { k.pcb p with exitCode := code, exited := true, exitChildren := (k.pcb p).exitChildren.destroy } := update_self ..
  have hfields : ∀ q, ((k.exitOwn p code).pcb q).id = (k.pcb q).id ∧
      ((k.exitOwn p code).pcb q).parent = (k.pcb q).parent := by
    intro q
    by_cases hq : q = p
    · rw [hq, hself]
      exact ⟨rfl, rfl⟩
    · rw [hother hq]
      exact ⟨rfl, rfl⟩
  have hplace : ∀ {q}, q ≠ p → update k.pc p .exitParent q = k.pc q := fun hq => update_of_ne hq ..
  have hpself : update k.pc p .exitParent p = .exitParent := update_self ..
  have hdel := apply_place k.pc p .exitParent ProcessPc.delivered (by rw [hp]; rfl)
  have hwaits := apply_place k.pc p .exitParent ProcessPc.waiting (by rw [hp]; rfl)
  obtain ⟨hvalid, hempty⟩ := HashTable.destroy_spec (h.tables.valid p)
  have hlogged : ∀ {e}, e ∈ k.log → e.child ≠ p := by
    intro e he heq
    have hd := h.lives.ends (List.mem_map_of_mem he)
    rw [heq, hp] at hd
    cases hd
  refine ⟨?_, ⟨?_, ?_, ?_⟩, ?_, ⟨?_, ?_, ?_, h.codes.once⟩⟩
  · exact h.lives.goto rfl rfl (fun q => (hfields q).1) (fun {q _} hq => .inl ((hfields q).2 ▸ hq)) rfl rfl rfl rfl hborn
      (.inl rfl) rfl (by simp [hp, ProcessPc.delivered])
  · intro q
    change ((k.exitOwn p code).pcb q).exitChildren.Valid
    by_cases hq : q = p
    · rw [hq, hself]
      exact hvalid
    · rw [hother hq]
      exact h.tables.valid q
  · intro q key c hc
    change ((k.exitOwn p code).pcb q).exitChildren.get key = some c at hc
    change ((k.exitOwn p code).pcb c).id = key ∧ ((k.exitOwn p code).pcb c).parent = some q ∧
      (update k.pc p .exitParent c).delivered = true ∧ c ∉ k.collected
    rw [(hfields c).1, (hfields c).2, hdel]
    by_cases hq : q = p
    · rw [hq, hself] at hc
      cases (hempty key).symm.trans hc
    · rw [hother hq] at hc
      exact h.tables.entry hc
  · intro q c hparent hd halive hcol
    change ((k.exitOwn p code).pcb c).parent = some q at hparent
    change (update k.pc p .exitParent c).delivered = true at hd
    change ((k.exitOwn p code).pcb q).exited = false at halive
    change ((k.exitOwn p code).pcb q).exitChildren.get ((k.exitOwn p code).pcb c).id = some c
    rw [(hfields c).2] at hparent
    rw [hdel] at hd
    have hq : q ≠ p := by
      rintro rfl
      rw [hself] at halive
      cases halive
    rw [hother hq] at halive ⊢
    rw [(hfields c).1]
    exact h.tables.available hparent hd halive hcol
  · refine h.sleeps.frame (fun hq => (hwaits _).symm.trans hq) (fun {q pid} hq => ?_) fun hq => ⟨hq, hwaits _⟩
    have hne : q ≠ p := by
      rintro rfl
      rw [hp] at hq
      cases hq
    have hsame := hother hne
    exact ⟨congrArg _ hsame, congrArg _ hsame, congrArg _ hsame, congrArg (fun x => HashTable.get (Pcb.exitChildren x)) hsame⟩
  · intro c code' hc
    change update k.pc p .exitParent c = _ at hc
    have hne : c ≠ p := by
      rintro rfl
      rw [hpself] at hc
      cases hc
    rw [hplace hne] at hc
    exact h.codes.called hc
  · intro c hc
    change (update k.pc p .exitParent c).ended = true at hc
    change k.passed c = some ((k.exitOwn p code).pcb c).exitCode
    by_cases heq : c = p
    · subst heq
      rw [hself]
      exact h.codes.called hp
    · rw [hplace heq] at hc
      rw [hother heq]
      exact h.codes.stored hc
  · intro e he
    have hsame : ((k.exitOwn p code).goto p .exitParent).pcb e.child = k.pcb e.child := hother (hlogged he)
    rw [hsame]
    exact h.codes.logged he

/-- The section under the lock of the parent changes one table, and may wake the parent. -/
theorem exitParent_fields (parent q : Nat) : ((k.exitParent p parent).pcb q).id = (k.pcb q).id ∧
    ((k.exitParent p parent).pcb q).parent = (k.pcb q).parent ∧ ((k.exitParent p parent).pcb q).exited = (k.pcb q).exited ∧
    ((k.exitParent p parent).pcb q).exitCode = (k.pcb q).exitCode ∧
    ((k.exitParent p parent).pcb q).waitingChildPid = (k.pcb q).waitingChildPid ∧
    ((k.exitParent p parent).pcb q).waitingThreadNode = (k.pcb q).waitingThreadNode ∧
    ((k.exitParent p parent).pcb q).exitChildren =
      if q = parent then ((k.pcb parent).exitChildren.put (k.pcb p).id p).2 else (k.pcb q).exitChildren := by
  have hwake : ∀ (k : Processes) (n : Option Nat), (k.wake n).pcb = k.pcb := by
    intro k n
    cases n <;> rfl
  have hpcb : (k.exitParent p parent).pcb = update k.pcb parent { k.pcb parent with
      exitChildren := ((k.pcb parent).exitChildren.put (k.pcb p).id p).2 } := by
    rw [exitParent]
    dsimp only
    split_ifs
    · exact hwake ..
    · rfl
  rw [hpcb]
  by_cases hq : q = parent
  · subst hq
    simp
  · simp [hq]

theorem exitParent_rest (parent : Nat) : (k.exitParent p parent).created = k.created ∧
    (k.exitParent p parent).pool = k.pool ∧ (k.exitParent p parent).pc = k.pc ∧
    (k.exitParent p parent).deadProcesses = k.deadProcesses ∧ (k.exitParent p parent).passed = k.passed ∧
    (k.exitParent p parent).log = k.log ∧ (k.exitParent p parent).destroyed = k.destroyed ∧
    (k.exitParent p parent).blocked = if Notifies (k.pcb parent) (k.pcb p).id then
      (k.wake (k.pcb parent).waitingThreadNode).blocked else k.blocked := by
  simp only [exitParent]
  split_ifs with hn
  · cases (k.pcb parent).waitingThreadNode <;> exact ⟨rfl, rfl, rfl, rfl, rfl, rfl, rfl, rfl⟩
  · exact ⟨rfl, rfl, rfl, rfl, rfl, rfl, rfl, rfl⟩

theorem blocked_of_wake {n : Option Nat} {q : Nat} (h : (k.wake n).blocked q = true) : k.blocked q = true ∧ n ≠ some q := by
  cases n with
  | none => exact ⟨h, by simp⟩
  | some m =>
    change update k.blocked m false q = true at h
    have hne : q ≠ m := by
      rintro rfl
      rw [update_self] at h
      cases h
    rw [update_of_ne hne] at h
    exact ⟨h, by simpa using hne.symm⟩

theorem Tables.exitParent {parent : Nat} (h : Tables k) (hl : Lives k) (hp : k.pc p = .exitParent)
    (hparent : (k.pcb p).parent = some parent) : Tables ((k.exitParent p parent).goto p .exitThread) := by
  have hfields := exitParent_fields (k := k) (p := p) parent
  obtain ⟨-, -, hpc, -, -, hlog, -⟩ := exitParent_rest (k := k) (p := p) parent
  have hplace : ((k.exitParent p parent).goto p .exitThread).pc = update k.pc p .exitThread := by
    rw [← hpc]
    rfl
  have hcollected : ((k.exitParent p parent).goto p .exitThread).collected = k.collected :=
    congrArg (List.map Collected.child) hlog
  have huncol : p ∉ k.collected := hl.uncollected (by rw [hp]; rfl)
  have hcreated : p < k.created := (hl.acting (by simp [hp])).1
  obtain ⟨hvalid, -, hput⟩ := HashTable.put_spec (h.valid parent) (k.pcb p).id p
  refine ⟨?_, ?_, ?_⟩
  · intro q
    change ((k.exitParent p parent).pcb q).exitChildren.Valid
    rw [(hfields q).2.2.2.2.2.2]
    split_ifs
    · exact hvalid
    · exact h.valid q
  · intro q key c hc
    change ((k.exitParent p parent).pcb q).exitChildren.get key = some c at hc
    change ((k.exitParent p parent).pcb c).id = key ∧ ((k.exitParent p parent).pcb c).parent = some q ∧ _
    rw [(hfields c).1, (hfields c).2.1, hcollected, hplace]
    have hold : (k.pcb q).exitChildren.get key = some c ∨ q = parent ∧ key = (k.pcb p).id ∧ c = p := by
      rw [(hfields q).2.2.2.2.2.2] at hc
      split_ifs at hc with hq
      · rw [hput] at hc
        by_cases hkey : key = (k.pcb p).id
        · rw [hkey, update_self] at hc
          exact .inr ⟨hq, hkey, (Option.some.inj hc).symm⟩
        · rw [update_of_ne hkey] at hc
          exact .inl (hq ▸ hc)
      · exact .inl hc
    rcases hold with hold | ⟨rfl, rfl, rfl⟩
    · obtain ⟨hkey, hpar, hd, hcol⟩ := h.entry hold
      refine ⟨hkey, hpar, ?_, hcol⟩
      by_cases heq : c = p
      · rw [heq, update_self]
        rfl
      · rw [update_of_ne heq]
        exact hd
    · rw [update_self]
      exact ⟨rfl, hparent, rfl, huncol⟩
  · intro q c hpar hd halive hcol
    change ((k.exitParent p parent).pcb c).parent = some q at hpar
    change ((k.exitParent p parent).pcb q).exited = false at halive
    change ((k.exitParent p parent).pcb q).exitChildren.get ((k.exitParent p parent).pcb c).id = some c
    rw [(hfields c).2.1] at hpar
    rw [(hfields q).2.2.1] at halive
    rw [hplace] at hd
    rw [hcollected] at hcol
    rw [(hfields c).1, (hfields q).2.2.2.2.2.2]
    by_cases heq : c = p
    · subst heq
      rw [if_pos (Option.some.inj (hpar.symm.trans hparent)), hput, update_self]
    · rw [update_of_ne heq] at hd
      have hold := h.available hpar hd halive hcol
      split_ifs with hq
      · rw [hput, update_of_ne, ← hq]
        · exact hold
        · intro hid
          exact heq (hl.ids (hl.created_of_delivered hd) hcreated (hl.undestroyed hcol) (hl.undestroyed huncol) hid)
      · exact hold

theorem Sleeps.exitParent {parent : Nat} (h : Sleeps k) (ht : Tables k) (hp : k.pc p = .exitParent) :
    Sleeps ((k.exitParent p parent).goto p .exitThread) := by
  have hfields := exitParent_fields (k := k) (p := p) parent
  obtain ⟨-, -, hpc, -, -, -, -, hblocked⟩ := exitParent_rest (k := k) (p := p) parent
  have hwaits : ∀ q, (((k.exitParent p parent).goto p .exitThread).pc q).waiting = (k.pc q).waiting := by
    intro q
    change (update (k.exitParent p parent).pc p .exitThread q).waiting = _
    rw [hpc]
    exact apply_place _ _ _ ProcessPc.waiting (by rw [hp]; rfl) q
  refine ⟨?_, ?_⟩
  · intro q pid hq
    change ((k.exitParent p parent).pcb q).waitingThreadNode = some q ∧
      ((k.exitParent p parent).pcb q).waitingChildPid = if 0 < pid then pid else ((k.exitParent p parent).pcb q).id
    rw [(hfields q).1, (hfields q).2.2.2.2.1, (hfields q).2.2.2.2.2.1]
    exact h.looping ((hwaits q).symm.trans hq)
  · intro q hq
    change (k.exitParent p parent).blocked q = true at hq
    rw [hblocked] at hq
    have hold : k.blocked q = true ∧ (Notifies (k.pcb parent) (k.pcb p).id → (k.pcb parent).waitingThreadNode ≠ some q) := by
      split_ifs at hq with hn
      · exact ⟨(blocked_of_wake hq).1, fun _ => (blocked_of_wake hq).2⟩
      · exact ⟨hq, fun hn' => absurd hn' hn⟩
    obtain ⟨pid, hpid, hunsat⟩ := h.blocked hold.1
    refine ⟨pid, (hwaits q).trans hpid, ?_⟩
    change ¬ Satisfies ((k.exitParent p parent).pcb q).exitChildren pid
    rw [(hfields q).2.2.2.2.2.2]
    split_ifs with hq'
    · subst hq'
      obtain ⟨hnode, hwait⟩ := h.looping hpid
      have hn : ¬ Notifies (k.pcb q) (k.pcb p).id := fun hn => hold.2 hn hnode
      rw [Notifies, hwait, not_or] at hn
      have hpos : 0 < pid := by
        by_contra hzero
        rw [if_neg hzero] at hn
        exact hn.2 rfl
      rw [if_pos hpos] at hn
      obtain ⟨-, -, hput⟩ := HashTable.put_spec (ht.valid q) (k.pcb p).id p
      rintro ⟨key, child, hget, hor⟩
      obtain rfl : key = pid := hor.resolve_left (by omega)
      rw [hput, update_of_ne hn.1] at hget
      exact hunsat ⟨key, child, hget, .inr rfl⟩
    · exact hunsat

theorem ProcessInv.exitParent {parent : Nat} (h : ProcessInv k) (hp : k.pc p = .exitParent)
    (hparent : (k.pcb p).parent = some parent) : ProcessInv ((k.exitParent p parent).goto p .exitThread) := by
  have hfields := exitParent_fields (k := k) (p := p) parent
  obtain ⟨hcreated, hpool, hpc, hdead, hpassed, hlog, hdestroyed, -⟩ := exitParent_rest (k := k) (p := p) parent
  have hplace : ((k.exitParent p parent).goto p .exitThread).pc = update k.pc p .exitThread := by
    rw [← hpc]
    rfl
  refine ⟨?_, h.tables.exitParent h.lives hp hparent, h.sleeps.exitParent h.tables hp, ?_⟩
  · exact h.lives.goto hpool hcreated (fun q => (hfields q).1) (fun {q _} hq => .inl ((hfields q).2.1 ▸ hq))
      (congrArg (List.map Collected.child) hlog) hdead hdestroyed hplace (by simp [hp]) (.inl rfl) rfl fun _ => rfl
  · exact h.codes.frame hpassed hlog (fun {q} _ => ⟨(hfields q).2.2.2.1, (hfields q).2.1, (hfields q).1⟩) h.lives hplace
      (by simp) fun _ => by rw [hp]; rfl

end Processes

end LuckOS
