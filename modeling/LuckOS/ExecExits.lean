import LuckOS.ExecTables

/-!
# The arguments of `process_exit`

The exit code that a thread has passed is kept on its way through the two sections of `process_exit`.
-/

namespace LuckOS

open Function Runs

namespace ExecThreads

variable {t u created : Nat} {p : ExecPc} {threads : HashTable Nat} {k k' : ExecThreads} {code : Int}

/-- A thread that has called `process_exit` is on its way, and the code is stored and delivered
behind the two sections. -/
structure Exits (k : ExecThreads) : Prop where
  called : ∀ {t code}, (k.pc t).argument = some code → k.passed t = some code
  exiting : ∀ {t code}, k.passed t = some code → (k.pc t).exiting code = true
  ended : ∀ {t code}, k.passed t = some code → (k.pc t).ended = true → k.exited = true ∧ k.exitCode = code
  delivered : ∀ {t code}, k.passed t = some code → (k.pc t).delivered = true → k.exitChildren.get k.pid = some k.pid
  finished : k.exited = true → ∀ u, (k.pc u).active = false
  valid : k.exitChildren.Valid

/-- A thread goes on outside of the two sections. -/
theorem Exits.move (h : Exits k) (hpc : k'.pc = update k.pc t p) (hpassed : k'.passed = k.passed)
    (hexited : k'.exited = k.exited) (hcode : k'.exitCode = k.exitCode) (hchildren : k'.exitChildren = k.exitChildren)
    (hpid : k'.pid = k.pid) (hactive : p.active = true → (k.pc t).active = true ∨ k.exited = false)
    (harg : p.argument = none ∨ p.argument = (k.pc t).argument)
    (hexit : ∀ code, (k.pc t).exiting code = true → p.exiting code = true ∧ (p.ended = true → (k.pc t).ended = true) ∧
      (p.delivered = true → (k.pc t).delivered = true)) : Exits k' := by
  refine ⟨?_, ?_, ?_, ?_, ?_, hchildren ▸ h.valid⟩
  · intro u code hu
    rw [hpc] at hu
    rw [hpassed]
    refine h.called ?_
    by_cases heq : u = t
    · rw [heq, update_self] at hu
      rw [heq]
      rcases harg with hnone | hsame
      · rw [hnone] at hu
        cases hu
      · exact hsame.symm.trans hu
    · rwa [update_of_ne heq] at hu
  · intro u code hu
    rw [hpassed] at hu
    have hold := h.exiting hu
    rw [hpc]
    by_cases heq : u = t
    · rw [heq, update_self]
      exact (hexit code (heq ▸ hold)).1
    · rwa [update_of_ne heq]
  · intro u code hu hended
    rw [hpassed] at hu
    rw [hexited, hcode]
    refine h.ended hu ?_
    rw [hpc] at hended
    by_cases heq : u = t
    · rw [heq, update_self] at hended
      rw [heq]
      exact (hexit code (heq ▸ h.exiting hu)).2.1 hended
    · rwa [update_of_ne heq] at hended
  · intro u code hu hdel
    rw [hpassed] at hu
    rw [hchildren, hpid]
    refine h.delivered hu ?_
    rw [hpc] at hdel
    by_cases heq : u = t
    · rw [heq, update_self] at hdel
      rw [heq]
      exact (hexit code (heq ▸ h.exiting hu)).2.2 hdel
    · rwa [update_of_ne heq] at hdel
  · intro hover u
    rw [hexited] at hover
    rw [hpc]
    by_cases heq : u = t
    · rw [heq, update_self, ← Bool.not_eq_true]
      intro hp
      rcases hactive hp with hold | hnot
      · rw [h.finished hover t] at hold
        cases hold
      · rw [hnot] at hover
        cases hover
    · rw [update_of_ne heq]
      exact h.finished hover u

/-- The call of `process_exit`. -/
theorem Exits.callExit (h : Exits k) (hactive : (k.pc t).active = true) (code : Int) (load : Bool) :
    Exits (k.callExit t code load) := by
  have hself : update k.pc t (.exitLock code load) t = .exitLock code load := update_self ..
  have hothers : ∀ {u}, u ≠ t → update k.pc t (.exitLock code load) u = k.pc u := fun hu => update_of_ne hu ..
  refine ⟨?_, ?_, ?_, ?_, ?_, h.valid⟩
  · intro u c hu
    change (update k.pc t (.exitLock code load) u).argument = some c at hu
    change update k.passed t (some code) u = some c
    by_cases heq : u = t
    · rw [heq, hself] at hu
      rw [heq, update_self]
      exact hu
    · rw [hothers heq] at hu
      rw [update_of_ne heq]
      exact h.called hu
  · intro u c hu
    change update k.passed t (some code) u = some c at hu
    change (update k.pc t (.exitLock code load) u).exiting c = true
    by_cases heq : u = t
    · subst heq
      rw [update_self] at hu
      rw [hself]
      exact decide_eq_true (Option.some.inj hu)
    · rw [update_of_ne heq] at hu
      rw [hothers heq]
      exact h.exiting hu
  · intro u c hu hended
    change update k.passed t (some code) u = some c at hu
    change (update k.pc t (.exitLock code load) u).ended = true at hended
    have heq : u ≠ t := by
      rintro rfl
      rw [hself] at hended
      cases hended
    rw [update_of_ne heq] at hu
    rw [hothers heq] at hended
    exact h.ended hu hended
  · intro u c hu hdel
    change update k.passed t (some code) u = some c at hu
    change (update k.pc t (.exitLock code load) u).delivered = true at hdel
    have heq : u ≠ t := by
      rintro rfl
      rw [hself] at hdel
      cases hdel
    rw [update_of_ne heq] at hu
    rw [hothers heq] at hdel
    exact h.delivered hu hdel
  · intro hover u
    change k.exited = true at hover
    have hold := h.finished hover t
    rw [hactive] at hold
    cases hold

/-- The section under the lock of the process. -/
theorem Exits.own (h : Exits k) (hm : Members k.pc created threads) (hp : k.pc t = .exitOwn code)
    (hpc : k'.pc = update k.pc t .exitUnlock) (hpassed : k'.passed = k.passed) (hexited : k'.exited = true)
    (hcode : k'.exitCode = code) (hchildren : k'.exitChildren = k.exitChildren) (hpid : k'.pid = k.pid) : Exits k' := by
  have hactive : (k.pc t).active = true := by rw [hp]; rfl
  have hnot : k.exited ≠ true := by
    intro hover
    have hold := h.finished hover t
    rw [hactive] at hold
    cases hold
  refine ⟨?_, ?_, ?_, ?_, ?_, hchildren ▸ h.valid⟩
  · intro u c hu
    rw [hpc] at hu
    rw [hpassed]
    refine h.called ?_
    by_cases heq : u = t
    · rw [heq, update_self] at hu
      cases hu
    · rwa [update_of_ne heq] at hu
  · intro u c hu
    rw [hpassed] at hu
    rw [hpc]
    by_cases heq : u = t
    · rw [heq, update_self]
      rfl
    · rw [update_of_ne heq]
      exact h.exiting hu
  · intro u c hu hended
    rw [hpassed] at hu
    rw [hpc] at hended
    rw [hcode]
    by_cases heq : u = t
    · subst heq
      have hexit := h.exiting hu
      rw [hp] at hexit
      exact ⟨hexited, of_decide_eq_true hexit⟩
    · rw [update_of_ne heq] at hended
      exact absurd (h.ended hu hended).1 hnot
  · intro u c hu hdel
    rw [hpassed] at hu
    rw [hpc] at hdel
    rw [hchildren, hpid]
    by_cases heq : u = t
    · rw [heq, update_self] at hdel
      cases hdel
    · rw [update_of_ne heq] at hdel
      exact h.delivered hu hdel
  · intro _ u
    rw [hpc]
    by_cases heq : u = t
    · rw [heq, update_self]
      rfl
    · rw [update_of_ne heq, ← Bool.not_eq_true]
      exact fun hu => heq (hm.sole hu hactive)

/-- The section under the lock of the parent. -/
theorem Exits.deliver (h : Exits k) (hp : k.pc t = .exitParent) :
    Exits { k.goto t .exitThread with exitChildren := (k.exitChildren.put k.pid k.pid).2 } := by
  obtain ⟨hvalid, -, hget⟩ := HashTable.put_spec h.valid k.pid k.pid
  refine ⟨?_, ?_, ?_, ?_, ?_, hvalid⟩
  · intro u c hu
    change (update k.pc t .exitThread u).argument = some c at hu
    refine h.called ?_
    by_cases heq : u = t
    · rw [heq, update_self] at hu
      cases hu
    · rwa [update_of_ne heq] at hu
  · intro u c hu
    change k.passed u = some c at hu
    change (update k.pc t .exitThread u).exiting c = true
    by_cases heq : u = t
    · rw [heq, update_self]
      rfl
    · rw [update_of_ne heq]
      exact h.exiting hu
  · intro u c hu hended
    refine h.ended hu ?_
    change (update k.pc t .exitThread u).ended = true at hended
    by_cases heq : u = t
    · rw [heq, hp]
      rfl
    · rwa [update_of_ne heq] at hended
  · intro u c _ _
    change (k.exitChildren.put k.pid k.pid).2.get k.pid = some k.pid
    rw [hget, update_self]
  · intro hover u
    change (update k.pc t .exitThread u).active = false
    by_cases heq : u = t
    · rw [heq, update_self]
      rfl
    · rw [update_of_ne heq]
      exact h.finished hover u

end ExecThreads

end LuckOS
