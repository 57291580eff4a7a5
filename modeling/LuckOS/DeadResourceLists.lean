import LuckOS.DeadResources

/-!
# The invariant of the dead resources

The nodes that the lists hold while one of them is being changed, and which thread holds the lock.
-/

namespace LuckOS

open Function Runs

namespace DeadResources

variable {q q' b : Queues DeadList Nat} {contents : DeadList → List Nat} {i j : DeadList} {n t : Nat} {ys : List Nat}
  {stage stage' : AppendStage} {s : DeadResources} {p : Producer} {c : Cleaner} {a : Action} {k : Kind}
  {holder : Option Thread} {waiting foreignUnlock : Bool}

/-! ## Lists one of which is being changed -/

theorem represents_congr {links links' : Links Nat} {list : DeadList → LinkedList Nat}
    (h : Queues.Represents ⟨links, list⟩ contents)
    (hsame : ∀ i, ∀ m ∈ contents i, Links.SameAt links links' m) :
    Queues.Represents ⟨links', list⟩ contents :=
  ⟨fun i => (h.holds i).congr (hsame i), h.apart⟩

/-- The lists in the middle of `linked_list_append` to one of them. -/
structure AppendingIn (q : Queues DeadList Nat) (contents : DeadList → List Nat) (i : DeadList)
    (n : Nat) (stage : AppendStage) : Prop where
  partly : Appending q.links (q.list i) (contents i) n stage
  others : (setList q i .init).Represents (update contents i [])
  fresh : ∀ j, n ∉ contents j
  apart : ∀ m ∈ contents i, ∀ j, j ≠ i → m ∉ contents j

theorem represents_without (h : q.Represents contents) (i : DeadList) :
    (setList q i .init).Represents (update contents i []) := by
  refine ⟨fun j => ?_, fun {j l m} hj hl => ?_⟩
  · by_cases hj : j = i
    · rw [hj, setList_list, update_self]
      exact LinkedList.holds_init
    · rw [setList_list_of_ne hj, update_of_ne hj]
      exact h.holds j
  · by_cases hji : j = i
    · rw [hji, update_self] at hj
      cases hj
    · by_cases hli : l = i
      · rw [hli, update_self] at hl
        cases hl
      · rw [update_of_ne hji] at hj
        rw [update_of_ne hli] at hl
        exact h.apart hj hl

theorem AppendingIn.start (h : q.Represents contents) (hn : ∀ j, n ∉ contents j) :
    AppendingIn q contents i n .setNext where
  partly := ⟨q.links, q.list i, h.holds i, trivial, rfl, fun m _ => .refl q.links m⟩
  others := represents_without h i
  fresh := hn
  apart := fun _ hm _ hj hm' => hj (h.apart hm' hm)

/-- The nodes of the other lists are not touched. -/
theorem AppendingIn.outside (h : AppendingIn q contents i n stage) (hj : j ≠ i) {m : Nat}
    (hm : m ∈ contents j) : m ∉ n :: contents i := by
  intro hmem
  rcases List.mem_cons.mp hmem with rfl | hmem
  · exact h.fresh j hm
  · exact h.apart m hmem j hj hm

theorem AppendingIn.others_local (h : AppendingIn q contents i n stage)
    (hlocal : Local i (n :: contents i) q q') :
    (setList q' i .init).Represents (update contents i []) := by
  have hlist : update q'.list i .init = update q.list i .init := by
    funext j
    by_cases hj : j = i
    · rw [hj, update_self, update_self]
    · rw [update_of_ne hj, update_of_ne hj, hlocal.list j hj]
  have hothers : Queues.Represents ⟨q.links, update q.list i .init⟩ (update contents i []) := h.others
  rw [setList, hlist]
  refine represents_congr hothers fun j m hm => hlocal.links m ?_
  by_cases hj : j = i
  · rw [hj, update_self] at hm
    cases hm
  · rw [update_of_ne hj] at hm
    exact h.outside hj hm

theorem AppendingIn.step (h : AppendingIn q contents i n stage)
    (hstep : appendStep q i n stage = (q', some stage')) :
    AppendingIn q' contents i n stage' := by
  obtain ⟨hpartly, hlocal⟩ := h.partly.step hstep
  exact ⟨hpartly, h.others_local hlocal, h.fresh, h.apart⟩

theorem AppendingIn.finish (h : AppendingIn q contents i n stage)
    (hstep : appendStep q i n stage = (q', none)) :
    q'.Represents (update contents i (contents i ++ [n])) := by
  obtain ⟨hholds, hlocal⟩ := h.partly.finish (h.fresh i) hstep
  have hothers := h.others_local hlocal
  refine ⟨fun j => ?_, fun {j l m} hj hl => ?_⟩
  · by_cases hj : j = i
    · rw [hj, update_self]
      exact hholds
    · have hlist := hothers.holds j
      rw [setList_list_of_ne hj, update_of_ne hj] at hlist
      rw [update_of_ne hj]
      exact hlist
  · have hmem : ∀ x, m ∈ update contents i (contents i ++ [n]) x → x ≠ i → m ∉ n :: contents i := by
      intro x hx hne
      rw [update_of_ne hne] at hx
      exact h.outside hne hx
    have hself : m ∈ update contents i (contents i ++ [n]) i → m ∈ n :: contents i := by
      rw [update_self, List.mem_append, List.mem_singleton, List.mem_cons]
      exact Or.symm
    by_cases hji : j = i
    · subst hji
      by_contra hne
      exact hmem l hl (Ne.symm hne) (hself hj)
    · by_cases hli : l = i
      · subst hli
        exact absurd (hself hl) (hmem j hj hji)
      · have hj' : m ∈ update contents i [] j := by
          rw [update_of_ne hji] at hj ⊢
          exact hj
        have hl' : m ∈ update contents i [] l := by
          rw [update_of_ne hli] at hl ⊢
          exact hl
        exact hothers.apart hj' hl'

theorem AppendingIn.disjoint (h : AppendingIn q contents i n stage) {l : DeadList} {m : Nat}
    (hj : m ∈ contents j) (hl : m ∈ contents l) :
    j = l := by
  by_cases hji : j = i
  · subst hji
    by_contra hne
    exact h.apart m hj l (Ne.symm hne) hl
  · by_cases hli : l = i
    · subst hli
      exact absurd hj (h.apart m hl j hji)
    · have hj' : m ∈ update contents i [] j := by rwa [update_of_ne hji]
      have hl' : m ∈ update contents i [] l := by rwa [update_of_ne hli]
      exact h.others.apart hj' hl'

/-- Another list loses its first node. -/
theorem AppendingIn.remove (h : AppendingIn q contents i n stage) (hj : j ≠ i) {m : Nat}
    (hm : contents j = m :: ys) :
    AppendingIn (q.remove j m) (update contents j ys) i n stage := by
  have hcontents : update contents i [] j = [] ++ m :: ys := by
    rw [update_of_ne hj]
    exact hm
  have hremoved := h.others.remove hcontents
  have hlist : (setList q i .init).list j = q.list j := setList_list_of_ne hj ..
  have hholds : LinkedList.Holds q.links (q.list j) ([] ++ m :: ys) := by
    have hother := h.others.holds j
    rw [hcontents, hlist] at hother
    exact hother
  have hfirst : ∀ x, x ∈ update contents j ys i ↔ x ∈ contents i := by
    intro x
    rw [update_of_ne hj.symm]
  have hsub : ∀ x l, x ∈ update contents j ys l → x ∈ contents l := by
    intro x l hx
    by_cases hl : l = j
    · rw [hl, update_self] at hx
      rw [hl, hm]
      exact List.mem_cons_of_mem m hx
    · rwa [update_of_ne hl] at hx
  refine ⟨?_, ?_, fun l hl => h.fresh l (hsub n l hl),
    fun x hx l hl hxl => h.apart x ((hfirst x).mp hx) l hl (hsub x l hxl)⟩
  · obtain ⟨k₀, l₀, hold, hloaded, hpartial, hsame⟩ := h.partly
    have hsamelist : (q.remove j m).list i = q.list i := update_of_ne hj.symm ..
    rw [hsamelist, update_of_ne hj.symm]
    refine ⟨k₀, l₀, hold, hloaded, hpartial, fun x hx => (hsame x hx).trans ?_⟩
    refine LinkedList.remove_sameAt hholds fun hmem => ?_
    have hother : x ∈ contents j := hm ▸ hmem
    exact h.outside hj hother hx
  · have hqueues : setList (q.remove j m) i .init = (setList q i .init).remove j m := by
      rw [Queues.remove, Queues.remove, hlist, setList, setList, Queues.set, Queues.set, update_comm hj]
    have hupdate : update (update contents j ys) i [] =
      update (update contents i []) j ([] ++ ys) := update_comm hj ..
    rw [hqueues, hupdate]
    exact hremoved

/-! ## The invariant -/

/-- The nodes in the lists, between the accesses of a thread also those from before. -/
structure Contents (s : DeadResources) (contents : DeadList → List Nat) : Prop where
  account : ∀ k, s.appended k = s.destroyed k ++ (contents (.receiver k)).map s.ptr ++
    (contents (.dead k)).map s.ptr
  inUse : ∀ i n, n ∈ contents i → s.inUse n = true
  received : ∀ k, s.cleaner.received k = false → contents (.receiver k) = []
  quiet : s.Quiet → s.queues.Represents contents
  setPtr : ∀ t k r n, s.producer t = .setPtr k r n → s.inUse n = true ∧ ∀ i, n ∉ contents i
  appending : ∀ t k r n st, s.producer t = .append k r n st →
    s.ptr n = r ∧ s.inUse n = true ∧ AppendingIn s.queues contents (.dead k) n st
  moving : ∀ k st, s.cleaner = .move k st → ∃ b : Queues DeadList Nat, b.Represents contents ∧
    Moving b s.queues (.receiver k) (.dead k) st

/-- The lock is held by the thread that is in a section under it, and by none while the clean thread moves
the lists. -/
structure Locked (producer : Nat → Producer) (cleaner : Cleaner) (holder : Option Thread) : Prop where
  producers : ∀ t, (producer t).inside = true ↔ holder = some (.producer t)
  cleaning : cleaner.holds = true ↔ holder = some .cleaner
  unprotected : cleaner.unprotected = true → holder = none

structure Inv (s : DeadResources) : Prop where
  locked : Locked s.producer s.cleaner s.holder
  lists : ∃ contents, Contents s contents

/-- The code is not between the accesses of `linked_list_append`, nor just behind `kmalloc`. -/
def Producer.Calm (p : Producer) : Prop :=
  (∀ k r n st, p ≠ .append k r n st) ∧ ∀ k r n, p ≠ .setPtr k r n

/-- A producer goes on and leaves the lists alone. -/
theorem Contents.goto (h : Contents s contents) (hold : ∀ k r n st, s.producer t ≠ .append k r n st)
    (hp : p.Calm) :
    Contents { s with producer := update s.producer t p, holder := holder, waiting := waiting, foreignUnlock := foreignUnlock }
      contents := by
  have hother : ∀ x, x ≠ t → update s.producer t p x = s.producer x := fun x hx => update_of_ne hx ..
  refine ⟨h.account, h.inUse, h.received, fun hquiet => h.quiet ⟨fun x k r n st => ?_, hquiet.2⟩,
    fun x k r n hx => ?_,
    fun x k r n st hx => ?_, h.moving⟩
  · by_cases hxt : x = t
    · rw [hxt]
      exact hold k r n st
    · rw [← hother x hxt]
      exact hquiet.1 x k r n st
  · by_cases hxt : x = t
    · subst hxt
      exact absurd ((update_self ..).symm.trans hx) (hp.2 k r n)
    · exact h.setPtr x k r n ((hother x hxt).symm.trans hx)
  · by_cases hxt : x = t
    · subst hxt
      exact absurd ((update_self ..).symm.trans hx) (hp.1 k r n st)
    · exact h.appending x k r n st ((hother x hxt).symm.trans hx)

/-- The clean thread goes on and leaves the lists alone. -/
theorem Contents.pass (h : Contents s contents) (hold : ∀ k st, s.cleaner ≠ .move k st)
    (hc : ∀ k st, c ≠ .move k st)
    (hreceived : ∀ k, c.received k = false → contents (.receiver k) = []) :
    Contents { s with cleaner := c, holder := holder, waiting := waiting, foreignUnlock := foreignUnlock } contents :=
  ⟨h.account, h.inUse, hreceived, fun hquiet => h.quiet ⟨hquiet.1, hold⟩, h.setPtr, h.appending,
    fun k st heq => absurd heq (hc k st)⟩

/-! ## The lock -/

namespace Locked

variable {producer : Nat → Producer} {cleaner : Cleaner}

theorem goto (h : Locked producer cleaner holder) (hp : p.inside = (producer t).inside) :
    Locked (update producer t p) cleaner holder := by
  refine ⟨fun x => ?_, h.cleaning, h.unprotected⟩
  by_cases hx : x = t
  · subst hx
    rw [update_self, hp]
    exact h.producers x
  · rw [update_of_ne hx]
    exact h.producers x

theorem acquire (h : Locked producer cleaner none) (hfree : cleaner.unprotected ≠ true)
    (hp : p.inside = true) :
    Locked (update producer t p) cleaner (some (.producer t)) := by
  refine ⟨fun x => ?_, ⟨fun hholds => (nomatch h.cleaning.mp hholds), nofun⟩,
    fun hun => absurd hun hfree⟩
  by_cases hx : x = t
  · subst hx
    rw [update_self]
    exact iff_of_true hp rfl
  · rw [update_of_ne hx]
    refine ⟨fun hinside => (nomatch (h.producers x).mp hinside), fun heq => ?_⟩
    exact absurd (Thread.producer.inj (Option.some.inj heq)).symm hx

theorem release (h : Locked producer cleaner (some (.producer t))) (hp : p.inside = false) :
    Locked (update producer t p) cleaner none := by
  refine ⟨fun x => ?_, ⟨fun hholds => (nomatch h.cleaning.mp hholds), nofun⟩, fun _ => rfl⟩
  by_cases hx : x = t
  · subst hx
    rw [update_self, hp]
    exact ⟨nofun, nofun⟩
  · rw [update_of_ne hx]
    refine ⟨fun hinside => ?_, nofun⟩
    exact absurd (Thread.producer.inj (Option.some.inj ((h.producers x).mp hinside))).symm hx

theorem pass (h : Locked producer cleaner holder) (hholds : c.holds = cleaner.holds)
    (hfree : c.unprotected = true → holder = none) :
    Locked producer c holder := ⟨h.producers, by rw [hholds]; exact h.cleaning, hfree⟩

theorem pass_acquire (h : Locked producer cleaner none) (hholds : c.holds = true)
    (hfree : c.unprotected = false) :
    Locked producer c (some .cleaner) := by
  refine ⟨fun x => ⟨fun hinside => (nomatch (h.producers x).mp hinside), nofun⟩,
    iff_of_true hholds rfl, fun hun => ?_⟩
  rw [hfree] at hun
  cases hun

theorem pass_release (h : Locked producer cleaner (some .cleaner)) (hholds : c.holds = false) :
    Locked producer c none := by
  refine ⟨fun x => ⟨fun hinside => (nomatch (h.producers x).mp hinside), nofun⟩,
    ⟨fun hc => ?_, nofun⟩, fun _ => rfl⟩
  rw [hholds] at hc
  cases hc

end Locked

/-- The holder of the lock is the only thread that may be changing a list. -/
theorem Inv.quiet_producer (h : Inv s) (hinside : (s.producer t).inside = true)
    (hnot : ∀ k r n st, s.producer t ≠ .append k r n st) :
    s.Quiet := by
  have hholder := (h.locked.producers t).mp hinside
  refine ⟨fun x k r n st hx => ?_, fun k st hmove => ?_⟩
  · have hx' : s.holder = some (.producer x) := (h.locked.producers x).mp (by rw [hx]; rfl)
    obtain rfl := Thread.producer.inj (Option.some.inj (hholder.symm.trans hx'))
    exact hnot k r n st hx
  · have hfree := h.locked.unprotected (by rw [hmove]; rfl)
    rw [hholder] at hfree
    cases hfree

theorem Inv.no_append (h : Inv s) (hholder : ∀ t, s.holder ≠ some (.producer t)) (t : Nat)
    (k : Kind) (r n : Nat) (st : AppendStage) :
    s.producer t ≠ .append k r n st :=
  fun ht => hholder t ((h.locked.producers t).mp (by rw [ht]; rfl))

end DeadResources

end LuckOS
