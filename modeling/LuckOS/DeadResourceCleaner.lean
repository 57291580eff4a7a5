import LuckOS.DeadResourceProducers

/-!
# The clean thread

The clean thread moves the lists, and destroys what it has received in this order.
-/

namespace LuckOS

open Function Runs

namespace DeadResources

variable {q b : Queues DeadList Nat} {contents : DeadList → List Nat} {i j : DeadList} {n t : Nat} {ys : List Nat}
  {s s' : DeadResources} {c : Cleaner} {a : Action} {k : Kind} {waiting : Bool}

/-- Either no list is being changed, or a producer appends to one of them. -/
theorem Contents.cases (h : Contents s contents) (hfree : ∀ k st, s.cleaner ≠ .move k st) :
    s.queues.Represents contents ∨ ∃ k n st, AppendingIn s.queues contents (.dead k) n st := by
  by_cases happend : ∃ t k r n st, s.producer t = .append k r n st
  · obtain ⟨t, k, r, n, st, ht⟩ := happend
    exact .inr ⟨k, n, st, (h.appending t k r n st ht).2.2⟩
  · exact .inl (h.quiet ⟨fun t k r n st ht => happend ⟨t, k, r, n, st, ht⟩, hfree⟩)

theorem Contents.receiver_holds (h : Contents s contents) (hfree : ∀ k st, s.cleaner ≠ .move k st)
    (k : Kind) :
    LinkedList.Holds s.queues.links (s.queues.list (.receiver k)) (contents (.receiver k)) := by
  rcases h.cases hfree with hrep | ⟨k', n, st, happending⟩
  · exact hrep.holds _
  · have hne : DeadList.receiver k ≠ .dead k' := nofun
    have hholds := happending.others.holds (.receiver k)
    rw [setList_list_of_ne hne, update_of_ne hne] at hholds
    exact hholds

theorem Contents.disjoint (h : Contents s contents) (hfree : ∀ k st, s.cleaner ≠ .move k st)
    {m : Nat} (hi : m ∈ contents i)
    (hj : m ∈ contents j) : i = j := by
  rcases h.cases hfree with hrep | ⟨k', n, st, happending⟩
  · exact hrep.apart hi hj
  · exact happending.disjoint hi hj

/-- The first received resource is destroyed. -/
theorem Inv.destroyed (h : Inv s) (hc : s.cleaner = .clean k)
    (hhead : (s.queues.list (.receiver k)).head = some n) :
    Inv { s with
      queues := s.queues.remove (.receiver k) n
      destroyed := update s.destroyed k (s.destroyed k ++ [s.ptr n])
      inUse := update s.inUse n false } := by
  obtain ⟨hlocked, contents, hcontents⟩ := h
  have hfree : ∀ k st, s.cleaner ≠ .move k st := by
    rw [hc]
    exact nofun
  have hholds := hcontents.receiver_holds hfree k
  obtain ⟨ys, hys⟩ : ∃ ys, contents (.receiver k) = n :: ys := by
    have hfirst := hholds.head.symm.trans hhead
    cases hlist : contents (.receiver k) with
    | nil =>
      rw [hlist] at hfirst
      cases hfirst
    | cons m ys =>
      rw [hlist] at hfirst
      exact ⟨ys, by rw [Option.some.inj hfirst]⟩
  have hmem : n ∈ contents (.receiver k) := hys ▸ List.mem_cons_self
  have hdead : ∀ k', update contents (.receiver k) ys (.dead k') = contents (.dead k') := by
    intro k'
    have hne : DeadList.dead k' ≠ .receiver k := nofun
    exact update_of_ne hne ..
  have hother : ∀ {k'}, k' ≠ k → update contents (.receiver k) ys (.receiver k') =
    contents (.receiver k') :=
    fun hk => update_of_ne (fun heq => hk (DeadList.receiver.inj heq)) ..
  have hused : ∀ m, s.inUse m = true → m ≠ n → update s.inUse n false m = true :=
    fun m hm hne => (update_of_ne hne ..).trans hm
  have hsub : ∀ i m, m ∈ update contents (.receiver k) ys i → m ∈ contents i ∧ m ≠ n := by
    intro i m hm
    by_cases hi : i = .receiver k
    · subst hi
      rw [update_self] at hm
      have hnodup := hholds.nodup
      rw [hys] at hnodup ⊢
      exact ⟨List.mem_cons_of_mem n hm, fun heq => (List.nodup_cons.mp hnodup).1 (heq ▸ hm)⟩
    · rw [update_of_ne hi] at hm
      exact ⟨hm, fun heq => hi (hcontents.disjoint hfree (heq ▸ hm) hmem)⟩
  have hreceived : ∀ k', s.cleaner.received k' = false → k' ≠ k := by
    rintro k' hk' rfl
    rw [hc] at hk'
    cases k' <;> cases hk'
  refine ⟨hlocked, update contents (.receiver k) ys, fun k' => ?_, fun i m hm => ?_,
    fun k' hk' => ?_, fun hquiet => ?_,
    fun x k' r' n' hx => ?_, fun x k' r' n' st' hx => ?_, fun k' st hmove => absurd hmove (hfree k' st)⟩
  · show s.appended k' = update s.destroyed k (s.destroyed k ++ [s.ptr n]) k' ++
      (update contents (.receiver k) ys (.receiver k')).map s.ptr ++
      (update contents (.receiver k) ys (.dead k')).map s.ptr
    rw [hdead, hcontents.account k']
    by_cases hk : k' = k
    · subst hk
      rw [update_self, update_self, hys, List.map_cons, List.append_assoc _ [s.ptr n],
        List.singleton_append]
    · rw [update_of_ne hk, hother hk]
  · obtain ⟨hold, hne⟩ := hsub i m hm
    exact hused m (hcontents.inUse i m hold) hne
  · rw [hother (hreceived k' hk')]
    exact hcontents.received k' hk'
  · have hfirst : contents (.receiver k) = [] ++ n :: ys := hys
    exact (hcontents.quiet hquiet).remove hfirst
  · obtain ⟨hn', hfresh⟩ := hcontents.setPtr x k' r' n' hx
    exact ⟨hused n' hn' fun heq => hfresh _ (heq ▸ hmem), fun i hi => hfresh i (hsub i n' hi).1⟩
  · obtain ⟨hptr, hn', happending⟩ := hcontents.appending x k' r' n' st' hx
    have hne : DeadList.receiver k ≠ .dead k' := nofun
    exact ⟨hptr, hused n' hn' fun heq => happending.fresh _ (heq ▸ hmem), happending.remove hne hys⟩

/-- While the lists are moved, no producer is in its section. -/
theorem Inv.none_inside (h : Inv s) (hun : s.cleaner.unprotected = true) (t : Nat) :
    (s.producer t).inside ≠ true := by
  intro hinside
  have hholder := (h.locked.producers t).mp hinside
  rw [h.locked.unprotected hun] at hholder
  cases hholder

theorem Cleaner.received_move (k k' : Kind) (st st' : MoveStage) :
    (Cleaner.move k st).received k' = (Cleaner.move k st').received k' := by
  cases k <;> cases k' <;> rfl

theorem Cleaner.received_move_self (k : Kind) (st : MoveStage) :
    (Cleaner.move k st).received k = false := by
  cases k <;> rfl

theorem received_afterMove {k k' : Kind} (st : MoveStage) (h : (afterMove k).received k' = false) :
    k' ≠ k ∧ (Cleaner.move k st).received k' = false := by
  cases k with
  | task =>
    cases k' with
    | task => cases h
    | process => exact ⟨nofun, rfl⟩
  | process => cases k' <;> cases h

theorem Inv.move (h : Inv s) {st st' : MoveStage} (hc : s.cleaner = .move k st)
    (hnext : moveStep s.queues (.receiver k) (.dead k) st = (q, some st')) :
    Inv { s with queues := q, cleaner := .move k st' } := by
  have houtside := h.none_inside (by rw [hc]; rfl)
  obtain ⟨hlocked, contents, hcontents⟩ := h
  obtain ⟨b, hrep, hmoving⟩ := hcontents.moving k st hc
  refine ⟨hlocked.pass (by rw [hc]; rfl) fun _ => hlocked.unprotected (by rw [hc]; rfl), contents,
    hcontents.account, hcontents.inUse,
    fun k' hk' => ?_, fun hquiet => absurd rfl (hquiet.2 k st'), hcontents.setPtr,
    fun x k' r n st hx => ?_, fun k' st'' hmove => ?_⟩
  · apply hcontents.received
    rw [hc]
    exact (Cleaner.received_move k k' st st').trans hk'
  · have hx' : s.producer x = .append k' r n st := hx
    exact absurd (by rw [hx']; rfl) (houtside x)
  · cases hmove
    exact ⟨b, hrep, hmoving.step nofun hnext⟩

/-- The received list is that of the dead resources. -/
theorem Inv.moved (h : Inv s) {st : MoveStage} (hc : s.cleaner = .move k st)
    (hlast : moveStep s.queues (.receiver k) (.dead k) st = (q, none)) :
    Inv { s with queues := q, cleaner := afterMove k } := by
  have houtside := h.none_inside (by rw [hc]; rfl)
  obtain ⟨hlocked, contents, hcontents⟩ := h
  obtain ⟨b, hrep, hmoving⟩ := hcontents.moving k st hc
  have hne : DeadList.receiver k ≠ .dead k := nofun
  have hempty : contents (.receiver k) = [] :=
    hcontents.received k (by rw [hc]; exact Cleaner.received_move_self k st)
  have hrep' : q.Represents (update (update contents (.receiver k) (contents (.dead k)))
    (.dead k) []) := by
    rw [hmoving.finish hne hlast]
    exact hrep.move hne
  have hreceiver : ∀ k', update (update contents (.receiver k) (contents (.dead k))) (.dead k) []
    (.receiver k') =
      if k' = k then contents (.dead k) else contents (.receiver k') := by
    intro k'
    have hdead : DeadList.receiver k' ≠ .dead k := nofun
    rw [update_of_ne hdead]
    split_ifs with hk
    · rw [hk, update_self]
    · exact update_of_ne (fun heq => hk (DeadList.receiver.inj heq)) ..
  have hdead : ∀ k', update (update contents (.receiver k) (contents (.dead k))) (.dead k) []
    (.dead k') =
      if k' = k then [] else contents (.dead k') := by
    intro k'
    have hreceiver : DeadList.dead k' ≠ .receiver k := nofun
    split_ifs with hk
    · rw [hk, update_self]
    · rw [update_of_ne (fun heq => hk (DeadList.dead.inj heq)), update_of_ne hreceiver]
  have hlocked' : Locked s.producer (afterMove k) s.holder :=
    hlocked.pass (by rw [hc]; cases k <;> rfl) fun _ => hlocked.unprotected (by rw [hc]; rfl)
  refine ⟨hlocked', update (update contents (.receiver k) (contents (.dead k))) (.dead k) [],
    fun k' => ?_, fun i m hm => ?_,
    fun k' hk' => ?_, fun _ => hrep', fun x k' r n hx => ?_, fun x k' r n st hx => ?_,
    fun k' st hmove => ?_⟩
  · show s.appended k' = s.destroyed k' ++
      (update (update contents (.receiver k) (contents (.dead k))) (.dead k) []
        (.receiver k')).map s.ptr ++
      (update (update contents (.receiver k) (contents (.dead k))) (.dead k) [] (.dead k')).map s.ptr
    rw [hreceiver, hdead, hcontents.account k']
    split_ifs with hk
    · rw [hk, hempty, List.map_nil, List.append_nil, List.append_nil]
    · rfl
  · cases i with
    | receiver k' =>
      rw [hreceiver] at hm
      split_ifs at hm
      · exact hcontents.inUse _ m hm
      · exact hcontents.inUse _ m hm
    | dead k' =>
      rw [hdead] at hm
      split_ifs at hm
      · cases hm
      · exact hcontents.inUse _ m hm
  · have hother := received_afterMove st hk'
    rw [hreceiver, if_neg hother.1]
    apply hcontents.received
    rw [hc]
    exact hother.2
  · have hx' : s.producer x = .setPtr k' r n := hx
    exact absurd (by rw [hx']; rfl) (houtside x)
  · have hx' : s.producer x = .append k' r n st := hx
    exact absurd (by rw [hx']; rfl) (houtside x)
  · cases k with
    | task =>
      cases hmove
      exact ⟨q, hrep', rfl, rfl, rfl, fun _ _ _ => rfl⟩
    | process => cases hmove

/-- The clean thread is in `cond_var_wait`. -/
def Cleaner.waits : Cleaner → Bool
  | lock | testProcesses | testTasks | wait | unlockWaiting | yield | unlockWait => true
  | _ => false

theorem Cleaner.waits_spec (h : c.waits = true) :
    (∀ k, c.received k = false) ∧ (∀ k st, c ≠ .move k st) ∧ c.unprotected = false := by
  cases c with
  | move k st => cases h
  | unlock => cases h
  | clean k => cases h
  | _ => exact ⟨fun _ => rfl, nofun, rfl⟩

/-- A step inside of `cond_var_wait` that leaves the lock alone. -/
theorem Inv.stays (h : Inv s) (hold : s.cleaner.waits = true) (hnew : c.waits = true)
    (hholds : c.holds = s.cleaner.holds) :
    Inv { s with cleaner := c, waiting := waiting } := by
  obtain ⟨hlocked, contents, hcontents⟩ := h
  obtain ⟨hreceived, hmove, -⟩ := Cleaner.waits_spec hold
  obtain ⟨-, hmove', hfree⟩ := Cleaner.waits_spec hnew
  refine ⟨hlocked.pass hholds fun hun => ?_, contents,
    hcontents.pass hmove hmove' fun k _ => hcontents.received k (hreceived k)⟩
  rw [hfree] at hun
  cases hun

/-- `cond_var_wait` returns with the lock released. -/
theorem Inv.returned (h : Inv s) (hc : s.cleaner = .unlockWait) :
    Inv { s.unlock .cleaner with cleaner := .move .task .head } := by
  have hholder : s.holder = some .cleaner := h.locked.cleaning.mp (by rw [hc]; rfl)
  have hquiet : s.Quiet := ⟨h.no_append fun t => by rw [hholder]; exact nofun, by rw [hc]; exact nofun⟩
  obtain ⟨hlocked, contents, hcontents⟩ := h
  have hreceived : ∀ k, contents (.receiver k) = [] := fun k => hcontents.received k (by rw [hc]; rfl)
  rw [hholder] at hlocked
  refine ⟨hlocked.pass_release rfl, contents, hcontents.account, hcontents.inUse,
    fun k _ => hreceived k, fun hnot => ?_, hcontents.setPtr,
    hcontents.appending, fun k st hmove => ?_⟩
  · exact absurd rfl (hnot.2 .task .head)
  · cases hmove
    exact ⟨s.queues, hcontents.quiet hquiet, rfl, rfl, rfl, fun _ _ _ => rfl⟩

/-- A received list is empty when its size is zero. -/
theorem Inv.emptied (h : Inv s) (hc : s.cleaner = .clean k)
    (hsize : (s.queues.list (.receiver k)).size = 0) :
    Inv { s with cleaner := afterClean k } := by
  obtain ⟨hlocked, contents, hcontents⟩ := h
  have hfree : ∀ k st, s.cleaner ≠ .move k st := by
    rw [hc]
    exact nofun
  have hempty := (hcontents.receiver_holds hfree k).size_eq_zero.mp hsize
  have hnext : ∀ k' st, afterClean k ≠ .move k' st := by
    cases k with
    | task => exact nofun
    | process => exact nofun
  refine ⟨hlocked.pass (by rw [hc]; cases k <;> rfl) (by cases k <;> exact nofun), contents,
    hcontents.pass hfree hnext fun k' hk' => ?_⟩
  cases k with
  | task =>
    cases k' with
    | task => exact hempty
    | process => cases hk'
  | process =>
    cases k' with
    | task => exact hcontents.received .task (by rw [hc]; rfl)
    | process => exact hempty

/-- A step of the clean thread keeps the invariant. -/
theorem Inv.clean (h : Inv s) (hstep : s.clean s.cleaner = some s') :
    Inv s' ∧ s'.foreignUnlock = (s.foreignUnlock || s.releases .clean) := by
  rw [releases]
  cases hc : s.cleaner with
  | lock =>
    rw [hc, DeadResources.clean] at hstep
    obtain rfl := Option.some.inj hstep
    split_ifs with hfree
    · obtain ⟨hlocked, contents, hcontents⟩ := h
      rw [hfree] at hlocked
      have hreceived : ∀ k, contents (.receiver k) = [] :=
        fun k => hcontents.received k (by rw [hc]; rfl)
      exact ⟨⟨hlocked.pass_acquire rfl rfl, contents,
        hcontents.pass (by rw [hc]; exact nofun) nofun fun k _ => hreceived k⟩,
        (Bool.or_false _).symm⟩
    · exact ⟨h, (Bool.or_false _).symm⟩
  | testProcesses =>
    have hwaits : s.cleaner.waits = true := by rw [hc]; rfl
    rw [hc, DeadResources.clean] at hstep
    obtain rfl := Option.some.inj hstep
    split_ifs with hsize
    · exact ⟨h.stays hwaits rfl (by rw [hc]; rfl), (Bool.or_false _).symm⟩
    · exact ⟨h.stays hwaits rfl (by rw [hc]; rfl), (Bool.or_false _).symm⟩
  | testTasks =>
    have hwaits : s.cleaner.waits = true := by rw [hc]; rfl
    rw [hc, DeadResources.clean] at hstep
    obtain rfl := Option.some.inj hstep
    split_ifs with hsize
    · exact ⟨h.stays hwaits rfl (by rw [hc]; rfl), (Bool.or_false _).symm⟩
    · exact ⟨h.stays hwaits rfl (by rw [hc]; rfl), (Bool.or_false _).symm⟩
  | wait =>
    have hwaits : s.cleaner.waits = true := by rw [hc]; rfl
    rw [hc, DeadResources.clean] at hstep
    obtain rfl := Option.some.inj hstep
    exact ⟨h.stays hwaits rfl (by rw [hc]; rfl), (Bool.or_false _).symm⟩
  | unlockWaiting =>
    rw [hc, DeadResources.clean] at hstep
    obtain rfl := Option.some.inj hstep
    obtain ⟨hlocked, contents, hcontents⟩ := h
    have hholder : s.holder = some .cleaner := hlocked.cleaning.mp (by rw [hc]; rfl)
    have hreceived : ∀ k, contents (.receiver k) = [] := fun k => hcontents.received k (by rw [hc]; rfl)
    rw [hholder] at hlocked
    exact ⟨⟨hlocked.pass_release rfl, contents,
      hcontents.pass (by rw [hc]; exact nofun) nofun fun k _ => hreceived k⟩,
      (unlock_own hholder).trans (Bool.or_false _).symm⟩
  | yield =>
    have hwaits : s.cleaner.waits = true := by rw [hc]; rfl
    rw [hc, DeadResources.clean] at hstep
    split_ifs at hstep
    obtain rfl := Option.some.inj hstep
    exact ⟨h.stays hwaits rfl (by rw [hc]; rfl), (Bool.or_false _).symm⟩
  | unlockWait =>
    rw [hc, DeadResources.clean] at hstep
    obtain rfl := Option.some.inj hstep
    exact ⟨h.returned hc, (unlock_own (h.locked.cleaning.mp (by rw [hc]; rfl))).trans
      (Bool.or_false _).symm⟩
  | move k st =>
    rw [hc, DeadResources.clean] at hstep
    cases hnext : moveStep s.queues (.receiver k) (.dead k) st with
    | mk q next =>
      rw [hnext] at hstep
      cases next with
      | some st' =>
        obtain rfl := Option.some.inj hstep
        exact ⟨h.move hc hnext, (Bool.or_false _).symm⟩
      | none =>
        obtain rfl := Option.some.inj hstep
        exact ⟨h.moved hc hnext, (Bool.or_false _).symm⟩
  | unlock =>
    rw [hc, DeadResources.clean] at hstep
    obtain rfl := Option.some.inj hstep
    obtain ⟨hlocked, contents, hcontents⟩ := h
    have hholder : s.holder = none := hlocked.unprotected (by rw [hc]; rfl)
    rw [hholder] at hlocked
    refine ⟨⟨hlocked.pass (by rw [hc]; rfl) nofun, contents,
      hcontents.pass (by rw [hc]; exact nofun) nofun fun k hk => ?_⟩,
      ?_⟩
    · cases k <;> cases hk
    · show (s.foreignUnlock || decide (s.holder ≠ some .cleaner)) = _
      rw [hholder]
      rfl
  | clean k =>
    rw [hc, DeadResources.clean] at hstep
    split_ifs at hstep with hsize
    · obtain ⟨n, hhead, rfl⟩ := Option.map_eq_some_iff.mp hstep
      exact ⟨h.destroyed hc hhead, (Bool.or_false _).symm⟩
    · obtain rfl := Option.some.inj hstep
      exact ⟨h.emptied hc (by omega), (Bool.or_false _).symm⟩

end DeadResources

end LuckOS
