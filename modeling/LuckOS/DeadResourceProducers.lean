import LuckOS.DeadResourceLists

/-!
# Threads that append dead resources

Each access of `add_dead_task` and `add_dead_process` keeps the invariant, unless it acquires the lock while the clean
thread moves the lists.
-/

namespace LuckOS

open Function Runs

namespace DeadResources

variable {q : Queues DeadList Nat} {contents : DeadList → List Nat} {i : DeadList} {n t : Nat} {stage : AppendStage}
  {s s' : DeadResources} {a : Action} {k : Kind}

theorem unlock_own {x : Thread} (hholder : s.holder = some x) :
    (s.unlock x).foreignUnlock = s.foreignUnlock := by
  rw [DeadResources.unlock, hholder, decide_eq_false (not_not.mpr rfl), Bool.or_false]

/-- While a producer is in its section, no other producer is, and the clean thread does not move the lists. -/
theorem Inv.alone (h : Inv s) (hinside : (s.producer t).inside = true) :
    (∀ x, x ≠ t → (s.producer x).inside ≠ true) ∧ ∀ k st, s.cleaner ≠ .move k st := by
  have hholder := (h.locked.producers t).mp hinside
  refine ⟨fun x hx hother => ?_, fun k st hmove => ?_⟩
  · have hx' := (h.locked.producers x).mp hother
    exact hx (Thread.producer.inj (Option.some.inj (hx'.symm.trans hholder)))
  · have hnone := h.locked.unprotected (by rw [hmove]; rfl)
    rw [hholder] at hnone
    cases hnone

theorem Inv.kmalloc (h : Inv s) {r : Nat} (ht : s.producer t = .kmalloc k r)
    (hnew : s.inUse n = false) :
    Inv { s.goto t (.setPtr k r n) with inUse := update s.inUse n true } := by
  obtain ⟨hlocked, contents, hcontents⟩ := h
  have hused : ∀ m, s.inUse m = true → update s.inUse n true m = true := by
    intro m hm
    by_cases hmn : m = n
    · rw [hmn, update_self]
    · rw [update_of_ne hmn, hm]
  have hfresh : ∀ i, n ∉ contents i := by
    intro i hi
    rw [hcontents.inUse i n hi] at hnew
    cases hnew
  refine ⟨hlocked.goto (by rw [ht]; rfl), contents, hcontents.account,
    fun i m hm => hused m (hcontents.inUse i m hm),
    hcontents.received, fun hquiet => hcontents.quiet ⟨fun x k' r' n' st' hx => ?_, hquiet.2⟩,
    fun x k' r' n' hx => ?_,
    fun x k' r' n' st' hx => ?_, hcontents.moving⟩
  · by_cases hxt : x = t
    · rw [hxt, ht] at hx
      cases hx
    · exact hquiet.1 x k' r' n' st' ((update_of_ne hxt ..).trans hx)
  · by_cases hxt : x = t
    · subst hxt
      cases (update_self ..).symm.trans hx
      exact ⟨update_self .., hfresh⟩
    · obtain ⟨hn', hother⟩ := hcontents.setPtr x k' r' n' ((update_of_ne hxt ..).symm.trans hx)
      exact ⟨hused n' hn', hother⟩
  · by_cases hxt : x = t
    · subst hxt
      cases (update_self ..).symm.trans hx
    · obtain ⟨hptr, hn', happending⟩ :=
        hcontents.appending x k' r' n' st' ((update_of_ne hxt ..).symm.trans hx)
      exact ⟨hptr, hused n' hn', happending⟩

theorem Inv.setPtr (h : Inv s) {r : Nat} (ht : s.producer t = .setPtr k r n) :
    Inv { s.goto t (.append k r n .setNext) with ptr := update s.ptr n r } := by
  obtain ⟨honly, hfree⟩ := h.alone (by rw [ht]; rfl)
  have hquiet := h.quiet_producer (t := t) (by rw [ht]; rfl) (by rw [ht]; exact nofun)
  obtain ⟨hlocked, contents, hcontents⟩ := h
  obtain ⟨hinUse, hfresh⟩ := hcontents.setPtr t k r n ht
  have hmap : ∀ i, (contents i).map (update s.ptr n r) = (contents i).map s.ptr := by
    intro i
    apply List.map_congr_left
    intro m hm
    exact update_of_ne (fun heq : m = n => hfresh i (heq ▸ hm)) ..
  refine ⟨hlocked.goto (by rw [ht]; rfl), contents, fun k => ?_, hcontents.inUse,
    hcontents.received, fun hquiet' => ?_,
    fun x k' r' n' hx => ?_, fun x k' r' n' st' hx => ?_, fun k st hmove => absurd hmove (hfree k st)⟩
  · show _ = _ ++ (contents (.receiver k)).map (update s.ptr n r) ++
      (contents (.dead k)).map (update s.ptr n r)
    rw [hmap, hmap]
    exact hcontents.account k
  · exact absurd (update_self ..) (hquiet'.1 t k r n .setNext)
  · by_cases hxt : x = t
    · subst hxt
      cases (update_self ..).symm.trans hx
    · have hx' := (update_of_ne hxt ..).symm.trans hx
      exact absurd (by rw [hx']; rfl) (honly x hxt)
  · by_cases hxt : x = t
    · subst hxt
      cases (update_self ..).symm.trans hx
      exact ⟨update_self .., hinUse, .start (hcontents.quiet hquiet) hfresh⟩
    · have hx' := (update_of_ne hxt ..).symm.trans hx
      exact absurd (by rw [hx']; rfl) (honly x hxt)

/-- The appended resource is accounted for. -/
theorem Inv.appended (h : Inv s) {r : Nat} (ht : s.producer t = .append k r n stage)
    (hlast : appendStep s.queues (.dead k) n stage = (q, none)) :
    Inv { s.goto t .notify with
      queues := q, appended := update s.appended k (s.appended k ++ [r]) } := by
  obtain ⟨honly, hfree⟩ := h.alone (by rw [ht]; rfl)
  obtain ⟨hlocked, contents, hcontents⟩ := h
  obtain ⟨hptr, hinUse, happending⟩ := hcontents.appending t k r n stage ht
  have hreceiver : ∀ k', update contents (.dead k) (contents (.dead k) ++ [n]) (.receiver k') =
    contents (.receiver k') := by
    intro k'
    have hne : DeadList.receiver k' ≠ .dead k := nofun
    exact update_of_ne hne ..
  have hcalm : ∀ x, update s.producer t .notify x = .notify ∨ (s.producer x).inside ≠ true ∧
    update s.producer t .notify x = s.producer x := by
    intro x
    by_cases hxt : x = t
    · rw [hxt]
      exact .inl (update_self ..)
    · exact .inr ⟨honly x hxt, update_of_ne hxt ..⟩
  refine ⟨hlocked.goto (by rw [ht]; rfl), update contents (.dead k) (contents (.dead k) ++ [n]),
    fun k' => ?_, fun i m hm => ?_,
    fun k' hk' => (hreceiver k').trans (hcontents.received k' hk'),
    fun _ => happending.finish hlast, fun x k' r' n' hx => ?_,
    fun x k' r' n' st' hx => ?_, fun k st hmove => absurd hmove (hfree k st)⟩
  · show update s.appended k (s.appended k ++ [r]) k' = s.destroyed k' ++
      (update contents (.dead k) (contents (.dead k) ++ [n]) (.receiver k')).map s.ptr ++
      (update contents (.dead k) (contents (.dead k) ++ [n]) (.dead k')).map s.ptr
    rw [hreceiver]
    by_cases hk : k' = k
    · subst hk
      rw [update_self, update_self, hcontents.account k', List.map_append, List.map_singleton, hptr,
        List.append_assoc]
    · rw [update_of_ne hk, update_of_ne (fun heq => hk (DeadList.dead.inj heq))]
      exact hcontents.account k'
  · by_cases hi : i = .dead k
    · subst hi
      rw [update_self] at hm
      rcases List.mem_append.mp hm with hm | hm
      · exact hcontents.inUse _ m hm
      · rw [List.mem_singleton.mp hm]
        exact hinUse
    · rw [update_of_ne hi] at hm
      exact hcontents.inUse i m hm
  · rcases hcalm x with hnotify | ⟨houtside, hsame⟩
    · cases hnotify.symm.trans hx
    · have hx' := hsame.symm.trans hx
      exact absurd (by rw [hx']; rfl) houtside
  · rcases hcalm x with hnotify | ⟨houtside, hsame⟩
    · cases hnotify.symm.trans hx
    · have hx' := hsame.symm.trans hx
      exact absurd (by rw [hx']; rfl) houtside

theorem Inv.append (h : Inv s) {r : Nat} {st st' : AppendStage} (ht : s.producer t = .append k r n st)
    (hnext : appendStep s.queues (.dead k) n st = (q, some st')) :
    Inv { s.goto t (.append k r n st') with queues := q } := by
  obtain ⟨honly, hfree⟩ := h.alone (by rw [ht]; rfl)
  obtain ⟨hlocked, contents, hcontents⟩ := h
  obtain ⟨hptr, hinUse, happending⟩ := hcontents.appending t k r n st ht
  refine ⟨hlocked.goto (by rw [ht]; rfl), contents, hcontents.account, hcontents.inUse,
    hcontents.received, fun hquiet => ?_,
    fun x k' r' n' hx => ?_, fun x k' r' n' st'' hx => ?_, fun k st hmove => absurd hmove (hfree k st)⟩
  · exact absurd (update_self ..) (hquiet.1 t k r n st')
  · by_cases hxt : x = t
    · subst hxt
      cases (update_self ..).symm.trans hx
    · exact hcontents.setPtr x k' r' n' ((update_of_ne hxt ..).symm.trans hx)
  · by_cases hxt : x = t
    · subst hxt
      cases (update_self ..).symm.trans hx
      exact ⟨hptr, hinUse, happending.step hnext⟩
    · have hx' := (update_of_ne hxt ..).symm.trans hx
      exact absurd (by rw [hx']; rfl) (honly x hxt)

/-- A step of a producer keeps the invariant, unless it acquires the lock while the lists are moved. -/
theorem Inv.produce (h : Inv s) (hundisturbed : Undisturbed s (.produce t))
    (hstep : s.produce t (s.producer t) = some s') :
    Inv s' ∧ s'.foreignUnlock = s.foreignUnlock := by
  cases ht : s.producer t with
  | outside =>
    rw [ht] at hstep
    cases hstep
  | kmalloc k r =>
    rw [ht] at hstep
    cases hstep
  | lock k r =>
    rw [ht, DeadResources.produce] at hstep
    obtain rfl := Option.some.inj hstep
    split_ifs with hfree
    · obtain ⟨hlocked, contents, hcontents⟩ := h
      rw [hfree] at hlocked
      have hacquires : s.acquires (.produce t) = true := by
        rw [acquires, ht, hfree]
        rfl
      have hun : s.cleaner.unprotected ≠ true :=
        fun hun => Bool.false_ne_true ((hundisturbed hun).symm.trans hacquires)
      exact ⟨⟨hlocked.acquire hun rfl, contents,
        hcontents.goto (by rw [ht]; exact nofun) ⟨nofun, nofun⟩⟩, rfl⟩
    · exact ⟨h, rfl⟩
  | setPtr k r n =>
    rw [ht, DeadResources.produce] at hstep
    obtain rfl := Option.some.inj hstep
    exact ⟨h.setPtr ht, rfl⟩
  | append k r n st =>
    rw [ht, DeadResources.produce] at hstep
    cases hnext : appendStep s.queues (.dead k) n st with
    | mk q next =>
      rw [hnext] at hstep
      cases next with
      | some st' =>
        obtain rfl := Option.some.inj hstep
        exact ⟨h.append ht hnext, rfl⟩
      | none =>
        obtain rfl := Option.some.inj hstep
        exact ⟨h.appended ht hnext, rfl⟩
  | notify =>
    rw [ht, DeadResources.produce] at hstep
    obtain rfl := Option.some.inj hstep
    obtain ⟨hlocked, contents, hcontents⟩ := h
    exact ⟨⟨hlocked.goto (by rw [ht]; rfl), contents,
      hcontents.goto (by rw [ht]; exact nofun) ⟨nofun, nofun⟩⟩, rfl⟩
  | unlock =>
    rw [ht, DeadResources.produce] at hstep
    obtain rfl := Option.some.inj hstep
    obtain ⟨hlocked, contents, hcontents⟩ := h
    have hholder : s.holder = some (.producer t) := (hlocked.producers t).mp (by rw [ht]; rfl)
    rw [hholder] at hlocked
    exact ⟨⟨hlocked.release rfl, contents, hcontents.goto (by rw [ht]; exact nofun) ⟨nofun, nofun⟩⟩,
      unlock_own hholder⟩

end DeadResources

end LuckOS
