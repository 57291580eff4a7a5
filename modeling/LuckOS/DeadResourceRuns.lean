import LuckOS.DeadResourceCleaner

/-!
# The hand-over of dead resources

As long as no thread acquires `dead_resource_lock` while the clean thread moves the lists, the sections
exclude each other, and everything that was appended is destroyed in this order or still in the lists. The
clean thread releases a lock that it does not hold each time.
-/

namespace LuckOS

open Function Runs

namespace DeadResources

variable {q : Queues DeadList Nat} {contents : DeadList → List Nat} {n t : Nat} {s s' u : DeadResources}
  {p : Producer} {c : Cleaner} {a : Action} {k : Kind}

theorem inv_start (links : Links Nat) (ptr : Nat → Nat) : Inv (start links ptr) where
  locked := ⟨fun _ => ⟨nofun, nofun⟩, ⟨nofun, nofun⟩, nofun⟩
  lists := by
    refine ⟨fun _ => [], fun _ => rfl, nofun, fun _ _ => rfl,
      fun _ => ⟨fun _ => LinkedList.holds_init, nofun⟩, nofun, nofun, nofun⟩

theorem Inv.exclusive (h : Inv s) : Exclusive s := by
  refine ⟨fun t u ht hu => ?_, fun t ht => ?_⟩
  · by_contra hne
    exact (h.alone hu).1 t hne ht
  · have hholder := (h.locked.producers t).mp ht
    refine ⟨Bool.eq_false_iff.mpr fun hholds => ?_,
      Bool.eq_false_iff.mpr fun hun => h.none_inside hun t ht⟩
    have hcleaner := h.locked.cleaning.mp hholds
    rw [hholder] at hcleaner
    cases hcleaner

theorem Inv.accounted (h : Inv s) : Accounted s := by
  obtain ⟨-, contents, hcontents⟩ := h
  refine ⟨fun k => ?_, fun hquiet => ⟨contents, hcontents.quiet hquiet, hcontents.account⟩⟩
  rw [hcontents.account k, List.append_assoc]
  exact List.prefix_append ..

/-- A step keeps the invariant, unless it acquires the lock while the lists are moved. -/
theorem Inv.step (h : Inv s) (hundisturbed : Undisturbed s a) (hstep : s.step a = some s') :
    Inv s' ∧ s'.foreignUnlock = (s.foreignUnlock || s.releases a) := by
  cases a with
  | call t k r =>
    rw [DeadResources.step] at hstep
    cases ht : s.producer t with
    | outside =>
      rw [ht] at hstep
      obtain rfl := Option.some.inj hstep
      obtain ⟨hlocked, contents, hcontents⟩ := h
      exact ⟨⟨hlocked.goto (by rw [ht]; rfl), contents,
        hcontents.goto (by rw [ht]; exact nofun) ⟨nofun, nofun⟩⟩,
        (Bool.or_false _).symm⟩
    | _ =>
      rw [ht] at hstep
      cases hstep
  | kmalloc t n =>
    rw [DeadResources.step] at hstep
    cases ht : s.producer t with
    | kmalloc k r =>
      rw [ht] at hstep
      simp only at hstep
      split_ifs at hstep with hused
      obtain rfl := Option.some.inj hstep
      exact ⟨h.kmalloc ht (Bool.eq_false_iff.mpr hused), (Bool.or_false _).symm⟩
    | _ =>
      rw [ht] at hstep
      cases hstep
  | produce t =>
    obtain ⟨hinv, hsame⟩ := h.produce hundisturbed hstep
    exact ⟨hinv, hsame.trans (Bool.or_false _).symm⟩
  | clean => exact h.clean hstep

/-- The step that acquires the lock while the lists are moved leaves two threads in their sections. -/
theorem not_exclusive_of_disturbed (hstep : s.step a = some s') (hdisturbed : ¬ Undisturbed s a) :
    ¬ Exclusive s' := by
  obtain ⟨hun, hacquires⟩ := Classical.not_imp.mp hdisturbed
  have hacquires : s.acquires a = true := Bool.not_eq_false _ ▸ hacquires
  cases a with
  | produce t =>
    rw [acquires] at hacquires
    cases ht : s.producer t with
    | lock k r =>
      rw [ht] at hacquires
      rw [DeadResources.step, ht, DeadResources.produce,
        if_pos (Option.isNone_iff_eq_none.mp hacquires)] at hstep
      obtain rfl := Option.some.inj hstep
      intro hexclusive
      have hinside : (update s.producer t (.kmalloc k r) t).inside = true := by
        rw [update_self]
        rfl
      exact Bool.false_ne_true ((hexclusive.2 t hinside).2.symm.trans hun)
    | _ =>
      rw [ht] at hacquires
      cases hacquires
  | _ => cases hacquires

/-- The sections exclude each other, and everything that was appended is destroyed once or kept, in all states
of a run exactly if no thread acquires the lock while the lists are moved. The lock is released only by the
thread that holds it in all states of such a run exactly if the clean thread does not come to its unlock. -/
theorem dead_resources_iff {links : Links Nat} {ptr : Nat → Nat} {as : List Action}
    (h : Run (Steps step) (start links ptr) as s) :
    ((∀ bs u, bs <+: as → Run (Steps step) (start links ptr) bs u → Exclusive u ∧ Accounted u) ↔
      Run (Guarded Undisturbed (Steps step)) (start links ptr) as s) ∧
    ((∀ bs u, bs <+: as → Run (Steps step) (start links ptr) bs u → (Exclusive u ∧ Accounted u) ∧
      u.foreignUnlock = false) ↔
      Run (Guarded (fun s a => Undisturbed s a ∧
        s.releases a = false) (Steps step)) (start links ptr) as s) := by
  have hiff : ∀ {s a t}, Inv s → s.step a = some t → (Exclusive t ∧ Accounted t ↔ Undisturbed s a) := by
    intro s a t hinv hstep
    refine ⟨fun hgood => ?_, fun hok =>
      ⟨(hinv.step hok hstep).1.exclusive, (hinv.step hok hstep).1.accounted⟩⟩
    by_contra hdisturbed
    exact not_exclusive_of_disturbed hstep hdisturbed hgood.1
  have hstart : Inv (start links ptr) := inv_start links ptr
  have hgood : Exclusive (start links ptr) ∧ Accounted (start links ptr) :=
    ⟨hstart.exclusive, hstart.accounted⟩
  constructor
  · exact throughout_iff (fun hinv hok hstep => (hinv.step hok hstep).1) hiff hstart hgood h
  · refine @throughout_iff _ _ step (fun s => Inv s ∧
      s.foreignUnlock = false) _ _ ?_ ?_ _ _ _ ⟨hstart, rfl⟩ ⟨hgood, rfl⟩ h
    · rintro s a t ⟨hinv, hclear⟩ ⟨hok, hreleases⟩ hstep
      obtain ⟨hinv', hforeign⟩ := hinv.step hok hstep
      rw [hclear, hreleases] at hforeign
      exact ⟨hinv', hforeign⟩
    · rintro s a t ⟨hinv, hclear⟩ hstep
      rw [hiff hinv hstep]
      refine and_congr_right fun hok => ?_
      rw [(hinv.step hok hstep).2, hclear, Bool.false_or]

/-! ## A hand-over -/

def steps (n : Nat) (a : Action) : List Action := List.replicate n a

/-- A thread appends a task to an empty list, or to one that is not empty, and leaves. -/
def addDeadTask (t resource node accesses : Nat) : List Action :=
  [.call t .task resource, .produce t, .kmalloc t node] ++ steps (accesses + 3) (.produce t)

def testUndisturbed (s : DeadResources) (a : Action) : Bool := decide (Undisturbed s a)

/-- A task is appended, and the clean thread destroys it. -/
theorem dead_task_destroyed : ∃ s,
    Run (Steps step) (start ⟨fun _ => none,
      fun _ => none⟩ fun _ => 0) (addDeadTask 0 7 1 7 ++ steps 20 .clean) s ∧
    s.appended .task = [7] ∧ s.destroyed .task = [7] ∧ Exclusive s ∧ Accounted s := by
  have hrun : (execute (permit testUndisturbed step)
    (start ⟨fun _ => none, fun _ => none⟩ fun _ => 0) (addDeadTask 0 7 1 7 ++ steps 20 .clean)).map
      (fun s => (s.appended .task, s.destroyed .task)) = some ([7], [7]) := by decide +kernel
  obtain ⟨s, hs, hlists⟩ := Option.map_eq_some_iff.mp hrun
  obtain ⟨happended, hdestroyed⟩ := Prod.mk.inj hlists
  have hguarded : Run (Guarded Undisturbed (Steps step))
    (start ⟨fun _ => none, fun _ => none⟩ fun _ => 0)
      (addDeadTask 0 7 1 7 ++ steps 20 .clean) s := run_of_execute_permit of_decide_eq_true hs
  obtain ⟨hexclusive, haccounted⟩ :=
    (dead_resources_iff hguarded.unguard).1.mpr hguarded _ s (List.prefix_refl _) hguarded.unguard
  exact ⟨s, hguarded.unguard, happended, hdestroyed, hexclusive, haccounted⟩

/-! ## A lost task -/

theorem producer_clean (hstep : s.clean c = some s') : s'.producer = s.producer := by
  cases c with
  | yield =>
    rw [DeadResources.clean] at hstep
    split_ifs at hstep
    obtain rfl := Option.some.inj hstep
    rfl
  | lock =>
    obtain rfl := Option.some.inj hstep
    split_ifs <;> rfl
  | move k st =>
    rw [DeadResources.clean] at hstep
    cases hnext : moveStep s.queues (.receiver k) (.dead k) st with
    | mk q next =>
      rw [hnext] at hstep
      cases next with
      | some st' =>
        obtain rfl := Option.some.inj hstep
        rfl
      | none =>
        obtain rfl := Option.some.inj hstep
        rfl
  | clean k =>
    rw [DeadResources.clean] at hstep
    split_ifs at hstep
    · obtain ⟨n, -, rfl⟩ := Option.map_eq_some_iff.mp hstep
      rfl
    · obtain rfl := Option.some.inj hstep
      rfl
  | _ =>
    obtain rfl := Option.some.inj hstep
    rfl

theorem producer_produce (hstep : s.produce t p = some s') {x : Nat} (hx : x ≠ t) :
    s'.producer x = s.producer x := by
  cases p with
  | outside => cases hstep
  | kmalloc k r => cases hstep
  | lock k r =>
    obtain rfl := Option.some.inj hstep
    split_ifs
    · exact update_of_ne hx ..
    · rfl
  | append k r n st =>
    rw [DeadResources.produce] at hstep
    cases hnext : appendStep s.queues (.dead k) n st with
    | mk q next =>
      rw [hnext] at hstep
      cases next with
      | some st' =>
        obtain rfl := Option.some.inj hstep
        exact update_of_ne hx ..
      | none =>
        obtain rfl := Option.some.inj hstep
        exact update_of_ne hx ..
  | _ =>
    obtain rfl := Option.some.inj hstep
    exact update_of_ne hx ..

/-- A thread that is not called stays outside. -/
theorem outside_of_not_called {x : Nat} {as : List Action} (h : Run (Steps step) s as s')
    (hx : s.producer x = .outside)
    (hcalls : ∀ k r, .call x k r ∉ as) : s'.producer x = .outside := by
  induction h with
  | nil s => exact hx
  | @cons s u s' a as head tail ih =>
    refine ih ?_ fun k r hmem => hcalls k r (List.mem_cons_of_mem a hmem)
    have hstep : s.step a = some u := head
    cases a with
    | call t k r =>
      have hne : x ≠ t := fun heq => hcalls k r (heq ▸ List.mem_cons_self ..)
      rw [DeadResources.step] at hstep
      cases ht : s.producer t with
      | outside =>
        rw [ht] at hstep
        obtain rfl := Option.some.inj hstep
        exact (update_of_ne hne ..).trans hx
      | _ =>
        rw [ht] at hstep
        cases hstep
    | kmalloc t n =>
      rw [DeadResources.step] at hstep
      cases ht : s.producer t with
      | kmalloc k r =>
        have hne : x ≠ t := by
          rintro rfl
          rw [hx] at ht
          cases ht
        rw [ht] at hstep
        simp only at hstep
        split_ifs at hstep
        obtain rfl := Option.some.inj hstep
        exact (update_of_ne hne ..).trans hx
      | _ =>
        rw [ht] at hstep
        cases hstep
    | produce t =>
      by_cases hxt : x = t
      · subst hxt
        rw [DeadResources.step, hx] at hstep
        cases hstep
      · exact (producer_produce hstep hxt).trans hx
    | clean => exact (congrFun (producer_clean hstep) x).trans hx

/-- The clean thread has copied the size of the list when another task is appended. -/
def lostTask : List Action := addDeadTask 0 7 1 7 ++ steps 7 .clean ++ addDeadTask 1 8 2 8 ++
    steps 13 .clean

def outsideTest (p : Producer) : Bool :=
  match p with
  | .outside => true
  | _ => false

theorem outside_of_test (h : outsideTest p = true) : p = .outside := by
  cases p with
  | outside => rfl
  | _ => cases h

/-- The clean thread releases the lock without holding it, other threads come into their sections while it
moves the lists, and a task is appended to a list that is then cleared. -/
theorem dead_task_lost :
    (¬ ∀ as s, Run (Steps step) (start ⟨fun _ => none, fun _ => none⟩ fun _ => 0) as s →
      s.foreignUnlock = false) ∧
      (¬ ∀ as s, Run (Steps step) (start ⟨fun _ => none, fun _ => none⟩ fun _ => 0) as s →
        Exclusive s) ∧
      ¬ ∀ as s, Run (Steps step) (start ⟨fun _ => none, fun _ => none⟩ fun _ => 0) as s →
      Accounted s := by
  refine ⟨fun hall => ?_, fun hall => ?_, fun hall => ?_⟩
  · have hrun : (execute step (start ⟨fun _ => none, fun _ => none⟩ fun _ => 0)
      (addDeadTask 0 7 1 7 ++ steps 17 .clean)).map
        (fun s => s.foreignUnlock) = some true := by decide +kernel
    obtain ⟨s, hs, hforeign⟩ := Option.map_eq_some_iff.mp hrun
    rw [hall _ s (run_of_execute hs)] at hforeign
    cases hforeign
  · have hrun : (execute step (start ⟨fun _ => none, fun _ => none⟩ fun _ => 0)
        (addDeadTask 0 7 1 7 ++ steps 7 .clean ++ [.call 1 .task 8, .produce 1])).map
        (fun s => ((s.producer 1).inside, s.cleaner.unprotected)) =
          some (true, true) := by decide +kernel
    obtain ⟨s, hs, hboth⟩ := Option.map_eq_some_iff.mp hrun
    obtain ⟨hinside, hun⟩ := Prod.mk.inj hboth
    have hexclusive := (hall _ s (run_of_execute hs)).2 1 hinside
    rw [hun] at hexclusive
    cases hexclusive.2
  · have hrun : (execute step (start ⟨fun _ => none, fun _ => none⟩ fun _ => 0) lostTask).map
        (fun s => (s.appended .task, s.destroyed .task, (s.queues.list (.receiver .task)).size,
          (s.queues.list (.dead .task)).size,
          outsideTest (s.producer 0) && outsideTest (s.producer 1) && !s.cleaner.unprotected)) =
        some ([7, 8], [7], 0, 0, true) := by decide +kernel
    obtain ⟨s, hs, hresult⟩ := Option.map_eq_some_iff.mp hrun
    simp only [Prod.mk.injEq, Bool.and_eq_true, Bool.not_eq_true'] at hresult
    obtain ⟨happended, hdestroyed, hreceiver, hdead, ⟨hzero, hone⟩, hmoved⟩ := hresult
    have houtside : ∀ x, s.producer x = .outside := by
      intro x
      by_cases hx : x = 0 ∨ x = 1
      · rcases hx with rfl | rfl
        · exact outside_of_test hzero
        · exact outside_of_test hone
      · refine outside_of_not_called (run_of_execute hs) rfl fun k r hmem => hx ?_
        simp [lostTask, addDeadTask, steps] at hmem
        omega
    have hquiet : s.Quiet := by
      refine ⟨fun x k r n st hx => ?_, fun k st hmove => ?_⟩
      · rw [houtside x] at hx
        cases hx
      · rw [hmove] at hmoved
        cases hmoved
    obtain ⟨contents, hrep, haccount⟩ := (hall _ s (run_of_execute hs)).kept hquiet
    have htask := haccount .task
    rw [happended, hdestroyed, (hrep.holds _).size_eq_zero.mp hreceiver,
      (hrep.holds _).size_eq_zero.mp hdead] at htask
    cases htask

end DeadResources

end LuckOS
