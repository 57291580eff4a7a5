import LuckOS.ExecThreads

/-!
# The places and the table of the threads

The status of each thread fits its place in the queues of the scheduler. The table of the process has the threads that are
listed, while no thread is on its way out of `process_exec`.
-/

namespace LuckOS

open Function Runs

namespace ExecThreads

variable {pc : Nat → ExecPc} {s s' : Scheduler Empty Nat} {q q' : Queue Empty → List Nat} {t u n created : Nat}
  {p : ExecPc} {threads threads' : HashTable Nat}

/-! ## The scheduler -/

/-- The status of the threads fits their places. -/
structure Placing (pc : Nat → ExecPc) (s : Scheduler Empty Nat) (q : Queue Empty → List Nat) : Prop where
  placed : s.Placed q
  main : s.main = 0
  hidden : ∀ {t}, t ≠ 0 → (pc t).phase = .hidden → s.status t = none
  live : ∀ {t}, t ≠ 0 → (pc t).phase = .live → s.status t = some .running ∨ s.status t = some .ready
  dying : ∀ {t}, t ≠ 0 → (pc t).phase = .dying → s.status t = some .dead
  current : s.crt ≠ 0 → (pc s.crt).phase = .live → s.status s.crt = some .running

theorem Placing.frame {pc' : Nat → ExecPc} (h : Placing pc s q) (hphase : ∀ u, (pc' u).phase = (pc u).phase) :
    Placing pc' s q where
  placed := h.placed
  main := h.main
  hidden := fun hu hp => h.hidden hu ((hphase _).symm.trans hp)
  live := fun hu hp => h.live hu ((hphase _).symm.trans hp)
  dying := fun hu hp => h.dying hu ((hphase _).symm.trans hp)
  current := fun hu hp => h.current hu ((hphase _).symm.trans hp)

theorem Placing.goto (h : Placing pc s q) (hphase : p.phase = (pc t).phase) : Placing (update pc t p) s q :=
  h.frame (apply_place pc t p ExecPc.phase hphase)

theorem Placing.switched (h : Placing pc s q) (hs : s.Switched q s' q') : Placing pc s' q' where
  placed := hs.placed
  main := hs.main.trans h.main
  hidden := fun hu hp => (hs.status_iff (h.main ▸ hu) (by simp) (by simp)).mpr (h.hidden hu hp)
  live := by
    intro u hu hp
    by_cases hcrt : u = s'.crt
    · rw [hcrt]
      exact .inl hs.next
    · rw [hs.others u hcrt]
      split_ifs
      · exact .inr rfl
      · exact h.live hu hp
  dying := fun hu hp => hs.status_eq (h.main ▸ hu) (h.dying hu hp) (by simp) (by simp)
  current := fun _ _ => hs.next

theorem Placing.threadYield (h : Placing pc s q) (hcrt : s.crt ≠ 0) :
    ∃ s' q', s.threadYield = some s' ∧ Placing pc s' q' := by
  obtain ⟨s', q', hyield, hs⟩ := h.placed.threadYield (h.main ▸ hcrt) fun _ w => w.elim
  exact ⟨s', q', hyield, h.switched hs⟩

theorem Placing.schedule (h : Placing pc s q) : ∃ s' q', s.schedule = some s' ∧ Placing pc s' q' := by
  rcases h.placed.schedule fun _ w => w.elim with hsame | ⟨s', q', hswitch, hs⟩
  · exact ⟨s, q, hsame, h⟩
  · exact ⟨s', q', hswitch, h.switched hs⟩

theorem Placing.doContextSwitch (h : Placing pc s q) (hswitch : s.doContextSwitch = some s') :
    ∃ q', Placing pc s' q' := by
  have hne : q .ready ≠ [] := by
    intro hempty
    have hhead := h.placed.head?_ready
    rw [hempty] at hhead
    rw [Scheduler.doContextSwitch, hhead] at hswitch
    cases hswitch
  obtain ⟨t, q', hswitch', hs⟩ := h.placed.doContextSwitch (fun _ w => w.elim) hne
  obtain rfl := Option.some.inj (hswitch'.symm.trans hswitch)
  exact ⟨q', h.switched hs⟩

/-- A thread without a status is scheduled. -/
theorem Placing.add (h : Placing pc s q) (hn : n ≠ 0) (hcrt : s.crt ≠ n) (hphase : (pc n).phase = .hidden)
    (hp : p.phase = .live) : ∃ q', Placing (update pc n p) (s.addThreadNode n) q' := by
  have hnone := h.hidden hn hphase
  have hfree : ∀ j, n ∉ q j := by
    intro j
    cases j with
    | ready =>
      intro hmem
      have hready := h.placed.queued n (h.main ▸ hn) hmem
      rw [hnone] at hready
      cases hready
    | waiting w => cases w
  have hstatus := Scheduler.addThreadNode_status (s := s) (n := n) (by simp [hnone])
  refine ⟨_, h.placed.addThreadNode hfree (h.main ▸ hn) (by simp [hnone]), h.main, ?_, ?_, ?_, ?_⟩
  · intro u hu hp'
    have hne : u ≠ n := by
      rintro rfl
      rw [update_self, hp] at hp'
      cases hp'
    rw [update_of_ne hne] at hp'
    rw [hstatus, if_neg hne]
    exact h.hidden hu hp'
  · intro u hu hp'
    rw [hstatus]
    by_cases hne : u = n
    · rw [if_pos hne]
      exact .inr rfl
    · rw [if_neg hne]
      rw [update_of_ne hne] at hp'
      exact h.live hu hp'
  · intro u hu hp'
    have hne : u ≠ n := by
      rintro rfl
      rw [update_self, hp] at hp'
      cases hp'
    rw [update_of_ne hne] at hp'
    rw [hstatus, if_neg hne]
    exact h.dying hu hp'
  · intro hu hp'
    change s.crt ≠ 0 at hu
    change (update pc n p s.crt).phase = .live at hp'
    rw [update_of_ne hcrt] at hp'
    exact (hstatus _).trans ((if_neg hcrt).trans (h.current hu hp'))

/-- The current thread is marked as dead. -/
theorem Placing.die (h : Placing pc s q) (hcrt : s.crt ≠ 0) (hlive : (pc s.crt).phase = .live) (hp : p.phase = .dying) :
    Placing (update pc s.crt p) s.markThreadDead q := by
  have hrun := h.current hcrt hlive
  have hready : s.crt ≠ s.main → s.crt ∉ q .ready := by
    intro hmain hmem
    have hstatus := h.placed.queued s.crt hmain hmem
    rw [hrun] at hstatus
    cases hstatus
  have hself : (update pc s.crt p s.crt).phase = .dying := by rw [update_self, hp]
  refine ⟨h.placed.setStatus hready (by simp) (by simp), h.main, ?_, ?_, ?_, ?_⟩
  · intro u hu hp'
    have hne : u ≠ s.crt := by
      rintro rfl
      rw [hself] at hp'
      cases hp'
    rw [update_of_ne hne] at hp'
    exact (update_of_ne hne ..).trans (h.hidden hu hp')
  · intro u hu hp'
    have hne : u ≠ s.crt := by
      rintro rfl
      rw [hself] at hp'
      cases hp'
    rw [update_of_ne hne] at hp'
    have hstatus : s.markThreadDead.status u = s.status u := update_of_ne hne ..
    rw [hstatus]
    exact h.live hu hp'
  · intro u hu hp'
    by_cases hne : u = s.crt
    · rw [hne]
      exact update_self ..
    · rw [update_of_ne hne] at hp'
      exact (update_of_ne hne ..).trans (h.dying hu hp')
  · intro _ hp'
    exact absurd (hself.symm.trans hp') (by simp)

/-! ## The table of the threads -/

/-- The table has the threads that are listed. One thread runs the program, and at most one is on
its way out of `process_exec`. -/
structure Members (pc : Nat → ExecPc) (created : Nat) (threads : HashTable Nat) : Prop where
  idle : pc 0 = .unborn ∧ 0 < created
  unborn : ∀ {t}, created ≤ t → pc t = .unborn
  valid : threads.Valid
  listed : ∀ t, threads.get t = if (pc t).listed then some t else none
  sole : ∀ {t u}, (pc t).active = true → (pc u).active = true → t = u
  once : ∀ {t u}, (pc t).detaching = true → (pc u).detaching = true → t = u
  alone : ∀ {t u}, (pc t).alone = true → (pc u).detaching = false
  newborn : ∀ {t n}, (pc t).new = some n → pc n = .fresh
  forward : ∀ t load, pc t ≠ .exitBack load

/-- A thread goes on, and the table is adjusted. -/
theorem Members.move (h : Members pc created threads) (hborn : (pc t).phase ≠ .hidden) (hvalid : threads'.Valid)
    (hget : ∀ u, threads'.get u = if (update pc t p u).listed then some u else none)
    (hactive : p.active = true → (pc t).active = true) (hdet : p.detaching = true → (pc t).detaching = true)
    (halone : p.alone = true → ∀ u, (pc u).detaching = false) (hnew : p.new = none ∨ p.new = (pc t).new)
    (hback : ∀ load, p ≠ .exitBack load) : Members (update pc t p) created threads' := by
  have hactives : ∀ {u}, (update pc t p u).active = true → (pc u).active = true := by
    intro u hu
    by_cases heq : u = t
    · rw [heq, update_self] at hu
      rw [heq]
      exact hactive hu
    · rwa [update_of_ne heq] at hu
  have hdets : ∀ {u}, (update pc t p u).detaching = true → (pc u).detaching = true := by
    intro u hu
    by_cases heq : u = t
    · rw [heq, update_self] at hu
      rw [heq]
      exact hdet hu
    · rwa [update_of_ne heq] at hu
  have hne : ∀ {u}, (pc u).phase = .hidden → u ≠ t := by
    rintro u hu rfl
    exact hborn hu
  refine ⟨⟨?_, h.idle.2⟩, ?_, hvalid, hget, fun hu hv => h.sole (hactives hu) (hactives hv),
    fun hu hv => h.once (hdets hu) (hdets hv), ?_, ?_, ?_⟩
  · rw [update_of_ne (hne (by rw [h.idle.1]; rfl))]
    exact h.idle.1
  · intro u hu
    rw [update_of_ne (hne (by rw [h.unborn hu]; rfl))]
    exact h.unborn hu
  · intro u v hu
    rw [← Bool.not_eq_true]
    intro hv
    have hold := hdets hv
    by_cases heq : u = t
    · rw [heq, update_self] at hu
      rw [halone hu v] at hold
      cases hold
    · rw [update_of_ne heq] at hu
      rw [h.alone hu] at hold
      cases hold
  · intro u m hu
    have hfresh : pc m = .fresh := by
      by_cases heq : u = t
      · rw [heq, update_self] at hu
        rcases hnew with hnone | hsame
        · rw [hnone] at hu
          cases hu
        · exact h.newborn (hsame.symm.trans hu)
      · rw [update_of_ne heq] at hu
        exact h.newborn hu
    rw [update_of_ne (hne (by rw [hfresh]; rfl))]
    exact hfresh
  · intro u load hu
    by_cases heq : u = t
    · rw [heq, update_self] at hu
      exact hback load hu
    · rw [update_of_ne heq] at hu
      exact h.forward u load hu

/-- The table does not change. -/
theorem Members.goto (h : Members pc created threads) (hborn : (pc t).phase ≠ .hidden) (hlisted : p.listed = (pc t).listed)
    (hactive : p.active = true → (pc t).active = true) (hdet : p.detaching = true → (pc t).detaching = true)
    (halone : p.alone = true → ∀ u, (pc u).detaching = false) (hnew : p.new = none ∨ p.new = (pc t).new)
    (hback : ∀ load, p ≠ .exitBack load) : Members (update pc t p) created threads := by
  refine h.move hborn h.valid (fun u => ?_) hactive hdet halone hnew hback
  rw [apply_place pc t p ExecPc.listed hlisted u]
  exact h.listed u

/-- The thread is removed from the table. -/
theorem Members.remove (h : Members pc created threads) (hborn : (pc t).phase ≠ .hidden) (hlisted : p.listed = false)
    (hactive : p.active = true → (pc t).active = true) (hdet : p.detaching = false) (halone : p.alone = false)
    (hnew : p.new = none) (hback : ∀ load, p ≠ .exitBack load) :
    Members (update pc t p) created (threads.remove t).2 := by
  obtain ⟨hvalid, -, hget⟩ := HashTable.remove_spec h.valid t
  refine h.move hborn hvalid (fun u => ?_) hactive (by simp [hdet]) (by simp [halone]) (.inl hnew) hback
  rw [hget]
  by_cases heq : u = t
  · rw [heq, update_self, update_self, hlisted]
    rfl
  · rw [update_of_ne heq, update_of_ne heq]
    exact h.listed u

/-- Only the thread itself is listed when no other one is on its way out. -/
theorem Members.not_listed (h : Members pc created threads) (hactive : (pc t).active = true)
    (hdet : ∀ u, u ≠ t → (pc u).detaching = false) (hne : u ≠ t) : (pc u).listed = false := by
  rw [← Bool.not_eq_true]
  intro hu
  rcases ExecPc.listed_cases hu with hu | hu
  · exact hne (h.sole hu hactive)
  · rw [hdet u hne] at hu
    cases hu

/-- The table has no other thread, and is replaced. -/
theorem Members.reset (h : Members pc created threads) (hactive : (pc t).active = true)
    (hdet : ∀ u, u ≠ t → (pc u).detaching = false) (hborn : (pc t).phase ≠ .hidden) (hvalid : threads'.Valid)
    (hself : threads'.get t = if p.listed then some t else none) (hothers : ∀ u, u ≠ t → threads'.get u = none)
    (hdet' : p.detaching = false) (hnew : p.new = none) (hback : ∀ load, p ≠ .exitBack load) :
    Members (update pc t p) created threads' := by
  have hdets : ∀ u, (pc u).detaching = false := by
    intro u
    by_cases heq : u = t
    · rw [heq]
      cases hp : pc t <;> simp_all [ExecPc.active, ExecPc.detaching]
    · exact hdet u heq
  refine h.move hborn hvalid (fun u => ?_) (fun _ => hactive) (by simp [hdet']) (fun _ => hdets) (.inl hnew) hback
  by_cases heq : u = t
  · rw [heq, update_self]
    exact hself
  · rw [update_of_ne heq, h.not_listed hactive hdet heq]
    exact hothers u heq

/-- `add_process_thread` for the new thread. -/
theorem Members.add (h : Members pc created threads) (hp : pc t = .addPut) :
    Members (update (update pc created .fresh) t (.addUnlock created)) (created + 1) (threads.put created created).2 := by
  obtain ⟨hvalid, -, hget⟩ := HashTable.put_spec h.valid created created
  have hunborn : pc created = .unborn := h.unborn (Nat.le_refl _)
  have hne : t ≠ created := by
    rintro rfl
    rw [hp] at hunborn
    cases hunborn
  have hactive : (pc t).active = true := by rw [hp]; rfl
  have hdet : ∀ u, (pc u).detaching = false := fun u => h.alone (t := t) (by rw [hp]; rfl)
  have hself : update (update pc created .fresh) t (.addUnlock created) t = .addUnlock created := update_self ..
  have hnew : update (update pc created .fresh) t (.addUnlock created) created = .fresh := by
    rw [update_of_ne hne.symm, update_self]
  have hothers : ∀ {u}, u ≠ t → u ≠ created → update (update pc created .fresh) t (.addUnlock created) u = pc u := by
    intro u hu hc
    rw [update_of_ne hu, update_of_ne hc]
  have hactives : ∀ {u}, (update (update pc created .fresh) t (.addUnlock created) u).active = true → u = created := by
    intro u hu
    by_contra hc
    by_cases heq : u = t
    · rw [heq, hself] at hu
      cases hu
    · rw [hothers heq hc] at hu
      exact heq (h.sole hu hactive)
  have hdets : ∀ {u}, (update (update pc created .fresh) t (.addUnlock created) u).detaching = true → u = t := by
    intro u hu
    by_contra heq
    by_cases hc : u = created
    · rw [hc, hnew] at hu
      cases hu
    · rw [hothers heq hc, hdet] at hu
      cases hu
  refine ⟨⟨?_, Nat.succ_pos _⟩, ?_, hvalid, ?_, fun hu hv => (hactives hu).trans (hactives hv).symm,
    fun hu hv => (hdets hu).trans (hdets hv).symm, ?_, ?_, ?_⟩
  · have hzero : (0 : Nat) ≠ t := by
      rintro rfl
      rw [h.idle.1] at hp
      cases hp
    rw [hothers hzero (Nat.ne_of_lt h.idle.2)]
    exact h.idle.1
  · intro u hu
    have hlt : created ≤ u := Nat.le_of_succ_le hu
    have hut : u ≠ t := by
      rintro rfl
      rw [h.unborn hlt] at hp
      cases hp
    rw [hothers hut (by omega)]
    exact h.unborn hlt
  · intro u
    rw [hget]
    by_cases hc : u = created
    · rw [hc, update_self, hnew]
      rfl
    · rw [update_of_ne hc, h.listed]
      by_cases heq : u = t
      · rw [heq, hself, hp]
        rfl
      · rw [hothers heq hc]
  · intro u v hu
    have hold : u ≠ t ∧ u ≠ created := by
      refine ⟨?_, ?_⟩
      · rintro rfl
        rw [hself] at hu
        cases hu
      · rintro rfl
        rw [hnew] at hu
        cases hu
    rw [hothers hold.1 hold.2] at hu
    exact absurd (h.sole (ExecPc.active_of_alone hu) hactive) hold.1
  · intro u m hu
    by_cases heq : u = t
    · rw [heq, hself] at hu
      obtain rfl : created = m := Option.some.inj hu
      exact hnew
    · exact absurd (hdets (ExecPc.detaching_of_new hu)) heq
  · intro u load hu
    by_cases hc : u = created
    · rw [hc, hnew] at hu
      cases hu
    · by_cases heq : u = t
      · rw [heq, hself] at hu
        cases hu
      · rw [hothers heq hc] at hu
        exact h.forward u load hu

/-- The new thread is scheduled. -/
theorem Members.schedule (h : Members pc created threads) (hp : pc t = .execSchedule n) :
    Members (update (update pc n .user) t .detachLock) created threads := by
  have hfresh : pc n = .fresh := h.newborn (t := t) (by rw [hp]; rfl)
  have hne : t ≠ n := by
    rintro rfl
    rw [hp] at hfresh
    cases hfresh
  have hself : update (update pc n .user) t .detachLock t = .detachLock := update_self ..
  have hnew : update (update pc n .user) t .detachLock n = .user := by
    rw [update_of_ne hne.symm, update_self]
  have hothers : ∀ {u}, u ≠ t → u ≠ n → update (update pc n .user) t .detachLock u = pc u := by
    intro u hu hn
    rw [update_of_ne hu, update_of_ne hn]
  have hsame : ∀ {β : Type} (f : ExecPc → β), f .user = f .fresh → f .detachLock = f (.execSchedule n) →
      ∀ u, f (update (update pc n .user) t .detachLock u) = f (pc u) := by
    intro β f huser hlock u
    by_cases heq : u = t
    · rw [heq, hself, hp, hlock]
    · by_cases hn : u = n
      · rw [hn, hnew, hfresh, huser]
      · rw [hothers heq hn]
  refine ⟨⟨?_, h.idle.2⟩, ?_, h.valid, ?_, ?_, ?_, ?_, ?_, ?_⟩
  · rw [hothers]
    · exact h.idle.1
    · rintro rfl
      rw [h.idle.1] at hp
      cases hp
    · rintro rfl
      rw [h.idle.1] at hfresh
      cases hfresh
  · intro u hu
    rw [hothers]
    · exact h.unborn hu
    · rintro rfl
      rw [h.unborn hu] at hp
      cases hp
    · rintro rfl
      rw [h.unborn hu] at hfresh
      cases hfresh
  · intro u
    rw [hsame ExecPc.listed rfl rfl]
    exact h.listed u
  · intro u v hu hv
    rw [hsame ExecPc.active rfl rfl] at hu hv
    exact h.sole hu hv
  · intro u v hu hv
    rw [hsame ExecPc.detaching rfl rfl] at hu hv
    exact h.once hu hv
  · intro u v hu
    rw [hsame ExecPc.alone rfl rfl] at hu
    rw [hsame ExecPc.detaching rfl rfl]
    exact h.alone hu
  · intro u m hu
    have hut : u ≠ t := by
      rintro rfl
      rw [hself] at hu
      cases hu
    have hun : u ≠ n := by
      rintro rfl
      rw [hnew] at hu
      cases hu
    rw [hothers hut hun] at hu
    exact absurd (h.once (ExecPc.detaching_of_new hu) (by rw [hp]; rfl)) hut
  · intro u load hu
    by_cases heq : u = t
    · rw [heq, hself] at hu
      cases hu
    · by_cases hn : u = n
      · rw [hn, hnew] at hu
        cases hu
      · rw [hothers heq hn] at hu
        exact h.forward u load hu

end ExecThreads

end LuckOS
