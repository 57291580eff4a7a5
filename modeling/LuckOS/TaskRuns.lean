import LuckOS.TaskInvariant

/-!
# Runs of the task queues

Every step keeps the invariant of the task queues: the steps of a thread that are not inside
of a handler, the steps of the handlers, and the interrupts. The running, ready, waiting and
dead threads are therefore where they have to be in every reachable state, and a switch
always finds a ready task.
-/

namespace LuckOS

open Function Runs Scheduler Queues

namespace TaskQueues

variable {k k' : TaskQueues} {q q' : Queue WaitList → List Nat} {p p' : TaskPc} {s : Scheduler WaitList Nat}
  {lock : Option Nat}

theorem TaskInv.crt_ne_main (h : TaskInv k q) (hp : k.pc k.crt ≠ .user) : k.crt ≠ k.sched.main :=
  fun heq => hp ((h.threads k.crt).idle heq)

/-! ## Switches -/

theorem Steady.switched (h : Steady k q) (hs : k.sched.Switched q s q') :
    TaskInv { k with sched := s, enabled := true } q' where
  sleepers := h.sleepers.switched hs
  threads := fun t => (h.threads t).switched hs h.sleepers
  awake := h.awake.switched hs h.sleepers
  running := h.running
  current := .switched (h.threads s.crt) hs

theorem Steady.threadYield (h : Steady k q) (hcrt : k.crt ≠ k.sched.main) : ∃ q', TaskInv k.threadYield q' := by
  obtain ⟨s, q', hyield, hs⟩ := h.sleepers.placed.threadYield hcrt h.sleepers.requeues_free
  rw [TaskQueues.threadYield, hyield]
  exact ⟨q', h.switched hs⟩

theorem Steady.doContextSwitch (h : Steady k q) (hne : q .ready ≠ []) :
    ∃ q', TaskInv (k.resume k.sched.doContextSwitch) q' := by
  obtain ⟨s, q', hswitch, hs⟩ := h.sleepers.placed.doContextSwitch h.sleepers.requeues_free hne
  rw [hswitch]
  exact ⟨q', h.switched hs⟩

theorem TaskInv.schedule (h : TaskInv k q) : ∃ q', TaskInv k.schedule q' := by
  rw [TaskQueues.schedule]
  split_ifs
  · exact ⟨q, ⟨h.sleepers, h.threads, h.awake, h.running⟩, h.current⟩
  · rcases h.sleepers.placed.schedule h.sleepers.requeues_free with hsame | ⟨s, q', hswitch, hs⟩
    · rw [hsame]
      exact ⟨q, ⟨h.sleepers, h.threads, h.awake, h.running⟩, h.current⟩
    · rw [hswitch]
      exact ⟨q', h.switched hs⟩

/-! ## Steps along the code -/

/-- Two places in the same part of the code. -/
def Alike (p p' : TaskPc) : Prop :=
  p'.cleaning = p.cleaning ∧ p'.afterDie = p.afterDie ∧ p'.inSection = p.inSection ∧ p'.notifying = false

theorem threads_update {c : Nat} {pc : Nat → TaskPc} (hother : ∀ t, t ≠ c → ThreadAt s lock q t (pc t))
    (hself : ThreadAt s lock q c p) (t : Nat) : ThreadAt s lock q t (update pc c p t) := by
  by_cases ht : t = c
  · rwa [ht, update_self]
  · rw [update_of_ne ht]
    exact hother t ht

theorem Steady.goto (h : Steady k q) (p' : TaskPc) (hp : k.pc k.crt = p) (hcrt : k.crt ≠ k.sched.main) (hadd : p ≠ .exitAdd clean)
    (halike : Alike p p') : Steady (k.goto p') q where
  sleepers := h.sleepers
  threads := threads_update (fun t _ => h.threads t)
    ((hp ▸ h.threads k.crt).stay hcrt halike.1 halike.2.1 halike.2.2.1 halike.2.2.2 rfl)
  awake := h.awake.goto (hp ▸ hadd)
  running := h.running

theorem TaskInv.goto_current (h : TaskInv k q) (p' : TaskPc) (hp : k.pc k.crt = p) (hdie : p'.afterDie = p.afterDie)
    (hpark : p.parked = false) (hserved : p' = .exitUnlock ∨ p' = .exitSwitch → clean ∈ q .ready) :
    CurrentAt k.sched q ((k.goto p').pc k.crt) := by
  have hpc : (k.goto p').pc k.crt = p' := update_self ..
  rw [hpc]
  refine ⟨fun hmain => ?_, hserved⟩
  rcases h.current.status hmain with hrun | ⟨-, hparked⟩ | ⟨hdead, hold⟩
  · exact .inl hrun
  · rw [hp, hpark] at hparked
    cases hparked
  · rw [hp, ← hdie] at hold
    exact .inr (.inr ⟨hdead, hold⟩)

theorem TaskInv.goto (h : TaskInv k q) (p' : TaskPc) (hp : k.pc k.crt = p) (hcrt : k.crt ≠ k.sched.main) (hadd : p ≠ .exitAdd clean)
    (halike : Alike p p') (hpark : p.parked = false) (hserved : p' = .exitUnlock ∨ p' = .exitSwitch → clean ∈ q .ready) :
    TaskInv (k.goto p') q where
  toSteady := h.toSteady.goto p' hp hcrt hadd halike
  current := h.goto_current _ hp halike.2.1 hpark hserved

theorem TaskInv.tryLock (h : TaskInv k q) (p' : TaskPc) (hp : k.pc k.crt = p) (hcrt : k.crt ≠ k.sched.main)
    (hadd : p ≠ .exitAdd clean) (halike : Alike p p') (hpark : p.parked = false)
    (hserved : p' ≠ .exitUnlock ∧ p' ≠ .exitSwitch) (answer : Bool) : ∃ q', TaskInv (k.tryLock answer p') q' := by
  rw [TaskQueues.tryLock]
  split_ifs
  · exact ⟨q, h.goto p' hp hcrt hadd halike hpark fun hor => absurd hor (by simpa using hserved)⟩
  · exact h.toSteady.threadYield hcrt

/-- Interrupts, `preempt_count` and `dead_tasks` are not part of the invariant. -/
theorem TaskInv.congr (h : TaskInv k q) (hsched : k'.sched = k.sched) (hpc : k'.pc = k.pc)
    (hlock : k'.deadLock = k.deadLock) (hnode : k'.node = k.node) (hadding : k'.adding = k.adding)
    (hhandlers : k'.handlers = k.handlers) (hcrashed : k'.crashed = k.crashed) : TaskInv k' q where
  sleepers := by rw [hsched, hnode, hadding, hhandlers]; exact h.sleepers
  threads := by rw [hsched, hpc, hlock]; exact h.threads
  awake := by rw [hsched, hpc]; exact h.awake
  running := hcrashed.trans h.running
  current := by rw [hpc, crt, hsched]; exact h.current

/-- Threads other than the clean thread become ready, and other lists than that of the clean
thread change. -/
theorem TaskInv.transfer (h : TaskInv k q) (hsleep : Sleepers k'.sched k'.node k'.adding k'.handlers q')
    (hcrt : k'.sched.crt = k.sched.crt) (hmain : k'.sched.main = k.sched.main)
    (hstatus : ∀ t, k'.sched.status t = k.sched.status t ∨ t ≠ clean ∧ k'.sched.status t = some .ready ∧
      (k.sched.status t = none ∨ k.sched.status t = some .waiting))
    (hlist : q' (.waiting .deadResource) = q (.waiting .deadResource)) (hready : clean ∈ q .ready → clean ∈ q' .ready)
    (hfree : (∀ w, clean ∉ q (.waiting w)) → ∀ w, clean ∉ q' (.waiting w))
    (hpc : k'.pc = k.pc) (hlock : k'.deadLock = k.deadLock) (hcrashed : k'.crashed = k.crashed) : TaskInv k' q' := by
  have hclean : k'.sched.status clean = k.sched.status clean :=
    (hstatus clean).resolve_right fun hne => hne.1 rfl
  refine ⟨⟨hsleep, fun t => ?_, ?_, hcrashed.trans h.running⟩, ?_, ?_⟩
  · rw [hpc, hlock]
    refine (h.threads t).frame hcrt hmain (fun hdead => ?_) (fun _ => by rw [hlist]; exact id) fun _ hwait hw => ?_
    · rcases hstatus t with heq | ⟨-, -, hold⟩
      · rw [heq, hdead]
      · rw [hdead] at hold
        simp at hold
    · exact ⟨hclean ▸ hwait, hfree hw⟩
  · rw [hpc]
    exact h.awake.frame hclean hlist
  · intro hne
    rw [hpc, crt, hcrt] at *
    rw [hmain] at hne
    have hold := h.current.status hne
    rcases hstatus k.sched.crt with heq | ⟨-, hnew, hwas⟩
    · rw [heq]
      exact hold
    · rcases hwas with hwas | hwas
      · rw [hwas] at hold
        simp at hold
      · have hparked : (k.pc k.crt).parked = true := by simpa [hwas] using hold
        exact .inr (.inl ⟨.inr hnew, hparked⟩)
  · rw [hpc, crt, hcrt]
    exact fun hp => hready (h.current.served hp)

/-- Outside of the parked and dead places the current thread is running. -/
theorem TaskInv.crt_running (h : TaskInv k q) (hp : k.pc k.crt = p) (hcrt : k.crt ≠ k.sched.main)
    (hpark : p.parked = false) (hdie : p.afterDie = false) : k.sched.status k.sched.crt = some .running := by
  have hold := h.current.status hcrt
  rw [hp] at hold
  simpa [hpark, hdie] using hold

/-- Only one thread is inside of `cond_var_notify`. -/
theorem TaskInv.not_notifying (h : TaskInv k q) (hp : (k.pc k.crt).inSection = true) {t : Nat} (ht : t ≠ k.crt) :
    (k.pc t).notifying ≠ true := by
  intro hnot
  have hlock := (h.threads t).holds (inSection_of_notifying hnot) (.inr (.inr hnot))
  rw [(h.threads k.crt).holds hp (.inl rfl)] at hlock
  exact ht (Option.some.inj hlock).symm

/-- While a thread is inside of `cond_var_notify`, the clean thread waits. -/
theorem Steady.clean_waiting (h : Steady k q) {t : Nat} (hnot : (k.pc t).notifying = true) :
    k.sched.status clean = some .waiting := by
  cases hp : k.pc t with
  | exitTake n =>
    have hmem := List.mem_of_mem_head? ((h.threads t).takes hp).2
    exact (h.sleepers.asleep hmem).1
  | exitAdd n => exact ((h.threads t).wakes hp).2.1
  | _ =>
    rw [hp] at hnot
    cases hnot

/-- The current thread takes or releases `dead_resource_lock`. -/
theorem TaskInv.setLock (h : TaskInv k q) (p' : TaskPc) (hp : k.pc k.crt = p) (hcrt : k.crt ≠ k.sched.main)
    (hclean : p'.cleaning = p.cleaning) (hdie : p'.afterDie = p.afterDie) (hpark : p.parked = false)
    (hadd : p ≠ .exitAdd clean) (hnot : p'.notifying = false)
    (hlock : p'.inSection = true ∧ lock = some k.crt ∨ p'.inSection = false ∧ lock = none)
    (hserved : p' = .exitUnlock ∨ p' = .exitSwitch → clean ∈ q .ready)
    (hfree : ∀ t, t ≠ k.crt → t = clean ∨ (k.pc t).notifying = true → k.deadLock ≠ some t) :
    TaskInv { k.goto p' with deadLock := lock } q where
  sleepers := h.sleepers
  threads := by
    refine threads_update (fun t ht => (h.threads t).relock ht ?_ fun _ => hfree t ht) ?_
    · rintro m rfl
      rcases hlock with ⟨-, heq⟩ | ⟨-, heq⟩
      · exact Option.some.inj heq
      · cases heq
    · have hself := h.threads k.crt
      rw [hp] at hself
      refine ⟨fun heq => absurd heq hcrt, ?_, ?_, ?_, ?_, ?_, ?_⟩
      · rw [hclean, hself.cleans]
      · rw [hdie]
        exact hself.dies
      · rintro rfl
        simpa using hlock
      · intro hin _
        simpa [hin] using hlock
      · rintro n rfl
        cases hnot
      · rintro n rfl
        cases hnot
  awake := h.awake.goto (hp ▸ hadd)
  running := h.running
  current := h.goto_current p' hp hdie hpark hserved

theorem TaskInv.lockDead (h : TaskInv k q) (p' : TaskPc) (hp : k.pc k.crt = p) (hcrt : k.crt ≠ k.sched.main)
    (hclean : p'.cleaning = p.cleaning) (hdie : p'.afterDie = p.afterDie) (hpark : p.parked = false)
    (hadd : p ≠ .exitAdd clean) (hnot : p'.notifying = false) (hin : p'.inSection = true)
    (hserved : p' ≠ .exitUnlock ∧ p' ≠ .exitSwitch) : ∃ q', TaskInv (k.lockDead p') q' := by
  rw [TaskQueues.lockDead]
  split
  next hlock =>
    refine ⟨q, h.setLock _ hp hcrt hclean hdie hpark hadd hnot (.inl ⟨hin, rfl⟩) ?_ ?_⟩
    · exact fun hor => absurd hor (by simpa using hserved)
    · simp [hlock]
  next => exact h.toSteady.threadYield hcrt

/-- The current thread goes to sleep. -/
theorem TaskInv.sleep (h : TaskInv k q) (w : WaitList) (p' : TaskPc) (hp : k.pc k.crt = p) (hcrt : k.crt ≠ k.sched.main)
    (hw : w = .deadResource ↔ k.crt = clean) (hi : ∀ i, w ≠ .handler i) (hclean : p'.cleaning = p.cleaning)
    (hdie : p.afterDie = false) (hpark : p.parked = false) (hparked : p'.parked = true)
    (hlock : lock = k.deadLock ∧ p.inSection = false ∨ lock = none ∧ p.inSection = true) :
    TaskInv { k.goto p' with sched := (k.sched.appendWaiting w).markThreadBlock, deadLock := lock }
      (update q (.waiting w) (q (.waiting w) ++ [k.crt])) := by
  have hrun := h.crt_running hp hcrt hpark hdie
  have hself := h.threads k.crt
  rw [hp] at hself
  have hp' : p'.afterDie = false ∧ p'.inSection = false ∧ p'.notifying = false ∧ p' ≠ .exitUnlock ∧ p' ≠ .exitSwitch := by
    cases p' <;> simp_all [TaskPc.parked, TaskPc.afterDie, TaskPc.inSection, TaskPc.notifying]
  have hstatus : ∀ t, t ≠ k.crt →
      (k.sched.appendWaiting w).markThreadBlock.status t = k.sched.status t := fun t ht => update_of_ne ht ..
  refine ⟨⟨h.sleepers.sleep hcrt hrun hw hi, threads_update (fun t ht => ?_) ?_, ?_, h.running⟩, ?_⟩
  · have hframe : ThreadAt (k.sched.appendWaiting w).markThreadBlock k.deadLock
        (update q (.waiting w) (q (.waiting w) ++ [k.crt])) t (k.pc t) := by
      refine (h.threads t).frame rfl rfl (fun hdead => (hstatus t ht).trans hdead) ?_ ?_
      · intro _ hhead
        by_cases heq : w = .deadResource
        · subst heq
          rw [update_self, List.head?_append, hhead]
          rfl
        · rwa [update_of_ne (by simpa using Ne.symm heq)]
      · intro hnot hwait hlist
        have hne : clean ≠ k.crt := by
          intro heq
          rw [heq, crt, hrun] at hwait
          cases hwait
        refine ⟨(hstatus clean hne).trans hwait, fun v => ?_⟩
        by_cases hv : v = w
        · subst hv
          simpa [hne] using hlist v
        · rw [update_of_ne (by simpa using hv)]
          exact hlist v
    rcases hlock with ⟨rfl, -⟩ | ⟨rfl, hin⟩
    · exact hframe
    · refine hframe.relock ht (by simp) fun _ _ heq => ht ?_
      rw [hself.holds hin (.inl rfl)] at heq
      exact (Option.some.inj heq).symm
  · refine ⟨fun heq => absurd heq hcrt, by rw [hclean, hself.cleans], by simp [hp'.1], ?_, by simp [hp'.2.1], ?_, ?_⟩
    · intro heq
      rcases hlock with ⟨rfl, hin⟩ | ⟨rfl, -⟩
      · rw [hself.locked heq] at hin
        cases hin
      · cases heq
    · rintro n rfl
      cases hp'.2.2.1
    · rintro n rfl
      cases hp'.2.2.1
  · by_cases heq : clean = k.crt
    · obtain rfl := hw.mpr heq.symm
      refine .inr (.inr ⟨?_, .inl ?_⟩)
      · rw [heq]
        exact update_self ..
      · simp [heq]
    · have hadd : k.pc k.crt ≠ .exitAdd clean := by
        rw [hp]
        rintro rfl
        cases hdie
      have hne : w ≠ .deadResource := fun hd => heq (hw.mp hd).symm
      exact (h.awake.goto hadd).frame (hstatus clean heq) (update_of_ne (by simpa using hne.symm) ..)
  · change CurrentAt _ _ (update k.pc k.crt p' k.crt)
    rw [update_self]
    exact ⟨fun _ => .inr (.inl ⟨.inl (update_self ..), hparked⟩), fun hor => absurd hor (by simpa using hp'.2.2.2)⟩

/-- `thread->status = TASK_DEAD`. -/
theorem TaskInv.markDead (h : TaskInv k q) (hp : k.pc k.crt = .exitMark) :
    TaskInv { k.goto .exitLock with sched := k.sched.markThreadDead } q := by
  have hcrt := h.crt_ne_main (by simp [hp])
  have hrun := h.crt_running hp hcrt rfl rfl
  have hself := h.threads k.crt
  rw [hp] at hself
  have hclean : clean ≠ k.crt := by
    intro heq
    cases hself.cleans.mpr heq.symm
  have hstatus : ∀ t, t ≠ k.crt → k.sched.markThreadDead.status t = k.sched.status t := fun t ht => update_of_ne ht ..
  have hsleep := h.sleepers.setStatus (x := .dead) hcrt (by simp [crt, hrun]) (by simp [crt, hrun]) (by simp) (by simp)
  refine ⟨⟨hsleep, threads_update (fun t ht => ?_) ?_, ?_, h.running⟩, ?_⟩
  · exact (h.threads t).frame rfl rfl (fun hdead => (hstatus t ht).trans hdead) (fun _ hhead => hhead)
      fun _ hwait hlist => ⟨(hstatus clean hclean).trans hwait, hlist⟩
  · refine ⟨fun heq => absurd heq hcrt, ?_, fun _ => update_self .., ?_, by simp [TaskPc.inSection], by simp, by simp⟩
    · simpa [TaskPc.cleaning] using hclean.symm
    · intro heq
      cases hself.locked heq
  · exact (h.awake.goto (by simp [hp])).frame (hstatus clean hclean) rfl
  · change CurrentAt _ _ (update k.pc k.crt .exitLock k.crt)
    rw [update_self]
    exact ⟨fun _ => .inr (.inr ⟨update_self .., rfl⟩), by simp⟩

/-- Behind `cond_var_notify` the clean thread is in `ready_tasks`. -/
theorem TaskInv.clean_ready (h : TaskInv k q) (hp : k.pc k.crt = .exitNotify)
    (hempty : q (.waiting .deadResource) = []) : clean ∈ q .ready := by
  have hself := h.threads k.crt
  rw [hp] at hself
  rcases h.awake with hrun | hready | ⟨-, hmem | ⟨t, ht⟩⟩
  · have heq := h.sleepers.placed.running clean h.sleepers.cleanNotMain hrun
    cases hself.cleans.mpr heq.symm
  · exact h.sleepers.placed.ready clean h.sleepers.cleanNotMain hready
  · rw [hempty] at hmem
    cases hmem
  · have hne : t ≠ k.crt := by
      rintro rfl
      rw [hp] at ht
      cases ht
    refine absurd ?_ (h.not_notifying (by rw [hp]; rfl) hne)
    rw [ht]
    rfl

theorem TaskInv.notify (h : TaskInv k q) (hp : k.pc k.crt = .exitNotify) : ∃ q', TaskInv k.notify q' := by
  have hcrt := h.crt_ne_main (by simp [hp])
  have hself := h.threads k.crt
  rw [hp] at hself
  rw [TaskQueues.notify, h.sleepers.placed.represents.size_eq, h.sleepers.placed.represents.head_eq]
  cases hq : q (.waiting .deadResource) with
  | nil =>
    refine ⟨q, ?_⟩
    rw [if_neg (by simp)]
    exact h.goto _ hp hcrt (by simp) ⟨rfl, rfl, rfl, rfl⟩ rfl fun _ => h.clean_ready hp hq
  | cons n xs =>
    obtain rfl : n = clean := (h.sleepers.asleep (w := .deadResource) (by simp [hq])).2.mp rfl
    refine ⟨q, ?_⟩
    rw [if_pos (by simp)]
    refine ⟨⟨h.sleepers, threads_update (fun t _ => h.threads t) ?_, h.awake.goto (by simp [hp]), h.running⟩, ?_⟩
    · refine ⟨fun heq => absurd heq hcrt, hself.cleans, hself.dies, hself.locked, fun _ _ => hself.holds rfl (.inl rfl),
        ?_, by simp⟩
      intro m hm
      obtain rfl := TaskPc.exitTake.inj hm
      exact ⟨rfl, by rw [hq]; rfl⟩
    · exact h.goto_current _ hp rfl rfl (by simp)

/-- The node of the clean thread is unlinked by `cond_var_notify`. -/
theorem TaskInv.exitTake {n : Nat} (h : TaskInv k q) (hp : k.pc k.crt = .exitTake n) :
    ∃ q', TaskInv { k.goto (.exitAdd n) with sched := k.sched.removeWaiting .deadResource n } q' := by
  have hcrt := h.crt_ne_main (by simp [hp])
  have hself := h.threads k.crt
  rw [hp] at hself
  obtain ⟨rfl, hhead⟩ := hself.takes rfl
  obtain ⟨xs, hq⟩ := List.head?_eq_some_iff.mp hhead
  have hwait := (h.sleepers.asleep (t := clean) (w := .deadResource) (by simp [hq])).1
  refine ⟨_, ⟨h.sleepers.takeClean hq, threads_update (fun t ht => ?_) ?_, ?_, h.running⟩, ?_⟩
  · have hnot := h.not_notifying (by rw [hp]; rfl) ht
    exact (h.threads t).frame rfl rfl id (fun hn => absurd hn hnot) fun hn => absurd hn hnot
  · refine ⟨fun heq => absurd heq hcrt, hself.cleans, hself.dies, hself.locked, fun _ _ => hself.holds rfl (.inl rfl),
      by simp, ?_⟩
    intro m hm
    obtain rfl := TaskPc.exitAdd.inj hm
    exact ⟨rfl, hwait, fun w hw => (h.sleepers.asleep_of_remove hq hw).1 rfl⟩
  · exact .inr (.inr ⟨hwait, .inr ⟨k.crt, update_self ..⟩⟩)
  · change CurrentAt _ _ (update k.pc k.crt (.exitAdd clean) k.crt)
    rw [update_self]
    exact ⟨fun _ => .inr (.inr ⟨hself.dies rfl, rfl⟩), by simp⟩

/-- The clean thread is made ready by `cond_var_notify`. -/
theorem TaskInv.exitAdd {n : Nat} (h : TaskInv k q) (hp : k.pc k.crt = .exitAdd n) :
    ∃ q', TaskInv { k.goto .exitUnlock with sched := k.sched.addThreadNode n, enabled := true } q' := by
  have hcrt := h.crt_ne_main (by simp [hp])
  have hself := h.threads k.crt
  rw [hp] at hself
  obtain ⟨rfl, hwait, hlist⟩ := hself.wakes rfl
  have hclean : k.crt ≠ clean := by
    intro heq
    cases hself.cleans.mpr heq
  have hsleep := h.sleepers.addThreadNode h.sleepers.cleanNotMain hlist (by simp [hwait]) (by simp [hwait])
    fun i hi => (h.sleepers.adds hi).2.1 rfl
  have hadd : k.sched.addThreadNode clean = { k.sched with
      queues := k.sched.queues.append .ready clean, status := update k.sched.status clean (some .ready) } := by
    rw [Scheduler.addThreadNode, if_neg (by simp [hwait])]
  have hdead : ∀ t, k.sched.status t = some .dead → (k.sched.addThreadNode clean).status t = some .dead := by
    intro t ht
    rw [hadd]
    refine (update_of_ne ?_ ..).trans ht
    rintro rfl
    rw [hwait] at ht
    cases ht
  refine ⟨_, ⟨hsleep, threads_update (fun t ht => ?_) ?_, ?_, h.running⟩, ?_⟩
  · have hnot := h.not_notifying (by rw [hp]; rfl) ht
    exact (h.threads t).frame rfl rfl (hdead t) (fun hn => absurd hn hnot) fun hn => absurd hn hnot
  · exact ⟨fun heq => absurd heq hcrt, hself.cleans, fun _ => hdead _ (hself.dies rfl), hself.locked,
      fun _ _ => hself.holds rfl (.inl rfl), by simp, by simp⟩
  · have hready : (k.sched.addThreadNode clean).status clean = some .ready := by
      simp [hadd]
    exact .inr (.inl hready)
  · change CurrentAt _ _ (update k.pc k.crt .exitUnlock k.crt)
    rw [update_self]
    exact ⟨fun _ => .inr (.inr ⟨hdead _ (hself.dies rfl), rfl⟩), by simp⟩

/-- A new thread is added to the schedule. -/
theorem TaskInv.spawn {t : Nat} (h : TaskInv k q) (ht : k.sched.status t = none) :
    TaskInv { k with sched := k.sched.addThreadNode t, enabled := true } (update q .ready (q .ready ++ [t])) := by
  have hmain : t ≠ k.sched.main := by
    rintro rfl
    exact h.sleepers.mainCreated ht
  have hclean : t ≠ clean := by
    rintro rfl
    have hawake := h.awake
    rw [CleanAwake, ht] at hawake
    simp at hawake
  have hsleep := h.sleepers.addThreadNode hmain (h.sleepers.not_waiting (by simp [ht])) (by simp [ht]) (by simp [ht]) ?_
  · refine h.transfer hsleep rfl rfl (fun m => ?_) (update_of_ne (by simp) ..) (by simp +contextual) ?_ rfl rfl rfl
    · by_cases hm : m = t
      · subst hm
        exact .inr ⟨hclean, by simp [Scheduler.addThreadNode, ht], .inl ht⟩
      · exact .inl (by simp [Scheduler.addThreadNode, ht, hm])
    · intro hlist w
      rw [update_of_ne (by simp)]
      exact hlist w
  · intro i hi
    have hwait := (h.sleepers.adds hi).2.2.1
    rw [ht] at hwait
    cases hwait

/-- The unlock of `kernel_clean_thread` finds no thread inside of `cond_var_notify`. -/
theorem TaskInv.strayUnlock (h : TaskInv k q) (hp : k.pc k.crt = .cleanStrayUnlock) :
    TaskInv { k.goto .cleanDestroy with deadLock := none } q := by
  have hcrt := h.crt_ne_main (by simp [hp])
  have hrun := h.crt_running hp hcrt rfl rfl
  have hclean : k.crt = clean := (h.threads k.crt).cleans.mp (by rw [hp]; rfl)
  refine h.setLock _ hp hcrt rfl rfl rfl (by simp) rfl (.inr ⟨rfl, rfl⟩) (by simp) fun t ht hor => ?_
  rcases hor with rfl | hnot
  · exact absurd hclean.symm ht
  · have hwait := h.toSteady.clean_waiting hnot
    rw [← hclean, crt, hrun] at hwait
    cases hwait

/-- The lock is released by its holder. -/
theorem TaskInv.unlock (h : TaskInv k q) (p' : TaskPc) (hp : k.pc k.crt = p) (hin : p.inSection = true)
    (hclean : p'.cleaning = p.cleaning) (hdie : p'.afterDie = p.afterDie) (hadd : p ≠ .exitAdd clean)
    (hnot : p'.notifying = false) (hout : p'.inSection = false)
    (hserved : p' = .exitUnlock ∨ p' = .exitSwitch → clean ∈ q .ready) :
    TaskInv { k.goto p' with deadLock := none } q := by
  have hcrt : k.crt ≠ k.sched.main := by
    refine h.crt_ne_main ?_
    rw [hp]
    rintro rfl
    cases hin
  have hpark : p.parked = false := by
    cases p <;> simp_all [TaskPc.inSection, TaskPc.parked]
  have hlock := (h.threads k.crt).holds (by rw [hp]; exact hin) (.inl rfl)
  refine h.setLock _ hp hcrt hclean hdie hpark hadd hnot (.inr ⟨hout, rfl⟩) hserved fun t ht _ heq => ?_
  rw [hlock] at heq
  exact ht (Option.some.inj heq).symm

/-- Every step of the current thread outside of the handlers keeps the invariant. -/
theorem TaskInv.exec {answer : Bool} (h : TaskInv k q) (hp : k.pc k.crt = p) (hstep : k.exec answer p = some k') :
    ∃ q', TaskInv k' q' := by
  have hcrt : k.crt ≠ k.sched.main := by
    refine h.crt_ne_main ?_
    rintro huser
    rw [hp] at huser
    subst huser
    cases hstep
  cases p with
  | user => cases hstep
  | yield =>
    obtain rfl := Option.some.inj hstep
    exact (h.toSteady.goto .user hp hcrt (by simp) ⟨rfl, rfl, rfl, rfl⟩).threadYield hcrt
  | spawnAlloc t =>
    obtain rfl := Option.some.inj hstep
    exact h.tryLock (.spawnAdd t) hp hcrt (by simp) ⟨rfl, rfl, rfl, rfl⟩ rfl (by simp) answer
  | spawnAdd t =>
    rw [TaskQueues.exec] at hstep
    split_ifs at hstep with ht
    obtain rfl := Option.some.inj hstep
    exact ⟨_, (h.spawn ht).goto .user hp hcrt (by simp) ⟨rfl, rfl, rfl, rfl⟩ rfl (by simp)⟩
  | readEnter =>
    obtain rfl := Option.some.inj hstep
    exact ⟨q, (h.goto .readChar hp hcrt (by simp) ⟨rfl, rfl, rfl, rfl⟩ rfl (by simp)).congr rfl rfl rfl rfl rfl
      rfl rfl⟩
  | readChar =>
    obtain rfl := Option.some.inj hstep
    have hclean : k.crt ≠ clean := by
      intro heq
      have hcleans := (h.threads k.crt).cleans.mpr heq
      rw [hp] at hcleans
      cases hcleans
    rw [readKeyboard]
    split_ifs
    · exact ⟨q, (h.goto .user hp hcrt (by simp) ⟨rfl, rfl, rfl, rfl⟩ rfl (by simp)).congr rfl rfl rfl rfl rfl
        rfl rfl⟩
    · exact ⟨_, (h.sleep .keyboard .readYield hp hcrt (by simpa using hclean) (by simp) rfl rfl rfl rfl
        (.inl ⟨rfl, rfl⟩)).congr rfl rfl rfl rfl rfl rfl rfl⟩
  | readYield =>
    obtain rfl := Option.some.inj hstep
    exact (h.toSteady.goto .readEnter hp hcrt (by simp) ⟨rfl, rfl, rfl, rfl⟩).threadYield hcrt
  | exitDetach =>
    obtain rfl := Option.some.inj hstep
    exact h.tryLock .exitMark hp hcrt (by simp) ⟨rfl, rfl, rfl, rfl⟩ rfl (by simp) answer
  | exitMark =>
    obtain rfl := Option.some.inj hstep
    exact ⟨q, h.markDead hp⟩
  | exitLock =>
    obtain rfl := Option.some.inj hstep
    exact h.lockDead .exitAlloc hp hcrt rfl rfl rfl (by simp) rfl rfl (by simp)
  | exitAlloc =>
    obtain rfl := Option.some.inj hstep
    exact h.tryLock .exitRecord hp hcrt (by simp) ⟨rfl, rfl, rfl, rfl⟩ rfl (by simp) answer
  | exitRecord =>
    obtain rfl := Option.some.inj hstep
    exact ⟨q, (h.goto .exitNotify hp hcrt (by simp) ⟨rfl, rfl, rfl, rfl⟩ rfl (by simp)).congr rfl rfl rfl rfl rfl
      rfl rfl⟩
  | exitNotify =>
    obtain rfl := Option.some.inj hstep
    exact h.notify hp
  | exitTake n =>
    obtain rfl := Option.some.inj hstep
    exact h.exitTake hp
  | exitAdd n =>
    obtain rfl := Option.some.inj hstep
    exact h.exitAdd hp
  | exitUnlock =>
    obtain rfl := Option.some.inj hstep
    exact ⟨q, h.unlock .exitSwitch hp rfl rfl rfl (by simp) rfl rfl fun _ => h.current.served (.inl hp)⟩
  | exitSwitch =>
    obtain rfl := Option.some.inj hstep
    exact h.toSteady.doContextSwitch (List.ne_nil_of_mem (h.current.served (.inr hp)))
  | cleanLock =>
    obtain rfl := Option.some.inj hstep
    exact h.lockDead .cleanTest hp hcrt rfl rfl rfl (by simp) rfl rfl (by simp)
  | cleanTest =>
    obtain rfl := Option.some.inj hstep
    split_ifs
    · exact ⟨q, h.goto _ hp hcrt (by simp) ⟨rfl, rfl, rfl, rfl⟩ rfl (by simp)⟩
    · exact ⟨q, h.goto _ hp hcrt (by simp) ⟨rfl, rfl, rfl, rfl⟩ rfl (by simp)⟩
  | cleanSleep =>
    obtain rfl := Option.some.inj hstep
    have hclean : k.crt = clean := (h.threads k.crt).cleans.mp (by rw [hp]; rfl)
    exact ⟨_, h.sleep .deadResource .cleanYield hp hcrt (by simpa using hclean) (by simp) rfl rfl rfl rfl (.inr ⟨rfl, rfl⟩)⟩
  | cleanYield =>
    obtain rfl := Option.some.inj hstep
    exact (h.toSteady.goto .cleanLock hp hcrt (by simp) ⟨rfl, rfl, rfl, rfl⟩).threadYield hcrt
  | cleanUnlock =>
    obtain rfl := Option.some.inj hstep
    exact ⟨q, h.unlock .cleanMove hp rfl rfl rfl (by simp) rfl rfl (by simp)⟩
  | cleanMove =>
    obtain rfl := Option.some.inj hstep
    exact ⟨q, (h.goto .cleanStrayUnlock hp hcrt (by simp) ⟨rfl, rfl, rfl, rfl⟩ rfl (by simp)).congr rfl rfl rfl
      rfl rfl rfl rfl⟩
  | cleanStrayUnlock =>
    obtain rfl := Option.some.inj hstep
    exact ⟨q, h.strayUnlock hp⟩
  | cleanDestroy =>
    obtain rfl := Option.some.inj hstep
    exact h.tryLock .cleanNext hp hcrt (by simp) ⟨rfl, rfl, rfl, rfl⟩ rfl (by simp) answer
  | cleanNext =>
    obtain rfl := Option.some.inj hstep
    exact (h.toSteady.goto .cleanLock hp hcrt (by simp) ⟨rfl, rfl, rfl, rfl⟩).threadYield hcrt

/-! ## Interrupts -/

/-- Every step of a handler keeps the invariant. -/
theorem TaskInv.handle (h : TaskInv k q) (i : Nat) (rest : List Nat) : ∃ q', TaskInv (k.handle i rest) q' := by
  rw [TaskQueues.handle]
  split
  next n hn =>
    obtain ⟨-, hclean, hwait, -⟩ := h.sleepers.adds hn
    refine ⟨_, h.transfer (h.sleepers.addThreadNodeHead hn) rfl rfl (fun t => ?_) (update_of_ne (by simp) ..) ?_ ?_ rfl
      rfl rfl⟩
    · by_cases ht : t = n
      · subst ht
        exact .inr ⟨hclean, update_self .., .inr hwait⟩
      · exact .inl (update_of_ne ht ..)
    · intro hmem
      rw [update_self, mem_insertSecond]
      exact .inr hmem
    · intro hlist w
      rw [update_of_ne (by simp)]
      exact hlist w
  next hadding =>
    split
    next n hn =>
      obtain ⟨xs, hq, hsleep⟩ := h.sleepers.takeHandler hn hadding
      refine ⟨_, h.transfer hsleep rfl rfl (fun t => .inl rfl) (update_of_ne (by simp) ..) ?_ ?_ rfl rfl rfl⟩
      · rw [update_of_ne (by simp)]
        exact id
      · exact fun hlist w hw => hlist w (h.sleepers.asleep_of_remove hq hw).2
    next =>
      have hpop : TaskInv { k with stack := update k.stack k.crt rest } q := h.congr rfl rfl rfl rfl rfl rfl rfl
      split_ifs
      · exact hpop.schedule
      · exact ⟨q, h.congr rfl rfl rfl rfl rfl rfl rfl⟩

theorem TaskInv.timer (h : TaskInv k q) : TaskInv k.timer q := by
  refine ⟨⟨?_, h.threads, h.awake, h.running⟩, h.current⟩
  have hsleep := h.sleepers
  exact ⟨hsleep.placed, hsleep.mainCreated, hsleep.cleanNotMain, hsleep.asleep, hsleep.loop,
    fun i hi => hsleep.fresh i (Nat.le_of_succ_le hi), hsleep.adds, hsleep.addsOnce⟩

theorem TaskInv.keyboard (h : TaskInv k q) : ∃ q', TaskInv k.keyboard q' := by
  refine ⟨_, h.transfer h.sleepers.keyboard rfl rfl (fun t => .inl rfl) ?_ ?_ ?_ rfl rfl rfl⟩
  · rw [update_of_ne (by simp), update_of_ne (by simp)]
  · rw [update_of_ne (by simp), update_of_ne (by simp)]
    exact id
  · intro hlist w
    by_cases hk : w = .keyboard
    · simp [hk]
    · rw [update_of_ne (by simpa using hk)]
      by_cases hw : w = .handler k.handlers
      · subst hw
        rw [update_self]
        exact hlist _
      · rw [update_of_ne (by simpa using hw)]
        exact hlist w

/-! ## Runs -/

/-- The invariant holds for some sequences. -/
def Sound (k : TaskQueues) : Prop := ∃ q, TaskInv k q

theorem TaskInv.step {a : Action} (h : TaskInv k q) (hstep : k.step a = some k') : Sound k' := by
  cases a with
  | call f =>
    rw [TaskQueues.step] at hstep
    split_ifs at hstep with hcall
    obtain rfl := Option.some.inj hstep
    refine ⟨q, h.goto f.entry hcall.2.2.2 hcall.2.1 (by simp) ?_ rfl ?_⟩
    · cases f <;> exact ⟨rfl, rfl, rfl, rfl⟩
    · cases f <;> simp [TaskCall.entry]
  | run answer =>
    rw [TaskQueues.step] at hstep
    split_ifs at hstep
    cases hstack : k.stack k.crt with
    | nil =>
      rw [hstack] at hstep
      exact h.exec rfl hstep
    | cons i rest =>
      rw [hstack] at hstep
      obtain rfl := Option.some.inj hstep
      exact h.handle i rest
  | timer =>
    rw [TaskQueues.step] at hstep
    split_ifs at hstep
    obtain rfl := Option.some.inj hstep
    exact ⟨q, h.timer⟩
  | keyboard =>
    rw [TaskQueues.step] at hstep
    split_ifs at hstep
    obtain rfl := Option.some.inj hstep
    exact h.keyboard

/-- The scheduler with the idle thread only. -/
def bare : Scheduler WaitList Nat where
  queues := ⟨⟨fun _ => none, fun _ => none⟩, fun _ => .init⟩
  status := fun t => if t = 0 then some .running else none
  crt := 0
  main := 0

theorem bare_sleepers : Sleepers bare (fun _ => none) (fun _ => none) 0 fun _ => [] := by
  refine ⟨⟨⟨fun _ => LinkedList.holds_init, ?_⟩, ?_, ?_, ?_, ?_, ?_⟩, ?_, ?_, ?_, ?_, ?_, ?_, ?_⟩ <;>
    simp +contextual [bare, clean]

theorem start_sleepers : Sleepers start.sched start.node start.adding start.handlers
    (update (fun _ => []) .ready [clean, 2]) := by
  have hfirst := bare_sleepers.addThreadNode (n := clean) (by decide) (by simp) (by decide) (by decide) (by simp)
  have hsecond := hfirst.addThreadNode (n := 2) (by decide) (by simp) (by decide) (by decide) (by simp)
  rw [update_idem] at hsecond
  exact hsecond

theorem start_sound : Sound start := by
  refine ⟨_, ⟨start_sleepers, fun t => ?_, .inr (.inl rfl), rfl⟩, fun hne => absurd rfl hne, by simp [start, clean, crt,
    Scheduler.addThreadNode]⟩
  by_cases ht : t = clean
  · subst ht
    exact ⟨by decide, by decide, by decide, by simp [start], by simp [start, TaskPc.inSection], by simp [start],
      by simp [start]⟩
  · have hpc : start.pc t = .user := if_neg ht
    rw [hpc]
    exact ⟨fun _ => rfl, by simpa [TaskPc.cleaning] using ht, by simp [TaskPc.afterDie], by simp [start],
      by simp [TaskPc.inSection], by simp, by simp⟩

/-- Where the node of a thread has to be, depending on its status. -/
def InPlace (k : TaskQueues) (q : Queue WaitList → List Nat) (t : Nat) : Prop :=
  match k.sched.status t with
  | some .running => t = k.crt ∧ ∀ j, t ∉ q j
  | some .ready => (q .ready).count t = 1 ∧ ∀ w, t ∉ q (.waiting w)
  | some .waiting => t ∉ q .ready ∧ ∀ v w, t ∈ q (.waiting v) → t ∈ q (.waiting w) → v = w
  | some .dead => t ∉ q .ready
  | _ => True

theorem TaskInv.inPlace (h : TaskInv k q) {t : Nat} (ht : t ≠ k.sched.main) : InPlace k q t := by
  rw [InPlace]
  split
  next hrun =>
    refine ⟨h.sleepers.placed.running t ht hrun, ?_⟩
    exact h.sleepers.not_listed ht (h.sleepers.not_waiting (by simp [hrun])) (by simp [hrun])
  next hready =>
    refine ⟨?_, h.sleepers.not_waiting (by simp [hready])⟩
    exact List.count_eq_one_of_mem (h.sleepers.placed.represents.holds .ready).nodup
      (h.sleepers.placed.ready t ht hready)
  next hwait =>
    refine ⟨h.sleepers.not_ready ht (by simp [hwait]), fun v w hv hw => ?_⟩
    exact Queue.waiting.inj (h.sleepers.placed.represents.apart hv hw)
  next hdead => exact h.sleepers.not_ready ht (by simp [hdead])
  next => trivial

/-- In every run of the task queues, the nodes are where the status of the threads says, and
`do_context_switch` is never entered without a ready task. -/
theorem queues_in_place {as : List Action} (hrun : Run (Steps step) start as k) :
    k.crashed = false ∧ ∃ q, k.sched.queues.Represents q ∧ ∀ t, t ≠ k.sched.main → InPlace k q t := by
  have hsound : Sound k := hrun.invariant (fun ⟨_, hq⟩ hstep => hq.step hstep) start_sound
  obtain ⟨q, hq⟩ := hsound
  exact ⟨hq.running, q, hq.sleepers.placed.represents, fun t => hq.inPlace⟩

/-- The second thread is woken before it yields, and exits once it has read a character. -/
def sampleRead : List Action :=
  [Action.timer] ++ List.replicate 3 (Action.run true) ++ [Action.run false, .run true, .run true, .call .readKeyboardChar, .run true,
    .run false, .keyboard] ++ List.replicate 4 (Action.run true) ++ [Action.timer] ++ List.replicate 4 (Action.run true) ++
    [Action.call .threadExit] ++ List.replicate 10 (Action.run true)

theorem sample_in_place : ∃ k, Run (Steps step) start sampleRead k ∧ k.sched.status 2 = some .dead ∧
    k.crashed = false ∧ ∃ q, k.sched.queues.Represents q ∧ ∀ t, t ≠ k.sched.main → InPlace k q t := by
  have hcheck : (execute step start sampleRead).any (fun k => decide (k.sched.status 2 = some .dead)) = true := by
    decide +kernel
  rw [Option.any_eq_true] at hcheck
  obtain ⟨k, hk, hdead⟩ := hcheck
  exact ⟨k, run_of_execute hk, of_decide_eq_true hdead, queues_in_place (run_of_execute hk)⟩

end TaskQueues

end LuckOS
