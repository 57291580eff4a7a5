import LuckOS.BlockingQueues

/-!
# Preemption inside of the blocking sequences

The blocking functions link the node of a thread, change its status and release a lock in
separate statements, and the exit of a thread changes its status before it is recorded as
dead. Each of these windows is harmful exactly if the thread is switched out inside of it:
its node is linked twice, it keeps a lock while it is asleep, or it is never recorded.
-/

namespace LuckOS.KernelThreads

open Function Runs Stmt Scheduler

variable {k k' : KernelThreads} {q q' : Queue YieldLock → List Nat} {as : List Action} {l : YieldLock} {t : Nat}

/-- No thread is preempted while it is being linked. -/
def LinksWhole (k : KernelThreads) (a : Action) : Prop := k.Preempts a → ¬ k.Linking

/-- What holds in every such run. -/
def Sound (k : KernelThreads) : Prop := k.Locked ∧ ∃ q, ThreadInv k q

theorem start_sound : start.Sound := ⟨start_locked, _, start_threadInv⟩

theorem Sound.step {a : Action} (h : k.Sound) (hlink : k.LinksWhole a) (hstep : k.step a = some k') : k'.Sound := by
  obtain ⟨hl, q, hinv⟩ := h
  exact ⟨hl.step hstep, hinv.step hl hlink hstep⟩

theorem sound_of_run (hrun : Run (Guarded LinksWhole (Steps KernelThreads.step)) start as k) : k.Sound :=
  hrun.invariant (fun h hstep => h.step hstep.1 hstep.2) start_sound

/-- Threads are preempted outside of the functions only, and find every lock free. -/
def calm (k : KernelThreads) : Action → Bool
  | .preempt => decide (k.code k.crt = [] ∧ k.sched.status k.crt = some .running)
  | .run _ => match k.code k.crt with
    | .lock l :: _ => (k.holder l).isNone
    | _ => true
  | _ => true

/-- The step enters `do_context_switch` on its own account: in `schedule`, or in the loop of
`yieldlock_lock`. -/
def Switches (k : KernelThreads) (a : Action) : Prop :=
  k.Preempts a ∨ ∃ answer l rest, a = .run answer ∧ k.code k.crt = .lock l :: rest ∧ k.holder l ≠ none

/-- The current thread holds a lock, and will not be queued when it is switched out. -/
def Stranding (k : KernelThreads) : Prop := ∃ l, k.holder l = some k.crt ∧ k.sched.status k.crt ≠ some .running

/-- No thread is switched out between its linking, marking or end and the release of its lock. -/
def BlocksWhole (k : KernelThreads) (a : Action) : Prop := k.Switches a → ¬ k.Linking ∧ ¬ k.Stranding

/-- The holder of a lock is the current thread or can be scheduled. -/
def HoldersReady (k : KernelThreads) : Prop :=
  ∀ l t, k.holder l = some t → t = k.crt ∨ t ≠ k.sched.main ∧ k.sched.status t = some .ready

theorem HoldersReady.switched {sched : Scheduler YieldLock Nat} (h : k.HoldersReady) (hq : QueueInv k q) (hl : k.Locked)
    (hs : k.sched.Switched q sched q') (hcrt : ¬ k.Stranding) (k' : KernelThreads) (hsched : k'.sched = sched)
    (hholder : k'.holder = k.holder) : k'.HoldersReady := by
  intro l t ht
  rw [hholder] at ht
  rw [crt, hsched]
  by_cases heq : t = sched.crt
  · exact .inl heq
  · have hmain : t ≠ k.sched.main := by
      rintro rfl
      have hrel := (hl.holds l k.sched.main).mp ht
      rw [hq.idle.1] at hrel
      cases hrel
    refine .inr ⟨by rw [hs.main]; exact hmain, ?_⟩
    rw [hs.others t heq]
    split_ifs with hreq
    · rfl
    · rcases h l t ht with rfl | ⟨-, hready⟩
      · have hrun : k.sched.status k.crt = some .running := by
          by_contra hne
          exact hcrt ⟨l, ht, hne⟩
        exact absurd ⟨⟨hrun, hmain⟩, rfl⟩ hreq
      · exact hready

/-- Steps without a switch: the holders are the same or the current thread, and no other
thread leaves `ready_tasks`. -/
theorem HoldersReady.mono (h : k.HoldersReady) (hcrt : k'.sched.crt = k.sched.crt) (hmain : k'.sched.main = k.sched.main)
    (hholder : ∀ l t, k'.holder l = some t → t = k.crt ∨ k.holder l = some t)
    (hready : ∀ t, t ≠ k.crt → k.sched.status t = some .ready → k'.sched.status t = some .ready) : k'.HoldersReady := by
  intro l t ht
  by_cases heq : t = k.crt
  · exact .inl (heq.trans hcrt.symm)
  · obtain ⟨htmain, hstatus⟩ := (h l t ((hholder l t ht).resolve_left heq)).resolve_left heq
    exact .inr ⟨by rwa [hmain], hready t heq hstatus⟩

theorem HoldersReady.add (h : k.HoldersReady) (n : Nat) (k' : KernelThreads) (hsched : k'.sched = k.sched.addThreadNode n)
    (hholder : k'.holder = k.holder) : k'.HoldersReady := by
  refine h.mono (by rw [hsched]; rfl) (by rw [hsched]; rfl) (fun _ _ ht => .inr (hholder ▸ ht)) fun t _ hready => ?_
  rw [hsched, Scheduler.addThreadNode]
  simp only
  split_ifs
  · exact hready
  · by_cases heq : t = n
    · simp [heq]
    · rwa [update_of_ne heq]

theorem HoldersReady.exec {s : Stmt} {answer : Bool} {rest : List Stmt} (h : k.HoldersReady) (hl : k.Locked)
    (hq : ThreadInv k q) (hcode : k.code k.crt = s :: rest) (hblock : k.BlocksWhole (.run answer))
    (hexec : k.exec answer rest s = some k') : k'.HoldersReady := by
  cases s with
  | lock l =>
    cases hholder : k.holder l with
    | none =>
      simp only [KernelThreads.exec, hholder, Option.some.injEq] at hexec
      subst hexec
      refine h.mono rfl rfl (fun l' t ht => ?_) fun _ _ => id
      by_cases heq : l' = l
      · subst heq
        simp only [update_self] at ht
        exact .inl (Option.some.inj ht).symm
      · simp only [update_of_ne heq] at ht
        exact .inr ht
    | some t =>
      simp only [KernelThreads.exec, hholder, Option.map_eq_some_iff] at hexec
      obtain ⟨sched, hyield, rfl⟩ := hexec
      obtain ⟨hfree, -⟩ := hq.free hcode (by simp) (by simp) (by simp)
      obtain ⟨sched', q', hyield', hs⟩ := hq.placed.threadYield (hq.crt_ne_main hcode) fun _ w => hfree (.waiting w)
      obtain rfl : sched' = sched := by simpa [hyield] using hyield'.symm
      refine h.switched hq.toQueueInv hl hs (hblock (.inr ⟨answer, l, rest, rfl, hcode, ?_⟩)).2 _ rfl rfl
      simp [hholder]
  | unlock l =>
    obtain rfl := Option.some.inj hexec
    refine h.mono rfl rfl (fun l' t ht => .inr ?_) fun _ _ => id
    by_cases heq : l' = l
    · subst heq
      simp at ht
    · simpa [update_of_ne heq] using ht
  | yield =>
    obtain ⟨sched, hyield, rfl⟩ := Option.map_eq_some_iff.mp hexec
    have hasleep : k.sched.Requeues → ∀ w, k.sched.crt ∉ q (.waiting w) := by
      intro hrun w hw
      rcases (hq.asleep hw).2.2 with hwait | ⟨-, c, hc⟩
      · rw [hrun.1] at hwait
        cases hwait
      · rw [show k.code k.sched.crt = _ from hcode] at hc
        cases hc
    obtain ⟨sched', q', hyield', hs⟩ := hq.placed.threadYield (hq.crt_ne_main hcode) hasleep
    obtain rfl : sched' = sched := by simpa [hyield] using hyield'.symm
    refine h.switched hq.toQueueInv hl hs ?_ _ rfl rfl
    rintro ⟨l, hholder, -⟩
    rw [hl.holds, hcode] at hholder
    have hnone : releases l rest = false := (hl.fits_crt hcode).1.2 l
    simp [releases, hnone] at hholder
  | leave =>
    obtain ⟨sched, hswitch, rfl⟩ := Option.map_eq_some_iff.mp hexec
    obtain ⟨hfree, -⟩ := hq.free hcode (by simp) (by simp) (by simp)
    have hne : q .ready ≠ [] := by
      intro hempty
      rw [Scheduler.doContextSwitch, hq.placed.head?_ready, hempty] at hswitch
      cases hswitch
    obtain ⟨sched', q', hswitch', hs⟩ := hq.placed.doContextSwitch (fun _ w => hfree (.waiting w)) hne
    obtain rfl : sched' = sched := by simpa [hswitch] using hswitch'.symm
    refine h.switched hq.toQueueInv hl hs ?_ _ rfl rfl
    rintro ⟨l, hholder, -⟩
    obtain rfl : rest = [] := (hl.fits_crt hcode).1
    rw [hl.holds, hcode] at hholder
    cases hholder
  | add n =>
    obtain rfl := Option.some.inj hexec
    exact h.add n _ rfl rfl
  | mark =>
    obtain rfl := Option.some.inj hexec
    exact h.mono rfl rfl (fun _ _ => .inr) fun t hne hready => (update_of_ne hne ..).trans hready
  | die =>
    obtain rfl := Option.some.inj hexec
    exact h.mono rfl rfl (fun _ _ => .inr) fun t hne hready => (update_of_ne hne ..).trans hready
  | wake l =>
    simp only [KernelThreads.exec] at hexec
    split_ifs at hexec
    · obtain ⟨n, -, rfl⟩ := Option.map_eq_some_iff.mp hexec
      exact h.mono rfl rfl (fun _ _ => .inr) fun _ _ => id
    · obtain rfl := Option.some.inj hexec
      exact h.mono rfl rfl (fun _ _ => .inr) fun _ _ => id
  | append l =>
    obtain rfl := Option.some.inj hexec
    exact h.mono rfl rfl (fun _ _ => .inr) fun _ _ => id
  | remove l n =>
    obtain rfl := Option.some.inj hexec
    exact h.mono rfl rfl (fun _ _ => .inr) fun _ _ => id
  | test l =>
    obtain rfl := Option.some.inj hexec
    exact h.mono rfl rfl (fun _ _ => .inr) fun _ _ => id
  | check p =>
    obtain rfl := Option.some.inj hexec
    exact h.mono rfl rfl (fun _ _ => .inr) fun _ _ => id
  | holdNo m =>
    obtain rfl := Option.some.inj hexec
    exact h.mono rfl rfl (fun _ _ => .inr) fun _ _ => id
  | record =>
    obtain rfl := Option.some.inj hexec
    exact h.mono rfl rfl (fun _ _ => .inr) fun _ _ => id

theorem BlocksWhole.linksWhole {a : Action} (h : k.BlocksWhole a) : k.LinksWhole a := fun hpre => (h (.inl hpre)).1

theorem HoldersReady.preempt (h : k.HoldersReady) (hl : k.Locked) (hq : ThreadInv k q) (hblock : k.BlocksWhole .preempt)
    (hstep : k.step .preempt = some k') : k'.HoldersReady := by
  obtain ⟨sched, hschedule, rfl⟩ := Option.map_eq_some_iff.mp hstep
  by_cases hpos : 0 < (k.sched.queues.list .ready).size
  · obtain ⟨hlink, hstrand⟩ := hblock (.inl ⟨rfl, hpos⟩)
    have hfree : k.sched.Requeues → ∀ w, k.sched.crt ∉ q (.waiting w) := by
      intro hrun w hw
      rcases (hq.asleep hw).2.2 with hwait | ⟨-, c, hc⟩
      · rw [hrun.1] at hwait
        cases hwait
      · exact hlink (hq.linking hl hw hc)
    rw [Scheduler.schedule, if_pos hpos] at hschedule
    rw [hq.placed.represents.size_eq] at hpos
    obtain ⟨sched', q', hswitch, hs⟩ := hq.placed.doContextSwitch hfree (List.ne_nil_of_length_pos hpos)
    obtain rfl : sched' = sched := by simpa [hschedule] using hswitch.symm
    exact h.switched hq.toQueueInv hl hs hstrand _ rfl rfl
  · rw [Scheduler.schedule, if_neg hpos] at hschedule
    obtain rfl := Option.some.inj hschedule
    exact h

theorem HoldersReady.step {a : Action} (h : k.HoldersReady) (hl : k.Locked) (hq : ThreadInv k q) (hblock : k.BlocksWhole a)
    (hstep : k.step a = some k') : k'.HoldersReady := by
  cases a with
  | spawn t =>
    simp only [KernelThreads.step] at hstep
    split_ifs at hstep
    obtain rfl := Option.some.inj hstep
    exact h.add t _ rfl rfl
  | call f =>
    simp only [KernelThreads.step] at hstep
    split_ifs at hstep
    obtain rfl := Option.some.inj hstep
    exact h.mono rfl rfl (fun _ _ => .inr) fun _ _ => id
  | run answer =>
    simp only [KernelThreads.step] at hstep
    split at hstep
    · cases hstep
    · exact h.exec hl hq (by assumption) hblock hstep
  | preempt => exact h.preempt hl hq hblock hstep
  | wakeParent t p =>
    simp only [KernelThreads.step] at hstep
    split_ifs at hstep
    obtain rfl := Option.some.inj hstep
    exact h.add t _ rfl rfl

/-- What holds in every run in which the blocking sequences are not interrupted. -/
def HoldersSound (k : KernelThreads) : Prop := k.Sound ∧ k.HoldersReady

theorem start_holdersSound : start.HoldersSound := ⟨start_sound, fun _ _ ht => nomatch ht⟩

theorem HoldersSound.step {a : Action} (h : k.HoldersSound) (hblock : k.BlocksWhole a) (hstep : k.step a = some k') :
    k'.HoldersSound := by
  obtain ⟨⟨hl, q, hq⟩, hready⟩ := h
  exact ⟨Sound.step ⟨hl, q, hq⟩ hblock.linksWhole hstep, hready.step hl hq hblock hstep⟩

/-- A node is linked in `ready_tasks`. -/
def LinkedReady (k : KernelThreads) (t : Nat) : Prop :=
  ∃ xs, LinkedList.Holds k.sched.queues.links (k.sched.queues.list .ready) xs ∧ t ∈ xs

/-- The holder of a lock is neither the current thread nor linked in `ready_tasks`. -/
def HeldByStranded (k : KernelThreads) : Prop := ∃ l t, k.holder l = some t ∧ t ≠ k.crt ∧ ¬ k.LinkedReady t

/-- In every run in which no thread is switched out inside of a blocking sequence or of its
end while it holds a lock, every lock is held by a thread that can go on. -/
theorem not_held_by_stranded (hrun : Run (Guarded BlocksWhole (Steps step)) start as k) : ¬ k.HeldByStranded := by
  have hsound : k.HoldersSound := hrun.invariant (fun h hstep => h.step hstep.1 hstep.2) start_holdersSound
  obtain ⟨⟨-, q, hq⟩, hready⟩ := hsound
  rintro ⟨l, t, hholder, hne, hnot⟩
  obtain ⟨hmain, hstatus⟩ := (hready l t hholder).resolve_left hne
  exact hnot ⟨q .ready, hq.placed.represents.holds .ready, hq.placed.ready t hmain hstatus⟩

theorem not_linking_of_calm {a : Action} (h : k.calm a = true) (hswitch : k.Switches a) :
    ¬ k.Linking ∧ k.sched.status k.crt = some .running := by
  rcases hswitch with ⟨rfl, -⟩ | ⟨answer, l, rest, rfl, hcode, hheld⟩
  · obtain ⟨hnil, hrun⟩ := of_decide_eq_true h
    refine ⟨?_, hrun⟩
    rintro ⟨l, c, -, hcode⟩
    rw [hnil] at hcode
    cases hcode
  · rw [calm, hcode] at h
    exact absurd (Option.isNone_iff_eq_none.mp h) hheld

theorem blocksWhole_of_calm {k : KernelThreads} {a : Action} (h : k.calm a = true) : k.BlocksWhole a := by
  intro hswitch
  obtain ⟨hlink, hrun⟩ := not_linking_of_calm h hswitch
  refine ⟨hlink, ?_⟩
  rintro ⟨l, -, hne⟩
  exact hne hrun

/-- The first thread waits for a child of process 1, and is marked as blocked. -/
def sampleBlocking : List Action :=
  [.spawn 1, .spawn 2, .preempt, .call (.processWait 1), .run true, .run true, .run false, .run true]

theorem sample_not_held_by_stranded :
    ∃ k, Run (Guarded BlocksWhole (Steps step)) start (sampleBlocking ++ [.run true, .run true]) k ∧ ¬ k.HeldByStranded := by
  obtain ⟨k, hk⟩ : ∃ k, execute (permit calm step) start (sampleBlocking ++ [.run true, .run true]) = some k := ⟨_, rfl⟩
  have hrun := run_of_execute_permit blocksWhole_of_calm hk
  exact ⟨k, hrun, not_held_by_stranded hrun⟩

/-- Preempted before its release, the lock of process 1 is held by a thread that is asleep. -/
theorem sample_held_by_stranded : ∃ as k, Run (Steps step) start as k ∧ k.HeldByStranded := by
  obtain ⟨k, hk, hholder, hcrt, hready⟩ : ∃ k, execute step start (sampleBlocking ++ [.preempt]) = some k ∧
      k.holder (.process 1) = some 1 ∧ k.crt = 2 ∧ (k.sched.queues.list .ready).head = none := ⟨_, rfl, rfl, rfl, rfl⟩
  refine ⟨_, k, run_of_execute hk, .process 1, 1, hholder, by simp [hcrt], ?_⟩
  rintro ⟨xs, hholds, hmem⟩
  rw [hholds.head, List.head?_eq_none_iff] at hready
  rw [hready] at hmem
  cases hmem

/-- No thread is switched out between the end of its life and its record in `dead_tasks`. -/
def RecordsWhole (k : KernelThreads) (a : Action) : Prop :=
  k.Switches a → k.sched.status k.crt = some .dead → k.crt ∈ k.deadTasks

/-- A dead thread is recorded, or it is the current one and about to be recorded. -/
structure DeadInv (k : KernelThreads) : Prop where
  locked : k.Locked
  final : k.sched.status k.crt = some .dead → ∀ s ∈ k.code k.crt, s.isFinal = true
  recorded : ∀ t, k.sched.status t = some .dead → t ∈ k.deadTasks ∨ t = k.crt ∧ .record ∈ k.code t

theorem dead_of_switchTo {s : Scheduler YieldLock Nat} {n : Nat} (h : (s.switchTo n).status t = some .dead) :
    t ≠ n ∧ s.status t = some .dead := by
  have hne : t ≠ n := by
    rintro rfl
    rw [switchTo_status, update_self] at h
    cases h
  rw [switchTo_status_of_ne hne] at h
  split_ifs at h
  · cases h
  · exact ⟨hne, h⟩

theorem doContextSwitch_eq_some {s u : Scheduler YieldLock Nat} (h : s.doContextSwitch = some u) : ∃ n, u = s.switchTo n := by
  obtain ⟨n, -, rfl⟩ := Option.map_eq_some_iff.mp h
  exact ⟨n, rfl⟩

/-- A switch, if the current thread is recorded should it be dead. -/
theorem DeadInv.switched {s : Scheduler YieldLock Nat} {n : Nat} (h : k.DeadInv) (hl : k'.Locked)
    (hcrt : k.sched.status k.crt = some .dead → k.crt ∈ k.deadTasks) (hstatus : s.status = k.sched.status)
    (hsched : k'.sched = s.switchTo n) (hdead : k'.deadTasks = k.deadTasks) : k'.DeadInv := by
  refine ⟨hl, fun hfinal => ?_, fun t ht => .inl ?_⟩
  · rw [crt, hsched, switchTo_crt, switchTo_status, update_self] at hfinal
    cases hfinal
  · rw [hsched] at ht
    obtain ⟨-, ht⟩ := dead_of_switchTo ht
    rw [hstatus] at ht
    rw [hdead]
    rcases h.recorded t ht with hmem | ⟨rfl, -⟩
    · exact hmem
    · exact hcrt ht

/-- A step of the current thread that leaves the status of all threads alone, up to making
some ready. -/
theorem DeadInv.mono (h : k.DeadInv) (hl : k'.Locked) (hcrt : k'.sched.crt = k.sched.crt)
    (hstatus : ∀ t, k'.sched.status t = some .dead → k.sched.status t = some .dead)
    (hself : k.sched.status k.crt = some .dead → (∀ s ∈ k.code k.crt, s.isFinal = true) →
      (∀ s ∈ k'.code k.crt, s.isFinal = true) ∧ (.record ∈ k.code k.crt → .record ∈ k'.code k.crt ∨ k.crt ∈ k'.deadTasks))
    (hdead : ∀ t ∈ k.deadTasks, t ∈ k'.deadTasks) : k'.DeadInv := by
  have hcrt' : k'.crt = k.crt := hcrt
  refine ⟨hl, fun hd => ?_, fun t ht => ?_⟩
  · rw [hcrt'] at hd ⊢
    exact (hself (hstatus _ hd) (h.final (hstatus _ hd))).1
  · have ht' := hstatus t ht
    rcases h.recorded t ht' with hmem | ⟨rfl, hrec⟩
    · exact .inl (hdead t hmem)
    · rcases (hself ht' (h.final ht')).2 hrec with hrec | hmem
      · exact .inr ⟨hcrt'.symm, hrec⟩
      · exact .inl hmem

theorem dead_of_addThreadNode {s : Scheduler YieldLock Nat} {n : Nat} (h : (s.addThreadNode n).status t = some .dead) :
    s.status t = some .dead := by
  simp only [Scheduler.addThreadNode] at h
  split_ifs at h
  · exact h
  · by_cases heq : t = n
    · simp [heq] at h
    · rwa [update_of_ne heq] at h

section Exec

variable {s : Stmt} {rest : List Stmt} {answer : Bool}

/-- The current thread goes on with the rest of its code. -/
theorem DeadInv.next (h : k.DeadInv) (hl : k'.Locked) (hcode : k.code k.crt = s :: rest) (hcrt : k'.sched.crt = k.sched.crt)
    (hstatus : ∀ t, k'.sched.status t = some .dead → k.sched.status t = some .dead)
    (hcode' : k'.code = update k.code k.crt rest) (hdead : ∀ t ∈ k.deadTasks, t ∈ k'.deadTasks)
    (hrecord : s = .record → k.crt ∈ k'.deadTasks) : k'.DeadInv := by
  refine h.mono hl hcrt hstatus (fun _ hfinal => ?_) hdead
  have hself : k'.code k.crt = rest := by
    rw [hcode', update_self]
  rw [hcode] at hfinal
  rw [hself, hcode]
  refine ⟨fun s' hs' => hfinal s' (List.mem_cons_of_mem _ hs'), fun hrec => ?_⟩
  rcases List.mem_cons.mp hrec with heq | hrec
  · exact .inr (hrecord heq.symm)
  · exact .inl hrec

/-- A statement that a dead thread does not execute. -/
theorem DeadInv.alive (h : k.DeadInv) (hl : k'.Locked) (hcode : k.code k.crt = s :: rest) (hs : s.isFinal = false)
    (hcrt : k'.sched.crt = k.sched.crt)
    (hstatus : ∀ t, k'.sched.status t = some .dead → k.sched.status t = some .dead)
    (hdead : k'.deadTasks = k.deadTasks) : k'.DeadInv := by
  refine h.mono hl hcrt hstatus (fun _ hfinal => ?_) fun t ht => hdead ▸ ht
  have hfinal' := hfinal s (by rw [hcode]; exact List.mem_cons_self ..)
  rw [hs] at hfinal'
  cases hfinal'

theorem DeadInv.exec (h : k.DeadInv) (hcode : k.code k.crt = s :: rest) (hrec : k.RecordsWhole (.run answer))
    (hexec : k.exec answer rest s = some k') : k'.DeadInv := by
  have hl := h.locked.exec hcode hexec
  have hfits := h.locked.fits_crt hcode
  have hfinal : s.isFinal = false → k.sched.status k.crt = some .dead → False := by
    intro hs hd
    have hfinal' := h.final hd s (by rw [hcode]; exact List.mem_cons_self ..)
    rw [hs] at hfinal'
    cases hfinal'
  cases s with
  | lock l =>
    cases hholder : k.holder l with
    | none =>
      simp only [KernelThreads.exec, hholder, Option.some.injEq] at hexec
      subst hexec
      exact h.next hl hcode rfl (fun _ => id) rfl (fun _ => id) (by simp)
    | some u =>
      simp only [KernelThreads.exec, hholder, Option.map_eq_some_iff] at hexec
      obtain ⟨sched, hyield, rfl⟩ := hexec
      obtain ⟨n, rfl⟩ := doContextSwitch_eq_some hyield
      exact h.switched hl (hrec (.inr ⟨answer, l, rest, rfl, hcode, by simp [hholder]⟩)) k.sched.queueMain_status rfl rfl
  | unlock l =>
    obtain rfl := Option.some.inj hexec
    exact h.next hl hcode rfl (fun _ => id) rfl (fun _ => id) (by simp)
  | yield =>
    obtain ⟨sched, hyield, rfl⟩ := Option.map_eq_some_iff.mp hexec
    obtain ⟨n, rfl⟩ := doContextSwitch_eq_some hyield
    exact h.switched hl (fun hd => (hfinal rfl hd).elim) k.sched.queueMain_status rfl rfl
  | leave =>
    obtain ⟨sched, hswitch, rfl⟩ := Option.map_eq_some_iff.mp hexec
    obtain ⟨n, rfl⟩ := doContextSwitch_eq_some hswitch
    refine h.switched hl (fun hd => ?_) rfl rfl rfl
    obtain rfl : rest = [] := hfits.1
    refine (h.recorded k.crt hd).resolve_right fun hrecord => ?_
    rw [hcode] at hrecord
    simp at hrecord
  | wake l =>
    simp only [KernelThreads.exec] at hexec
    split_ifs at hexec
    · obtain ⟨n, -, rfl⟩ := Option.map_eq_some_iff.mp hexec
      refine h.mono hl rfl (fun _ => id) (fun _ hall => ?_) fun _ => id
      have hself : (k.goto (.remove l n :: .add n :: rest)).code k.crt = .remove l n :: .add n :: rest := update_self ..
      rw [hcode] at hall
      rw [hself, hcode]
      refine ⟨fun s' hs' => ?_, fun hrecord => .inl ?_⟩
      · rcases List.mem_cons.mp hs' with rfl | hs'
        · rfl
        · rcases List.mem_cons.mp hs' with rfl | hs'
          · rfl
          · exact hall s' (List.mem_cons_of_mem _ hs')
      · simpa using hrecord
    · obtain rfl := Option.some.inj hexec
      exact h.next hl hcode rfl (fun _ => id) rfl (fun _ => id) (by simp)
  | remove l n =>
    obtain rfl := Option.some.inj hexec
    exact h.next hl hcode rfl (fun _ => id) rfl (fun _ => id) (by simp)
  | add n =>
    obtain rfl := Option.some.inj hexec
    exact h.next hl hcode rfl (fun _ => dead_of_addThreadNode) rfl (fun _ => id) (by simp)
  | record =>
    obtain rfl := Option.some.inj hexec
    exact h.next hl hcode rfl (fun _ => id) rfl (fun _ ht => List.mem_cons_of_mem _ ht) fun _ => List.mem_cons_self ..
  | check p =>
    obtain rfl := Option.some.inj hexec
    exact h.alive hl hcode rfl rfl (fun _ => id) rfl
  | test l =>
    obtain rfl := Option.some.inj hexec
    exact h.alive hl hcode rfl rfl (fun _ => id) rfl
  | append l =>
    obtain rfl := Option.some.inj hexec
    exact h.alive hl hcode rfl rfl (fun _ => id) rfl
  | holdNo m =>
    obtain rfl := Option.some.inj hexec
    exact h.alive hl hcode rfl rfl (fun _ => id) rfl
  | mark =>
    obtain rfl := Option.some.inj hexec
    refine h.alive hl hcode rfl rfl (fun t ht => ?_) rfl
    by_cases heq : t = k.crt
    · subst heq
      simp [markThreadBlock, crt] at ht
    · exact (update_of_ne heq ..).symm.trans ht
  | die =>
    obtain rfl := Option.some.inj hexec
    have hself : (k.goto rest).code k.crt = rest := update_self ..
    refine ⟨hl, fun _ s' hs' => hfits.1.2 s' (hself ▸ hs'), fun t ht => ?_⟩
    by_cases heq : t = k.crt
    · subst heq
      exact .inr ⟨rfl, hself.symm ▸ hfits.1.1⟩
    · have ht' : k.sched.status t = some .dead := (update_of_ne heq ..).symm.trans ht
      exact .inl ((h.recorded t ht').resolve_right fun hcrt => heq hcrt.1)

end Exec

theorem DeadInv.step {a : Action} (h : k.DeadInv) (hrec : k.RecordsWhole a) (hstep : k.step a = some k') : k'.DeadInv := by
  have hl := h.locked.step hstep
  cases a with
  | spawn n =>
    simp only [KernelThreads.step] at hstep
    split_ifs at hstep
    obtain rfl := Option.some.inj hstep
    exact h.mono hl rfl (fun _ => dead_of_addThreadNode) (fun _ hall => ⟨hall, .inl⟩) fun _ => id
  | call f =>
    simp only [KernelThreads.step] at hstep
    split_ifs at hstep with hcond
    obtain rfl := Option.some.inj hstep
    refine h.mono hl rfl (fun _ => id) (fun hd _ => ?_) fun _ => id
    rw [hcond.2.2] at hd
    cases hd
  | run answer =>
    simp only [KernelThreads.step] at hstep
    split at hstep
    · cases hstep
    · exact h.exec (by assumption) hrec hstep
  | preempt =>
    obtain ⟨sched, hschedule, rfl⟩ := Option.map_eq_some_iff.mp hstep
    rw [Scheduler.schedule] at hschedule
    split_ifs at hschedule with hpos
    · obtain ⟨n, rfl⟩ := doContextSwitch_eq_some hschedule
      exact h.switched hl (hrec (.inl ⟨rfl, hpos⟩)) rfl rfl rfl
    · obtain rfl := Option.some.inj hschedule
      exact h
  | wakeParent n p =>
    simp only [KernelThreads.step] at hstep
    split_ifs at hstep
    obtain rfl := Option.some.inj hstep
    exact h.mono hl rfl (fun _ => dead_of_addThreadNode) (fun _ hall => ⟨hall, .inl⟩) fun _ => id

theorem start_deadInv : start.DeadInv := by
  refine ⟨start_locked, ?_, fun t ht => ?_⟩
  · intro hd
    cases hd
  · simp only [start] at ht
    split_ifs at ht
    cases ht

/-- Every dead thread but the current one has been recorded. -/
def DeadRecorded (k : KernelThreads) : Prop := ∀ t, k.sched.status t = some .dead → t ≠ k.crt → t ∈ k.deadTasks

/-- In every run in which no thread is switched out between its end and its record, every
dead thread but the current one has been appended to `dead_tasks`. -/
theorem dead_recorded_of_records_whole (hrun : Run (Guarded RecordsWhole (Steps step)) start as k) : k.DeadRecorded := by
  have hinv : k.DeadInv := hrun.invariant (fun h hstep => h.step hstep.1 hstep.2) start_deadInv
  exact fun t ht hne => (hinv.recorded t ht).resolve_right fun hcrt => hne hcrt.1

theorem recordsWhole_of_calm {k : KernelThreads} {a : Action} (h : k.calm a = true) : k.RecordsWhole a := by
  intro hswitch hd
  rw [(not_linking_of_calm h hswitch).2] at hd
  cases hd

/-- The first thread ends; its record is still to come. -/
def sampleDying : List Action :=
  [.spawn 1, .spawn 2, .preempt, .call (.scheduleThreadExit (some 1)), .run true, .run true, .run true, .run true, .run true,
    .run true, .run true]

theorem sample_dead_recorded :
    ∃ k, Run (Guarded RecordsWhole (Steps step)) start (sampleDying ++ List.replicate 7 (.run true)) k ∧ k.crt = 2 ∧
      k.sched.status 1 = some .dead ∧ 1 ∈ k.deadTasks := by
  have hcheck : (execute (permit calm step) start (sampleDying ++ List.replicate 7 (.run true))).any
      (fun k => decide (k.crt = 2 ∧ k.sched.status 1 = some .dead)) = true := by decide +kernel
  rw [Option.any_eq_true] at hcheck
  obtain ⟨k, hk, hdone⟩ := hcheck
  obtain ⟨hcrt, hd⟩ := of_decide_eq_true hdone
  have hrun := run_of_execute_permit recordsWhole_of_calm hk
  exact ⟨k, hrun, hcrt, hd, dead_recorded_of_records_whole hrun 1 hd (by simp [hcrt])⟩

/-- Preempted at this point, the thread is dead and never recorded. -/
theorem sample_dead_not_recorded : ∃ as k, Run (Steps step) start as k ∧ ¬ k.DeadRecorded := by
  obtain ⟨k, hk, hcrt, hd, hnone⟩ : ∃ k, execute step start (sampleDying ++ [.preempt]) = some k ∧
      k.crt = 2 ∧ k.sched.status 1 = some .dead ∧ k.deadTasks = [] := ⟨_, rfl, rfl, rfl, rfl⟩
  refine ⟨_, k, run_of_execute hk, fun h => ?_⟩
  have hmem := h 1 hd (by simp [hcrt])
  rw [hnone] at hmem
  cases hmem

end LuckOS.KernelThreads
