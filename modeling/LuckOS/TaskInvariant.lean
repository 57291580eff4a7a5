import LuckOS.TaskQueues

/-!
# Where the nodes of the threads are

The invariant of the task queues has two parts. `Sleepers` is about the lists and the
handlers: a node in a waiting list belongs to a waiting thread, and a handler goes through
its own list from the head. `ThreadAt` says what holds of a thread depending on its place
in the code: a thread that exits is dead, the current thread holds `dead_resource_lock`
inside of its sections, and behind `cond_var_notify` the clean thread is ready. The last
fact is why a thread that exits finds a ready task.
-/

namespace LuckOS

open Function Runs Scheduler Queues

/-- The places behind `thread->status = TASK_DEAD`. -/
def TaskPc.afterDie : TaskPc → Bool
  | exitLock | exitAlloc | exitRecord | exitNotify | exitTake _ | exitAdd _ | exitUnlock | exitSwitch => true
  | _ => false

/-- The places of the clean thread. -/
def TaskPc.cleaning : TaskPc → Bool
  | cleanLock | cleanTest | cleanSleep | cleanYield | cleanUnlock | cleanMove | cleanStrayUnlock | cleanDestroy
  | cleanNext => true
  | _ => false

/-- The places between the lock and the unlock of `dead_resource_lock`. -/
def TaskPc.inSection : TaskPc → Bool
  | exitAlloc | exitRecord | exitNotify | exitTake _ | exitAdd _ | exitUnlock => true
  | cleanTest | cleanSleep | cleanUnlock => true
  | _ => false

/-- The places inside of `cond_var_notify`, behind the choice of the node. -/
def TaskPc.notifying : TaskPc → Bool
  | exitTake _ | exitAdd _ => true
  | _ => false

/-- The places between the mark as blocked and the yield. -/
def TaskPc.parked : TaskPc → Bool
  | readYield | cleanYield => true
  | _ => false

namespace TaskQueues

/-- The lists and the handlers. -/
structure Sleepers (s : Scheduler WaitList Nat) (node adding : Nat → Option Nat) (handlers : Nat)
    (q : Queue WaitList → List Nat) : Prop where
  placed : s.Placed q
  mainCreated : s.status s.main ≠ none
  cleanNotMain : clean ≠ s.main
  asleep : ∀ {t w}, t ∈ q (.waiting w) → s.status t = some .waiting ∧ (w = .deadResource ↔ t = clean)
  loop : ∀ i, (q (.waiting (.handler i))).head? = node i
  fresh : ∀ i, handlers ≤ i → node i = none ∧ adding i = none
  adds : ∀ {i n}, adding i = some n →
    n ≠ s.main ∧ n ≠ clean ∧ s.status n = some .waiting ∧ ∀ w, n ∉ q (.waiting w)
  addsOnce : ∀ {i j n}, adding i = some n → adding j = some n → i = j

/-- What holds of a thread at a place of the code. -/
structure ThreadAt (s : Scheduler WaitList Nat) (lock : Option Nat) (q : Queue WaitList → List Nat) (t : Nat)
    (p : TaskPc) : Prop where
  idle : t = s.main → p = .user
  cleans : p.cleaning = true ↔ t = clean
  dies : p.afterDie = true → s.status t = some .dead
  locked : lock = some t → p.inSection = true
  holds : p.inSection = true → t = s.crt ∨ t = clean ∨ p.notifying = true → lock = some t
  takes : ∀ {n}, p = .exitTake n → n = clean ∧ (q (.waiting .deadResource)).head? = some clean
  wakes : ∀ {n}, p = .exitAdd n → n = clean ∧ s.status clean = some .waiting ∧ ∀ w, clean ∉ q (.waiting w)

/-- What holds of the current thread in addition. It is not yet switched out behind the mark
as blocked, and may have been woken there. -/
structure CurrentAt (s : Scheduler WaitList Nat) (q : Queue WaitList → List Nat) (p : TaskPc) : Prop where
  status : s.crt ≠ s.main → s.status s.crt = some .running ∨
    (s.status s.crt = some .waiting ∨ s.status s.crt = some .ready) ∧ p.parked = true ∨
    s.status s.crt = some .dead ∧ p.afterDie = true
  served : p = .exitUnlock ∨ p = .exitSwitch → clean ∈ q .ready

/-- The clean thread runs, is ready, or waits to be woken by a thread that exits. -/
def CleanAwake (s : Scheduler WaitList Nat) (pc : Nat → TaskPc) (q : Queue WaitList → List Nat) : Prop :=
  s.status clean = some .running ∨ s.status clean = some .ready ∨
    s.status clean = some .waiting ∧ (clean ∈ q (.waiting .deadResource) ∨ ∃ t, pc t = .exitAdd clean)

/-- The invariant right before a switch. -/
structure Steady (k : TaskQueues) (q : Queue WaitList → List Nat) : Prop where
  sleepers : Sleepers k.sched k.node k.adding k.handlers q
  threads : ∀ t, ThreadAt k.sched k.deadLock q t (k.pc t)
  awake : CleanAwake k.sched k.pc q
  running : k.crashed = false

/-- The invariant, with the sequences that are in the lists. -/
structure TaskInv (k : TaskQueues) (q : Queue WaitList → List Nat) : Prop extends Steady k q where
  current : CurrentAt k.sched q (k.pc k.crt)

section Sleepers

variable {s t : Scheduler WaitList Nat} {node adding : Nat → Option Nat} {handlers : Nat}
  {q q' : Queue WaitList → List Nat} {n : Nat} {xs : List Nat}

theorem Sleepers.not_waiting (h : Sleepers s node adding handlers q) (hn : s.status n ≠ some .waiting)
    (w : WaitList) : n ∉ q (.waiting w) := fun hmem => hn (h.asleep hmem).1

theorem Sleepers.not_ready (h : Sleepers s node adding handlers q) (hmain : n ≠ s.main)
    (hn : s.status n ≠ some .ready) : n ∉ q .ready := fun hmem => hn (h.placed.queued n hmain hmem)

/-- A thread that neither waits nor is ready is in no list. -/
theorem Sleepers.not_listed (h : Sleepers s node adding handlers q) (hmain : n ≠ s.main)
    (hw : ∀ w, n ∉ q (.waiting w)) (hr : s.status n ≠ some .ready) (j : Queue WaitList) : n ∉ q j := by
  cases j with
  | ready => exact h.not_ready hmain hr
  | waiting w => exact hw w

theorem Sleepers.ne_main_of_waiting (h : Sleepers s node adding handlers q) {w : WaitList} (hn : n ∈ q (.waiting w)) :
    n ≠ s.main := by
  rintro rfl
  exact h.placed.mainWaits w hn

theorem Sleepers.requeues_free (h : Sleepers s node adding handlers q) (hrun : s.Requeues) (w : WaitList) :
    s.crt ∉ q (.waiting w) := h.not_waiting (by rw [hrun.1]; simp) w

theorem Sleepers.switched (h : Sleepers s node adding handlers q) (hs : s.Switched q t q') :
    Sleepers t node adding handlers q' := by
  refine ⟨hs.placed, ?_, ?_, ?_, ?_, h.fresh, ?_, h.addsOnce⟩
  · rw [hs.main]
    by_cases hmain : s.main = t.crt
    · rw [hmain, hs.next]
      simp
    · rw [hs.others _ hmain]
      split_ifs
      · simp
      · exact h.mainCreated
  · rw [hs.main]
    exact h.cleanNotMain
  · intro m w hm
    rw [hs.waits] at hm
    have hm' := h.asleep hm
    exact ⟨hs.status_eq (h.ne_main_of_waiting hm) hm'.1 (by simp) (by simp), hm'.2⟩
  · intro i
    rw [hs.waits]
    exact h.loop i
  · intro i m hm
    obtain ⟨hmain, hclean, hwait, hlist⟩ := h.adds hm
    refine ⟨by rwa [hs.main], hclean, hs.status_eq hmain hwait (by simp) (by simp), fun w => ?_⟩
    rw [hs.waits]
    exact hlist w

/-- A thread that does not wait gets a status other than ready and running. -/
theorem Sleepers.setStatus {x : TaskStatus} (h : Sleepers s node adding handlers q) (hmain : n ≠ s.main)
    (hwait : s.status n ≠ some .waiting) (hready : s.status n ≠ some .ready) (hx : x ≠ .ready) (hx' : x ≠ .running) :
    Sleepers { s with status := update s.status n (some x) } node adding handlers q := by
  refine ⟨h.placed.setStatus (fun hm => h.not_ready hm hready) hx hx', ?_, h.cleanNotMain, ?_, h.loop, h.fresh, ?_,
    h.addsOnce⟩
  · simpa [hmain.symm] using h.mainCreated
  · intro m w hm
    have hne : m ≠ n := by
      rintro rfl
      exact hwait (h.asleep hm).1
    simpa [hne] using h.asleep hm
  · intro i m hm
    have hm' := h.adds hm
    have hne : m ≠ n := by
      rintro rfl
      exact hwait hm'.2.2.1
    simpa [hne] using hm'

/-- The current thread goes to sleep on the list of the keyboard or of the clean thread. -/
theorem Sleepers.sleep {w : WaitList} (h : Sleepers s node adding handlers q) (hmain : s.crt ≠ s.main)
    (hrun : s.status s.crt = some .running) (hw : w = .deadResource ↔ s.crt = clean) (hi : ∀ i, w ≠ .handler i) :
    Sleepers (s.appendWaiting w).markThreadBlock node adding handlers
      (update q (.waiting w) (q (.waiting w) ++ [s.crt])) := by
  have hfree := h.not_listed hmain (h.not_waiting (by simp [hrun])) (by simp [hrun])
  have hplaced := h.placed.appendWaiting (w := w) hfree hmain
  have hready : s.crt ∉ update q (.waiting w) (q (.waiting w) ++ [s.crt]) .ready := by
    rw [update_of_ne (by simp)]
    exact hfree .ready
  refine ⟨hplaced.setStatus (fun _ => hready) (by simp) (by simp), ?_, h.cleanNotMain, ?_, ?_, h.fresh, ?_, h.addsOnce⟩
  · simpa [markThreadBlock, appendWaiting, hmain.symm] using h.mainCreated
  · intro m v hm
    by_cases hcrt : m = s.crt
    · subst hcrt
      refine ⟨by simp [markThreadBlock, appendWaiting], ?_⟩
      by_cases hv : v = w
      · rw [hv]
        exact hw
      · rw [update_of_ne (by simpa using hv)] at hm
        exact absurd hm (hfree _)
    · have hold : m ∈ q (.waiting v) := by
        by_cases hv : v = w
        · subst hv
          simpa [hcrt] using hm
        · rwa [update_of_ne (by simpa using hv)] at hm
      simpa [markThreadBlock, appendWaiting, hcrt] using h.asleep hold
  · intro i
    rw [update_of_ne (by simpa using (hi i).symm)]
    exact h.loop i
  · intro i m hm
    obtain ⟨hm', hclean, hwait, hlist⟩ := h.adds hm
    have hcrt : m ≠ s.crt := by
      rintro rfl
      rw [hrun] at hwait
      cases hwait
    refine ⟨hm', hclean, by simpa [markThreadBlock, appendWaiting, hcrt] using hwait, fun v => ?_⟩
    by_cases hv : v = w
    · subst hv
      simpa [hcrt] using hlist v
    · rw [update_of_ne (by simpa using hv)]
      exact hlist v

/-- A node is unlinked from a waiting list; it is not one of those that are to be added. -/
theorem Sleepers.asleep_of_remove {w : WaitList} (h : Sleepers s node adding handlers q)
    (hq : q (.waiting w) = n :: xs) {m : Nat} {v : WaitList}
    (hm : m ∈ update q (.waiting w) xs (.waiting v)) : m ≠ n ∧ m ∈ q (.waiting v) := by
  have hnodup := (h.placed.represents.holds (.waiting w)).nodup
  rw [hq, List.nodup_cons] at hnodup
  by_cases hv : v = w
  · subst hv
    rw [update_self] at hm
    refine ⟨?_, by rw [hq]; exact List.mem_cons_of_mem _ hm⟩
    rintro rfl
    exact hnodup.1 hm
  · rw [update_of_ne (by simpa using hv)] at hm
    refine ⟨?_, hm⟩
    rintro rfl
    have hn : m ∈ q (.waiting w) := by simp [hq]
    exact hv (Queue.waiting.inj (h.placed.represents.apart hm hn))

/-- The clean thread is unlinked by `cond_var_notify`. -/
theorem Sleepers.takeClean (h : Sleepers s node adding handlers q) (hq : q (.waiting .deadResource) = clean :: xs) :
    Sleepers (s.removeWaiting .deadResource clean) node adding handlers (update q (.waiting .deadResource) xs) := by
  refine ⟨h.placed.removeWaiting hq, h.mainCreated, h.cleanNotMain, ?_, ?_, h.fresh, ?_, h.addsOnce⟩
  · intro m v hm
    exact h.asleep (h.asleep_of_remove hq hm).2
  · intro i
    rw [update_of_ne (by simp)]
    exact h.loop i
  · intro i m hm
    obtain ⟨hmain, hclean, hwait, hlist⟩ := h.adds hm
    exact ⟨hmain, hclean, hwait, fun v hv => hlist v (h.asleep_of_remove hq hv).2⟩

/-- The head of the list of a handler is unlinked. -/
theorem Sleepers.takeHandler {i : Nat} (h : Sleepers s node adding handlers q) (hn : node i = some n)
    (hadding : adding i = none) :
    ∃ xs, q (.waiting (.handler i)) = n :: xs ∧ Sleepers (s.removeWaiting (.handler i) n)
      (update node i (s.queues.links.next n)) (update adding i (some n)) handlers
      (update q (.waiting (.handler i)) xs) := by
  have hhead := (h.loop i).trans hn
  obtain ⟨xs, hq⟩ := List.head?_eq_some_iff.mp hhead
  have hlinked := (h.placed.represents.holds (.waiting (.handler i))).linked
  rw [hq] at hlinked
  have hmem : n ∈ q (.waiting (.handler i)) := by simp [hq]
  have hn' := h.asleep hmem
  refine ⟨xs, hq, h.placed.removeWaiting hq, h.mainCreated, h.cleanNotMain, ?_, ?_, ?_, ?_, ?_⟩
  · intro m v hm
    exact h.asleep (h.asleep_of_remove hq hm).2
  · intro j
    by_cases hj : j = i
    · subst hj
      rw [update_self, update_self]
      simpa using hlinked.2.1.symm
    · rw [update_of_ne (by simpa using hj), update_of_ne hj]
      exact h.loop j
  · intro j hj
    have hne : j ≠ i := by
      rintro rfl
      rw [(h.fresh j hj).1] at hn
      cases hn
    rw [update_of_ne hne, update_of_ne hne]
    exact h.fresh j hj
  · intro j m hm
    by_cases hj : j = i
    · subst hj
      rw [update_self] at hm
      obtain rfl := Option.some.inj hm
      refine ⟨h.ne_main_of_waiting hmem, by simpa using hn'.2, hn'.1, fun v hv => ?_⟩
      exact (h.asleep_of_remove hq hv).1 rfl
    · rw [update_of_ne hj] at hm
      obtain ⟨hmain, hclean, hwait, hlist⟩ := h.adds hm
      exact ⟨hmain, hclean, hwait, fun v hv => hlist v (h.asleep_of_remove hq hv).2⟩
  · have hother : ∀ {j}, j ≠ i → adding j ≠ some n := fun _ hj => (h.adds hj).2.2.2 _ hmem
    intro j l m hj hl
    by_cases hji : j = i <;> by_cases hli : l = i
    · rw [hji, hli]
    · rw [hji, update_self] at hj
      rw [update_of_ne hli, ← Option.some.inj hj] at hl
      exact absurd hl (hother hli)
    · rw [hli, update_self] at hl
      rw [update_of_ne hji, ← Option.some.inj hl] at hj
      exact absurd hj (hother hji)
    · rw [update_of_ne hji] at hj
      rw [update_of_ne hli] at hl
      exact h.addsOnce hj hl

/-- A thread outside of the lists becomes ready. -/
theorem Sleepers.makeReady {queues : Queues (Queue WaitList) Nat} {adding' : Nat → Option Nat}
    (h : Sleepers s node adding handlers q)
    (hplaced : ({ s with queues := queues, status := update s.status n (some .ready) } : Scheduler WaitList Nat).Placed
      (update q .ready xs)) (hfree : ∀ w, n ∉ q (.waiting w))
    (hadding : ∀ {i m}, adding' i = some m → adding i = some m ∧ m ≠ n) (hfresh : ∀ i, handlers ≤ i → adding' i = none) :
    Sleepers { s with queues := queues, status := update s.status n (some .ready) } node adding' handlers
      (update q .ready xs) := by
  have hwaits : ∀ w, update q .ready xs (.waiting w) = q (.waiting w) := fun w => update_of_ne (by simp) ..
  refine ⟨hplaced, ?_, h.cleanNotMain, ?_, ?_, ?_, ?_, ?_⟩
  · by_cases hn : s.main = n
    · simp [hn]
    · simpa [hn] using h.mainCreated
  · intro m w hm
    rw [hwaits] at hm
    have hne : m ≠ n := by
      rintro rfl
      exact hfree w hm
    simpa [hne] using h.asleep hm
  · intro i
    rw [hwaits]
    exact h.loop i
  · exact fun i hi => ⟨(h.fresh i hi).1, hfresh i hi⟩
  · intro i m hm
    obtain ⟨hold, hne⟩ := hadding hm
    simpa [hwaits, hne] using h.adds hold
  · exact fun hi hj => h.addsOnce (hadding hi).1 (hadding hj).1

theorem Sleepers.addThreadNode (h : Sleepers s node adding handlers q) (hmain : n ≠ s.main)
    (hfree : ∀ w, n ∉ q (.waiting w)) (hready : s.status n ≠ some .ready) (hdead : s.status n ≠ some .dead)
    (hadding : ∀ i, adding i ≠ some n) :
    Sleepers (s.addThreadNode n) node adding handlers (update q .ready (q .ready ++ [n])) := by
  have hplaced := h.placed.addThreadNode (h.not_listed hmain hfree hready) hmain hdead
  rw [Scheduler.addThreadNode, if_neg hdead] at hplaced ⊢
  refine h.makeReady hplaced hfree (fun {i m} hm => ⟨hm, ?_⟩) fun i hi => (h.fresh i hi).2
  rintro rfl
  exact hadding i hm

theorem Sleepers.addThreadNodeHead {i : Nat} (h : Sleepers s node adding handlers q) (hi : adding i = some n) :
    Sleepers (s.addThreadNodeHead n) node (update adding i none) handlers
      (update q .ready (insertSecond n (q .ready))) := by
  obtain ⟨hmain, -, hwait, hlist⟩ := h.adds hi
  have hplaced := h.placed.addThreadNodeHead (h.not_listed hmain hlist (by simp [hwait])) hmain
  refine h.makeReady hplaced hlist ?_ ?_
  · intro j m hm
    by_cases hj : j = i
    · subst hj
      simp at hm
    · rw [update_of_ne hj] at hm
      refine ⟨hm, ?_⟩
      rintro rfl
      exact hj (h.addsOnce hm hi)
  · intro j hj
    have hne : j ≠ i := by
      rintro rfl
      rw [(h.fresh j hj).2] at hi
      cases hi
    rw [update_of_ne hne]
    exact (h.fresh j hj).2

/-- A handler takes over the list of the keyboard. -/
theorem Sleepers.keyboard (h : Sleepers s node adding handlers q) :
    Sleepers { s with queues := s.queues.move (.waiting (.handler handlers)) (.waiting .keyboard) }
      (update node handlers (s.queues.list (.waiting .keyboard)).head) adding (handlers + 1)
      (update (update q (.waiting (.handler handlers)) (q (.waiting .keyboard))) (.waiting .keyboard) []) := by
  have hrep := h.placed.represents.move (show Queue.waiting (.handler handlers) ≠ .waiting .keyboard by simp)
  have hmem : ∀ {m w}, m ∈ update (update q (.waiting (.handler handlers)) (q (.waiting .keyboard)))
      (.waiting .keyboard) [] (.waiting w) → w = .handler handlers ∧ m ∈ q (.waiting .keyboard) ∨ m ∈ q (.waiting w) := by
    intro m w hm
    by_cases hk : w = .keyboard
    · subst hk
      simp at hm
    · rw [update_of_ne (by simpa using hk)] at hm
      by_cases hw : w = .handler handlers
      · subst hw
        exact .inl ⟨rfl, by simpa using hm⟩
      · rw [update_of_ne (by simpa using hw)] at hm
        exact .inr hm
  refine ⟨⟨hrep, h.placed.running, ?_, ?_, ?_, ?_⟩, h.mainCreated, h.cleanNotMain, ?_, ?_, ?_, ?_, h.addsOnce⟩
  · simpa using h.placed.ready
  · simpa using h.placed.queued
  · intro w hm
    rcases hmem hm with ⟨-, hm⟩ | hm
    · exact h.placed.mainWaits _ hm
    · exact h.placed.mainWaits _ hm
  · simpa using h.placed.mainRuns
  · intro m w hm
    rcases hmem hm with ⟨rfl, hold⟩ | hold
    · simpa using h.asleep hold
    · exact h.asleep hold
  · intro i
    by_cases hi : i = handlers
    · subst hi
      simpa using (h.placed.represents.head_eq (.waiting .keyboard)).symm
    · simpa [hi] using h.loop i
  · intro i hi
    rw [update_of_ne (by omega)]
    exact h.fresh i (by omega)
  · intro i m hm
    obtain ⟨hmain, hclean, hwait, hlist⟩ := h.adds hm
    refine ⟨hmain, hclean, hwait, fun w hw => ?_⟩
    rcases hmem hw with ⟨-, hw⟩ | hw
    · exact hlist _ hw
    · exact hlist _ hw

end Sleepers

section Threads

variable {s s' : Scheduler WaitList Nat} {node adding : Nat → Option Nat} {handlers : Nat} {pc : Nat → TaskPc}
  {lock lock' : Option Nat} {q q' : Queue WaitList → List Nat} {t : Nat} {p p' : TaskPc}

theorem cleaning_of_inSection (hp : p.inSection = true) (hdie : p.afterDie ≠ true) : p.cleaning = true := by
  cases p <;> simp_all [TaskPc.inSection, TaskPc.afterDie, TaskPc.cleaning]

theorem inSection_of_notifying (hp : p.notifying = true) : p.inSection = true := by
  cases p <;> simp_all [TaskPc.notifying, TaskPc.inSection]

/-- The place of the current thread changes, and stays in the same part of the code. -/
theorem ThreadAt.stay (h : ThreadAt s lock q t p) (hmain : t ≠ s.main) (hclean : p'.cleaning = p.cleaning)
    (hdie : p'.afterDie = p.afterDie) (hsection : p'.inSection = p.inSection) (hnot : p'.notifying = false)
    (hcrt : t = s.crt) : ThreadAt s lock q t p' where
  idle := fun heq => absurd heq hmain
  cleans := by rw [hclean, h.cleans]
  dies := by rw [hdie]; exact h.dies
  locked := by rw [hsection]; exact h.locked
  holds := fun hp _ => h.holds (hsection ▸ hp) (.inl hcrt)
  takes := by rintro n rfl; cases hnot
  wakes := by rintro n rfl; cases hnot

/-- A change of the scheduler and of the lists that does not concern a thread. -/
theorem ThreadAt.frame (h : ThreadAt s lock q t p) (hcrt : s'.crt = s.crt) (hmain : s'.main = s.main)
    (hdead : s.status t = some .dead → s'.status t = some .dead)
    (htake : p.notifying = true → (q (.waiting .deadResource)).head? = some clean →
      (q' (.waiting .deadResource)).head? = some clean)
    (hwake : p.notifying = true → s.status clean = some .waiting → (∀ w, clean ∉ q (.waiting w)) →
      s'.status clean = some .waiting ∧ ∀ w, clean ∉ q' (.waiting w)) : ThreadAt s' lock q' t p where
  idle := by rw [hmain]; exact h.idle
  cleans := h.cleans
  dies := fun hp => hdead (h.dies hp)
  locked := h.locked
  holds := by rw [hcrt]; exact h.holds
  takes := by
    rintro n rfl
    obtain ⟨rfl, hhead⟩ := h.takes rfl
    exact ⟨rfl, htake rfl hhead⟩
  wakes := by
    rintro n rfl
    obtain ⟨rfl, hwait, hlist⟩ := h.wakes rfl
    exact ⟨rfl, hwake rfl hwait hlist⟩

/-- The lock is taken or released by the current thread. -/
theorem ThreadAt.relock (h : ThreadAt s lock q t p) (hne : t ≠ s.crt) (hlock' : ∀ m, lock' = some m → m = s.crt)
    (hfree : p.inSection = true → t = clean ∨ p.notifying = true → lock ≠ some t) : ThreadAt s lock' q t p where
  idle := h.idle
  cleans := h.cleans
  dies := h.dies
  locked := fun hm => absurd (hlock' t hm) hne
  holds := by
    rintro hp (hcrt | hor)
    · exact absurd hcrt hne
    · exact absurd (h.holds hp (.inr hor)) (hfree hp hor)
  takes := h.takes
  wakes := h.wakes

/-- A thread that is switched to has not died. -/
theorem Switched.alive (hs : s.Switched q s' q') (h : ThreadAt s lock q s'.crt p) : p.afterDie ≠ true := by
  intro hp
  by_cases hmain : s'.crt = s.main
  · rw [h.idle hmain] at hp
    cases hp
  · have hdead := h.dies hp
    rw [hs.chosen hmain] at hdead
    cases hdead

theorem ThreadAt.switched (h : ThreadAt s lock q t p) (hs : s.Switched q s' q')
    (hsleep : Sleepers s node adding handlers q) : ThreadAt s' lock q' t p := by
  refine ⟨?_, h.cleans, ?_, h.locked, ?_, ?_, ?_⟩
  · rw [hs.main]
    exact h.idle
  · intro hp
    have hmain : t ≠ s.main := by
      intro heq
      rw [h.idle heq] at hp
      cases hp
    exact hs.status_eq hmain (h.dies hp) (by simp) (by simp)
  · rintro hp (rfl | hor)
    · have hclean := h.cleans.mp (cleaning_of_inSection hp (Switched.alive hs h))
      exact h.holds hp (.inr (.inl hclean))
    · exact h.holds hp (.inr hor)
  · rw [hs.waits]
    exact h.takes
  · intro n hp
    obtain ⟨hn, hwait, hlist⟩ := h.wakes hp
    refine ⟨hn, hs.status_eq hsleep.cleanNotMain hwait (by simp) (by simp), fun w => ?_⟩
    rw [hs.waits]
    exact hlist w

theorem CurrentAt.switched (h : ThreadAt s lock q s'.crt p) (hs : s.Switched q s' q') : CurrentAt s' q' p where
  status := fun _ => .inl hs.next
  served := by
    rintro (rfl | rfl)
    · exact absurd rfl (Switched.alive hs h)
    · exact absurd rfl (Switched.alive hs h)

theorem CleanAwake.switched (h : CleanAwake s pc q) (hs : s.Switched q s' q')
    (hsleep : Sleepers s node adding handlers q) : CleanAwake s' pc q' := by
  by_cases hcrt : clean = s'.crt
  · exact .inl (hcrt ▸ hs.next)
  rcases h with hrun | hready | ⟨hwait, hor⟩
  · have heq := hsleep.placed.running clean hsleep.cleanNotMain hrun
    refine .inr (.inl ?_)
    rw [hs.others _ hcrt, if_pos ⟨⟨heq ▸ hrun, heq ▸ hsleep.cleanNotMain⟩, heq⟩]
  · refine .inr (.inl ?_)
    rw [hs.others _ hcrt]
    split_ifs
    · rfl
    · exact hready
  · refine .inr (.inr ⟨hs.status_eq hsleep.cleanNotMain hwait (by simp) (by simp), ?_⟩)
    rw [hs.waits]
    exact hor

/-- The place of the current thread changes outside of `cond_var_notify`. -/
theorem CleanAwake.goto (h : CleanAwake s pc q) (hpc : pc t ≠ .exitAdd clean) : CleanAwake s (update pc t p) q := by
  rcases h with hrun | hready | ⟨hwait, hmem | ⟨m, hm⟩⟩
  · exact .inl hrun
  · exact .inr (.inl hready)
  · exact .inr (.inr ⟨hwait, .inl hmem⟩)
  · refine .inr (.inr ⟨hwait, .inr ⟨m, ?_⟩⟩)
    rwa [update_of_ne]
    rintro rfl
    exact hpc hm

theorem CleanAwake.frame (h : CleanAwake s pc q) (hstatus : s'.status clean = s.status clean)
    (hmem : q' (.waiting .deadResource) = q (.waiting .deadResource)) : CleanAwake s' pc q' := by
  rw [CleanAwake, hstatus, hmem]
  exact h

end Threads

end TaskQueues

end LuckOS
