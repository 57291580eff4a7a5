import LuckOS.Runs
import LuckOS.Scheduler

/-!
# The mutexes of `sync/mutex.c`

A section under the `ydlock` of a mutex is one step. A mutex is not handed over: the thread that
`mutex_unlock` takes out of the waiting queue has to exchange `hold` again, and any other thread may
be faster.
-/

namespace LuckOS

open Function Runs

/-- Where a thread is: outside of `mutex_lock`, behind a section that has put it into the waiting queue of
a mutex, or back from `schedule_thread_yield` in the loop. -/
inductive MutexPlace where
  | outside
  | toYield (m : Nat)
  | toRetry (m : Nat)
  deriving DecidableEq

def MutexPlace.waitsFor : MutexPlace → Option Nat
  | outside => none
  | toYield m | toRetry m => some m

/-- The scheduler and the mutexes. The last three fields record which threads are between a completed
`mutex_lock` and its `mutex_unlock`, what each of them found in its last exchange, and which of them
`mutex_unlock` has taken out of a queue since then. -/
structure Mutexes where
  sched : Scheduler Nat Nat
  hold : Nat → Bool
  place : Nat → MutexPlace
  inside : Nat → Nat → Bool
  found : Nat → Bool
  woken : Nat → Bool

namespace Mutexes

/-- The idle thread runs, and there is no other thread. -/
def start : Mutexes where
  sched := ⟨⟨⟨fun _ => none, fun _ => none⟩, fun _ => .init⟩, fun t => if t = 0 then some .running else none, 0, 0⟩
  hold := fun _ => false
  place := fun _ => .outside
  inside := fun _ _ => false
  found := fun _ => false
  woken := fun _ => false

/-- The current thread. -/
def crt (k : Mutexes) : Nat := k.sched.crt

/-- The loop of `mutex_lock` up to the release of `ydlock`. -/
def lockSection (k : Mutexes) (m : Nat) : Mutexes :=
  if k.hold m then
    { k with
      sched := (k.sched.appendWaiting m).markThreadBlock
      place := update k.place k.crt (.toYield m)
      found := update k.found k.crt true
      woken := update k.woken k.crt false }
  else
    { k with
      hold := update k.hold m true
      place := update k.place k.crt .outside
      inside := update k.inside m (update (k.inside m) k.crt true)
      found := update k.found k.crt false
      woken := update k.woken k.crt false }

/-- `mutex_unlock`. -/
def unlockSection (k : Mutexes) (m : Nat) : Option Mutexes :=
  let k := { k with hold := update k.hold m false, inside := update k.inside m (update (k.inside m) k.crt false) }
  if (k.sched.queues.list (.waiting m)).size ≠ 0 then
    (k.sched.queues.list (.waiting m)).head.map fun n =>
      { k with sched := (k.sched.removeWaiting m n).addThreadNode n, woken := update k.woken n true }
  else some k

/-- The place behind `schedule_thread_yield`. -/
def yielded : MutexPlace → MutexPlace
  | .toYield m => .toRetry m
  | p => p

/-- A new thread is scheduled, the current thread calls `mutex_lock` or goes on in its loop, it calls
`mutex_unlock`, it yields, or the timer interrupts it. -/
inductive Action where
  | spawn (t : Nat)
  | lock (m : Nat)
  | retry
  | unlock (m : Nat)
  | yield
  | preempt
  deriving DecidableEq

/-- Only the holder unlocks a mutex, and the idle thread locks none. -/
def step (k : Mutexes) : Action → Option Mutexes
  | .spawn t => if k.sched.status t = none then some { k with sched := k.sched.addThreadNode t } else none
  | .lock m => if k.crt ≠ k.sched.main ∧ k.place k.crt = .outside then some (k.lockSection m) else none
  | .retry => match k.place k.crt with
    | .toRetry m => some (k.lockSection m)
    | _ => none
  | .unlock m => if k.place k.crt = .outside ∧ k.inside m k.crt = true then k.unlockSection m else none
  | .yield =>
    if k.crt ≠ k.sched.main then
      k.sched.threadYield.map fun sched => { k with sched := sched, place := update k.place k.crt (yielded (k.place k.crt)) }
    else none
  | .preempt => k.sched.schedule.map fun sched => { k with sched := sched }

/-- The queues, the places and the mutexes. A free mutex with a queue has a thread that was woken for it. -/
structure Inv (k : Mutexes) (q : Queue Nat → List Nat) : Prop where
  placed : k.sched.Placed q
  idle : k.place k.sched.main = .outside ∧ k.sched.status k.sched.main ≠ none
  current : k.crt ≠ k.sched.main → (∀ m, k.place k.crt ≠ .toYield m) → k.sched.status k.crt = some .running
  queued : ∀ {m t}, t ∈ q (.waiting m) →
    k.found t = true ∧ k.sched.status t = some .waiting ∧ k.woken t = false ∧ (k.place t).waitsFor = some m
  ready : ∀ {t}, k.woken t = true → k.sched.status t = some .ready ∨ k.sched.status t = some .running
  one : ∀ {m t t'}, k.inside m t = true → k.inside m t' = true → t = t'
  free : ∀ {m}, k.hold m = false → ∀ t, k.inside m t = false
  pending : ∀ {m}, k.hold m = false → q (.waiting m) ≠ [] → ∃ t, k.woken t = true ∧ (k.place t).waitsFor = some m

variable {k k' : Mutexes} {q q' : Queue Nat → List Nat} {as : List Action} {m t : Nat} {sched : Scheduler Nat Nat}

theorem start_inv : Inv start fun _ => [] where
  placed := {
    represents := ⟨fun _ => LinkedList.holds_init, nofun⟩
    running := fun t ht hrun => by simp [start, show t ≠ 0 from ht] at hrun
    ready := fun t ht hready => by simp [start, show t ≠ 0 from ht] at hready
    queued := nofun
    mainWaits := fun _ => List.not_mem_nil
    mainRuns := fun _ => List.not_mem_nil }
  idle := ⟨rfl, by decide⟩
  current hne := absurd rfl hne
  queued := nofun
  ready := nofun
  one := nofun
  free _ _ := rfl
  pending _ hne := absurd rfl hne

/-- A running thread is in no queue. -/
theorem Inv.free_of_running (h : Inv k q) (hmain : t ≠ k.sched.main) (hrun : k.sched.status t = some .running) (j : Queue Nat) :
    t ∉ q j := by
  intro hmem
  cases j with
  | ready =>
    have hready := h.placed.queued t hmain hmem
    rw [hrun] at hready
    cases hready
  | waiting m =>
    have hwaits := (h.queued hmem).2.1
    rw [hrun] at hwaits
    cases hwaits

/-- A switch keeps the queues of the mutexes. -/
theorem Inv.switched (h : Inv k q) (hs : k.sched.Switched q sched q') (place : Nat → MutexPlace)
    (hplace : ∀ t, (place t).waitsFor = (k.place t).waitsFor) (hidle : place k.sched.main = .outside) :
    Inv { k with sched := sched, place := place } q' := by
  have hmain : sched.main = k.sched.main := hs.main
  refine ⟨hs.placed, ⟨hmain ▸ hidle, ?_⟩, fun _ _ => hs.next, ?_, ?_, h.one, h.free, ?_⟩
  · rw [hmain]
    by_cases hcrt : k.sched.main = sched.crt
    · rw [hcrt, hs.next]
      simp
    · rw [hs.others _ hcrt]
      split_ifs
      · simp
      · exact h.idle.2
  · intro m t hmem
    rw [hs.waits] at hmem
    obtain ⟨hfound, hstatus, hwoken, hwaits⟩ := h.queued hmem
    have hne : t ≠ k.sched.main := fun heq => h.placed.mainWaits m (heq ▸ hmem)
    exact ⟨hfound, hs.status_eq hne hstatus (by simp) (by simp), hwoken, (hplace t).trans hwaits⟩
  · intro t hwoken
    by_cases hcrt : t = sched.crt
    · exact .inr (hcrt ▸ hs.next)
    · change sched.status t = some .ready ∨ sched.status t = some .running
      rw [hs.others t hcrt]
      split_ifs
      · exact .inl rfl
      · exact h.ready hwoken
  · intro m hhold hne
    rw [hs.waits] at hne
    obtain ⟨t, hwoken, hwaits⟩ := h.pending hhold hne
    exact ⟨t, hwoken, (hplace t).trans hwaits⟩

/-- A thread that finds the mutex taken is queued. -/
theorem Inv.enqueue (h : Inv k q) (hcrt : k.crt ≠ k.sched.main) (hrun : k.sched.status k.crt = some .running)
    (hhold : k.hold m = true) (hwaits : ∀ m', (k.place k.crt).waitsFor = some m' → m' = m) :
    Inv (k.lockSection m) (update q (.waiting m) (q (.waiting m) ++ [k.crt])) := by
  have hfree : ∀ j, k.crt ∉ q j := h.free_of_running hcrt hrun
  have happended := h.placed.appendWaiting (w := m) hfree hcrt
  have hready : update q (.waiting m) (q (.waiting m) ++ [k.crt]) .ready = q .ready := update_of_ne (by simp) ..
  have hblocked := happended.setStatus (n := k.crt) (x := .waiting) (fun _ => hready ▸ hfree .ready) (by decide) (by decide)
  rw [lockSection, if_pos hhold]
  refine ⟨hblocked, ⟨?_, ?_⟩, fun _ hplace => absurd (update_self ..) (hplace m), ?_, ?_, h.one, h.free, ?_⟩
  · exact (update_of_ne hcrt.symm ..).trans h.idle.1
  · exact ne_of_eq_of_ne (update_of_ne hcrt.symm ..) h.idle.2
  · intro m' t hmem
    change update k.found k.crt true t = true ∧ update k.sched.status k.crt (some .waiting) t = some .waiting ∧
      update k.woken k.crt false t = false ∧ (update k.place k.crt (.toYield m) t).waitsFor = some m'
    by_cases ht : t = k.crt
    · subst ht
      have hm : m' = m := by
        by_contra hne
        rw [update_of_ne (by simpa using hne)] at hmem
        exact hfree _ hmem
      simp [hm, MutexPlace.waitsFor]
    · have hold : t ∈ q (.waiting m') := by
        by_cases hm : m' = m
        · subst hm
          rw [update_self] at hmem
          exact (List.mem_append.mp hmem).resolve_right fun hlast => ht (List.mem_singleton.mp hlast)
        · rwa [update_of_ne (by simpa using hm)] at hmem
      simpa [ht] using h.queued hold
  · intro t hwoken
    change update k.sched.status k.crt (some .waiting) t = _ ∨ update k.sched.status k.crt (some .waiting) t = _
    by_cases ht : t = k.crt
    · subst ht
      simp at hwoken
    · rw [update_of_ne ht]
      exact h.ready ((update_of_ne ht ..).symm.trans hwoken)
  · intro m' hfalse hne
    have hm : m' ≠ m := by
      rintro rfl
      rw [hhold] at hfalse
      cases hfalse
    rw [update_of_ne (by simpa using hm)] at hne
    obtain ⟨t, hwoken, hwaits'⟩ := h.pending hfalse hne
    have ht : t ≠ k.crt := by
      rintro rfl
      exact hm (hwaits m' hwaits')
    exact ⟨t, (update_of_ne ht ..).trans hwoken, (congrArg MutexPlace.waitsFor (update_of_ne ht ..)).trans hwaits'⟩

/-- A thread that finds the mutex free takes it. -/
theorem Inv.acquire (h : Inv k q) (hcrt : k.crt ≠ k.sched.main) (hrun : k.sched.status k.crt = some .running)
    (hhold : k.hold m = false) (hwaits : ∀ m', (k.place k.crt).waitsFor = some m' → m' = m) : Inv (k.lockSection m) q := by
  have hfree : ∀ j, k.crt ∉ q j := h.free_of_running hcrt hrun
  rw [lockSection, if_neg (by simp [hhold])]
  refine ⟨h.placed, ⟨(update_of_ne hcrt.symm ..).trans h.idle.1, h.idle.2⟩, fun _ _ => hrun, ?_, ?_, ?_, ?_, ?_⟩
  · intro m' t hmem
    have ht : t ≠ k.crt := by
      rintro rfl
      exact hfree _ hmem
    simpa [ht] using h.queued hmem
  · intro t hwoken
    by_cases ht : t = k.crt
    · exact .inr (ht ▸ hrun)
    · exact h.ready ((update_of_ne ht ..).symm.trans hwoken)
  · intro m' t t' ht ht'
    dsimp only at ht ht'
    by_cases hm : m' = m
    · subst hm
      have hself : ∀ t, update (k.inside m') k.crt true t = true → t = k.crt := by
        intro t ht
        by_contra hne
        rw [update_of_ne hne, h.free hhold] at ht
        cases ht
      rw [update_self] at ht ht'
      exact (hself t ht).trans (hself t' ht').symm
    · rw [update_of_ne hm] at ht ht'
      exact h.one ht ht'
  · intro m' (hfalse : update k.hold m true m' = false) t
    have hm : m' ≠ m := by
      rintro rfl
      simp at hfalse
    rw [update_of_ne hm] at hfalse
    exact (congrFun (update_of_ne hm ..) t).trans (h.free hfalse t)
  · intro m' (hfalse : update k.hold m true m' = false) hne
    have hm : m' ≠ m := by
      rintro rfl
      simp at hfalse
    rw [update_of_ne hm] at hfalse
    obtain ⟨t, hwoken, hwaits'⟩ := h.pending hfalse hne
    have ht : t ≠ k.crt := by
      rintro rfl
      exact hm (hwaits m' hwaits')
    exact ⟨t, (update_of_ne ht ..).trans hwoken, (congrArg MutexPlace.waitsFor (update_of_ne ht ..)).trans hwaits'⟩

theorem Inv.lockSection (h : Inv k q) (hcrt : k.crt ≠ k.sched.main) (hrun : k.sched.status k.crt = some .running)
    (hwaits : ∀ m', (k.place k.crt).waitsFor = some m' → m' = m) : ∃ q', Inv (k.lockSection m) q' := by
  cases hhold : k.hold m with
  | true => exact ⟨_, h.enqueue hcrt hrun hhold hwaits⟩
  | false => exact ⟨_, h.acquire hcrt hrun hhold hwaits⟩

/-- The release of a mutex by its holder, in front of the wake-up. -/
theorem Inv.release (h : Inv k q) (hinside : k.inside m k.crt = true) :
    (∀ {m' t t'}, update k.inside m (update (k.inside m) k.crt false) m' t = true →
      update k.inside m (update (k.inside m) k.crt false) m' t' = true → t = t') ∧
    ∀ {m'}, update k.hold m false m' = false → ∀ t, update k.inside m (update (k.inside m) k.crt false) m' t = false := by
  have hnone : ∀ t, update (k.inside m) k.crt false t = false := by
    intro t
    by_cases ht : t = k.crt
    · rw [ht, update_self]
    · rw [update_of_ne ht]
      by_contra hne
      exact ht (h.one ((Bool.not_eq_false _).mp hne) hinside)
  constructor
  · intro m' t t' ht ht'
    by_cases hm : m' = m
    · subst hm
      rw [update_self, hnone] at ht
      cases ht
    · rw [update_of_ne hm] at ht ht'
      exact h.one ht ht'
  · intro m' hfalse t
    by_cases hm : m' = m
    · subst hm
      rw [update_self, hnone]
    · rw [update_of_ne hm] at hfalse ⊢
      exact h.free hfalse t

theorem Inv.unlockSection (h : Inv k q) (hplace : k.place k.crt = .outside) (hinside : k.inside m k.crt = true)
    (hunlock : k.unlockSection m = some k') : ∃ q', Inv k' q' := by
  obtain ⟨hone, hfree⟩ := h.release hinside
  rw [Mutexes.unlockSection] at hunlock
  dsimp only at hunlock
  rw [h.placed.represents.size_eq, h.placed.represents.head_eq] at hunlock
  cases hq : q (.waiting m) with
  | nil =>
    rw [hq] at hunlock
    obtain rfl := Option.some.inj hunlock
    refine ⟨q, h.placed, h.idle, h.current, h.queued, h.ready, hone, hfree, ?_⟩
    intro m' (hfalse : update k.hold m false m' = false) hne
    by_cases hm : m' = m
    · subst hm
      exact absurd hq hne
    · rw [update_of_ne hm] at hfalse
      exact h.pending hfalse hne
  | cons n xs =>
    rw [hq] at hunlock
    obtain rfl := Option.some.inj hunlock
    have hn : n ∈ q (.waiting m) := hq ▸ List.mem_cons_self ..
    have hwaiting := h.queued hn
    have hnodup := (h.placed.represents.holds (.waiting m)).nodup
    rw [hq, List.nodup_cons] at hnodup
    have hmain : n ≠ k.sched.main := fun heq => h.placed.mainWaits m (heq ▸ hn)
    have hgone : ∀ j, n ∉ update q (.waiting m) xs j := by
      intro j hmem
      by_cases hj : j = .waiting m
      · subst hj
        rw [update_self] at hmem
        exact hnodup.1 hmem
      · rw [update_of_ne hj] at hmem
        exact hj (h.placed.represents.apart hmem hn)
    have hdead : (k.sched.removeWaiting m n).status n ≠ some .dead := by
      change k.sched.status n ≠ some .dead
      rw [hwaiting.2.1]
      decide
    have hplaced := (h.placed.removeWaiting hq).addThreadNode hgone hmain hdead
    have hstatus : ∀ t, ((k.sched.removeWaiting m n).addThreadNode n).status t =
        if t = n then some .ready else k.sched.status t := Scheduler.addThreadNode_status hdead
    have hrun : k.crt ≠ k.sched.main → k.sched.status k.crt = some .running := fun hne => h.current hne fun m' => by simp [hplace]
    refine ⟨_, hplaced, ⟨h.idle.1, ?_⟩, ?_, ?_, ?_, hone, hfree, ?_⟩
    · exact ne_of_eq_of_ne ((hstatus _).trans (if_neg hmain.symm)) h.idle.2
    · intro hne hmove
      have hcrt : k.crt ≠ n := by
        rintro rfl
        exact h.free_of_running hne (hrun hne) _ hn
      exact (hstatus _).trans ((if_neg hcrt).trans (hrun hne))
    · intro m' t hmem
      rw [update_of_ne (by simp)] at hmem
      have ht : t ≠ n := by
        rintro rfl
        exact hgone _ hmem
      have hold : t ∈ q (.waiting m') := by
        by_cases hm : m' = m
        · subst hm
          rw [update_self] at hmem
          rw [hq]
          exact List.mem_cons_of_mem _ hmem
        · rwa [update_of_ne (by simpa using hm)] at hmem
      obtain ⟨hfound, hold', hwoken, hwaits⟩ := h.queued hold
      exact ⟨hfound, (hstatus t).trans ((if_neg ht).trans hold'), (update_of_ne ht ..).trans hwoken, hwaits⟩
    · intro t hwoken
      change ((k.sched.removeWaiting m n).addThreadNode n).status t = _ ∨ ((k.sched.removeWaiting m n).addThreadNode n).status t = _
      rw [hstatus]
      split_ifs with ht
      · exact .inl rfl
      · exact h.ready ((update_of_ne ht ..).symm.trans hwoken)
    · intro m' (hfalse : update k.hold m false m' = false) hne
      by_cases hm : m' = m
      · subst hm
        exact ⟨n, update_self .., hwaiting.2.2.2⟩
      · rw [update_of_ne hm] at hfalse
        rw [update_of_ne (by simp), update_of_ne (by simpa using hm)] at hne
        obtain ⟨t, hwoken, hwaits⟩ := h.pending hfalse hne
        refine ⟨t, ?_, hwaits⟩
        by_cases ht : t = n
        · rw [ht]
          exact update_self ..
        · exact (update_of_ne ht ..).trans hwoken

theorem Inv.spawn (h : Inv k q) (hnone : k.sched.status t = none) :
    Inv { k with sched := k.sched.addThreadNode t } (update q .ready (q .ready ++ [t])) := by
  have hmain : t ≠ k.sched.main := fun heq => h.idle.2 (heq ▸ hnone)
  have hfresh : ∀ j, t ∉ q j := by
    intro j hmem
    cases j with
    | ready =>
      have hready := h.placed.queued t hmain hmem
      rw [hnone] at hready
      cases hready
    | waiting m =>
      have hwaits := (h.queued hmem).2.1
      rw [hnone] at hwaits
      cases hwaits
  have hdead : k.sched.status t ≠ some .dead := by
    rw [hnone]
    decide
  have hstatus : ∀ t', k.sched.status t' ≠ none → (k.sched.addThreadNode t).status t' = k.sched.status t' := by
    intro t' hsome
    rw [Scheduler.addThreadNode_status hdead, if_neg]
    rintro rfl
    exact hsome hnone
  refine ⟨h.placed.addThreadNode hfresh hmain hdead, ⟨h.idle.1, ?_⟩, ?_, ?_, ?_, h.one, h.free, ?_⟩
  · exact ne_of_eq_of_ne (hstatus _ h.idle.2) h.idle.2
  · intro hne hmove
    have hrun := h.current hne hmove
    have hsome : k.sched.status k.crt ≠ none := by
      rw [hrun]
      simp
    exact (hstatus _ hsome).trans hrun
  · intro m t' hmem
    rw [update_of_ne (by simp)] at hmem
    obtain ⟨hfound, hwait, hwoken, hwaits⟩ := h.queued hmem
    exact ⟨hfound, (hstatus _ (by rw [hwait]; simp)).trans hwait, hwoken, hwaits⟩
  · intro t' hwoken
    have hold := h.ready hwoken
    have hsome : k.sched.status t' ≠ none := by
      rcases hold with hold | hold <;> rw [hold] <;> simp
    change (k.sched.addThreadNode t).status t' = _ ∨ (k.sched.addThreadNode t).status t' = _
    rw [hstatus t' hsome]
    exact hold
  · intro m hfalse hne
    rw [update_of_ne (by simp)] at hne
    exact h.pending hfalse hne

theorem yielded_waitsFor (p : MutexPlace) : (yielded p).waitsFor = p.waitsFor := by
  cases p <;> rfl

theorem Inv.step {a : Action} (h : Inv k q) (hstep : k.step a = some k') : ∃ q', Inv k' q' := by
  have hasleep : k.sched.Requeues → ∀ w, k.sched.crt ∉ q (.waiting w) := fun hrun w => h.free_of_running hrun.2 hrun.1 _
  cases a with
  | spawn t =>
    rw [Mutexes.step] at hstep
    split_ifs at hstep with hnone
    obtain rfl := Option.some.inj hstep
    exact ⟨_, h.spawn hnone⟩
  | lock m =>
    rw [Mutexes.step] at hstep
    split_ifs at hstep with hcrt
    obtain rfl := Option.some.inj hstep
    refine h.lockSection hcrt.1 (h.current hcrt.1 fun m' => by simp [hcrt.2]) fun m' hm' => ?_
    rw [hcrt.2] at hm'
    cases hm'
  | retry =>
    rw [Mutexes.step] at hstep
    split at hstep
    next m hplace =>
      obtain rfl := Option.some.inj hstep
      have hcrt : k.crt ≠ k.sched.main := by
        intro heq
        rw [heq, h.idle.1] at hplace
        cases hplace
      refine h.lockSection hcrt (h.current hcrt fun m' => by simp [hplace]) fun m' hm' => ?_
      rw [hplace] at hm'
      exact (Option.some.inj hm').symm
    next => cases hstep
  | unlock m =>
    rw [Mutexes.step] at hstep
    split_ifs at hstep with hinside
    exact h.unlockSection hinside.1 hinside.2 hstep
  | yield =>
    rw [Mutexes.step] at hstep
    split_ifs at hstep with hcrt
    obtain ⟨sched, hyield, rfl⟩ := Option.map_eq_some_iff.mp hstep
    obtain ⟨sched', q', hyield', hs⟩ := h.placed.threadYield hcrt hasleep
    obtain rfl : sched' = sched := by simpa [hyield] using hyield'.symm
    refine ⟨q', h.switched hs _ (fun t => ?_) ((update_of_ne hcrt.symm ..).trans h.idle.1)⟩
    by_cases ht : t = k.crt
    · rw [ht, update_self, yielded_waitsFor]
    · rw [update_of_ne ht]
  | preempt =>
    obtain ⟨sched, hschedule, rfl⟩ := Option.map_eq_some_iff.mp hstep
    rcases h.placed.schedule hasleep with hself | ⟨sched', q', hschedule', hs⟩
    · obtain rfl := Option.some.inj (hself.symm.trans hschedule)
      exact ⟨q, h⟩
    · obtain rfl := Option.some.inj (hschedule'.symm.trans hschedule)
      exact ⟨q', h.switched hs _ (fun _ => rfl) h.idle.1⟩

/-- What holds in every run. -/
def Sound (k : Mutexes) : Prop := ∃ q, Inv k q

theorem sound_of_run (hrun : Run (Steps step) start as k) : k.Sound :=
  hrun.invariant (fun ⟨_, h⟩ hstep => h.step hstep) ⟨_, start_inv⟩

/-- In every run no two threads are inside of one mutex, all threads in a queue found the mutex taken, and
a free mutex with a queue has a thread that is ready or running and is going to try it. -/
theorem mutex_exclusion (hrun : Run (Steps step) start as k) :
    (∀ m t t', k.inside m t = true → k.inside m t' = true → t = t') ∧
    ∃ q : Queue Nat → List Nat, k.sched.queues.Represents q ∧
      (∀ m, ∀ t ∈ q (.waiting m), k.found t = true) ∧
      ∀ m, k.hold m = false → q (.waiting m) ≠ [] →
        ∃ t, k.woken t = true ∧ (k.place t).waitsFor = some m ∧ (∀ m', t ∉ q (.waiting m')) ∧
          (k.sched.status t = some .ready ∨ k.sched.status t = some .running) := by
  obtain ⟨q, h⟩ := sound_of_run hrun
  refine ⟨fun m t t' => h.one, q, h.placed.represents, fun m t hmem => (h.queued hmem).1, fun m hfalse hne => ?_⟩
  obtain ⟨t, hwoken, hwaits⟩ := h.pending hfalse hne
  refine ⟨t, hwoken, hwaits, fun m' hmem => ?_, h.ready hwoken⟩
  have hasleep := (h.queued hmem).2.2.1
  rw [hwoken] at hasleep
  cases hasleep

/-- Two threads wait for the mutex of a third one, which releases it. -/
def sampleRelease : List Action :=
  [.spawn 1, .spawn 2, .spawn 3, .preempt, .lock 0, .preempt, .lock 0, .yield, .lock 0, .yield, .unlock 0]

theorem sample_mutex_exclusion : ∃ k, Run (Steps step) start sampleRelease k ∧ k.hold 0 = false ∧
    ∃ t, k.woken t = true ∧ (k.place t).waitsFor = some 0 := by
  have htest : (execute step start sampleRelease).any (fun k =>
      decide (k.hold 0 = false ∧ (k.sched.queues.list (.waiting 0)).size = 1)) = true := by decide +kernel
  rw [Option.any_eq_true] at htest
  obtain ⟨k, hexec, htest⟩ := htest
  obtain ⟨hfalse, hsize⟩ := of_decide_eq_true htest
  have hrun := run_of_execute hexec
  obtain ⟨-, q, hrep, -, hpending⟩ := mutex_exclusion hrun
  have hne : q (.waiting 0) ≠ [] := by
    intro hempty
    rw [hrep.size_eq, hempty] at hsize
    cases hsize
  obtain ⟨t, hwoken, hwaits, -⟩ := hpending 0 hfalse hne
  exact ⟨k, hrun, hfalse, t, hwoken, hwaits⟩

end Mutexes

end LuckOS
