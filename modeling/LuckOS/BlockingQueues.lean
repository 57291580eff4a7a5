import LuckOS.ThreadCode

/-!
# The waiting queues of the blocking locks

As long as no thread is preempted between the linking of its node into a waiting queue and
its marking as blocked, a node is in one list only, and all lists are well formed. The
invariant follows the wake-up of a thread from its removal from the waiting queue to its
insertion to `ready_tasks`, and the blocking of the current thread up to its yield.
-/

namespace LuckOS.KernelThreads

open Function Runs Stmt Scheduler

/-- The rest of a blocking sequence behind the mark. -/
def Blocking (c : List Stmt) : Prop := ∃ l c', c = .unlock l :: .yield :: .lock l :: c' ∨ c = .yield :: .lock l :: c'

/-- Where the nodes of the threads are. -/
structure QueueInv (k : KernelThreads) (q : Queue YieldLock → List Nat) : Prop where
  placed : k.sched.Placed q
  idle : k.code k.sched.main = [] ∧ k.sched.status k.sched.main ≠ none
  absent : ∀ t, k.sched.status t = none → k.code t = [] ∧ ∀ j, t ∉ q j
  asleep : ∀ {l t}, t ∈ q (.waiting l) → hasQueue l = true ∧ firstLock (k.code t) = some l ∧
    (k.sched.status t = some .waiting ∨ t = k.crt ∧ ∃ c, k.code t = .mark :: c)
  removing : ∀ {t l n c}, k.code t = .remove l n :: c → (q (.waiting l)).head? = some n
  adding : ∀ {t n c}, k.code t = .add n :: c → n ≠ k.sched.main ∧ n ≠ k.crt ∧ k.sched.status n = some .waiting ∧
    (∀ j, n ∉ q j) ∧ ∃ l, firstLock (k.code n) = some l ∧ hasQueue l = true
  once : ∀ {t t' n c c'}, k.code t = .add n :: c → k.code t' = .add n :: c' → t = t'

/-- The current thread is running, about to block, or about to end. -/
structure ThreadInv (k : KernelThreads) (q : Queue YieldLock → List Nat) : Prop extends QueueInv k q where
  current : k.crt ≠ k.sched.main → k.sched.status k.crt = some .running ∨
    k.sched.status k.crt = some .waiting ∧ Blocking (k.code k.crt) ∨
    k.sched.status k.crt = some .dead ∧ ∀ s ∈ k.code k.crt, s.isFinal = true

variable {k k' : KernelThreads} {q q' : Queue YieldLock → List Nat} {c rest : List Stmt} {l : YieldLock} {n : Nat}

/-- Only the scheduler and the code of the threads matter. -/
theorem QueueInv.congr (h : QueueInv k q) (hsched : k'.sched = k.sched) (hcode : k'.code = k.code) : QueueInv k' q := by
  obtain ⟨sched, holder, hold, code, dead⟩ := k
  obtain ⟨sched', holder', hold', code', dead'⟩ := k'
  obtain rfl : sched' = sched := hsched
  obtain rfl : code' = code := hcode
  exact ⟨h.placed, h.idle, h.absent, h.asleep, h.removing, h.adding, h.once⟩

/-- The current thread goes on with other code. -/
theorem QueueInv.goto (h : QueueInv k q) (hmain : k.crt ≠ k.sched.main) (hcrt : k.sched.status k.crt ≠ none)
    (hq : ∀ l, k.crt ∈ q (.waiting l) → firstLock c = some l ∧ (k.sched.status k.crt = some .waiting ∨ ∃ c', c = .mark :: c'))
    (hremove : ∀ l n c', c = .remove l n :: c' → (q (.waiting l)).head? = some n) (hadd : ∀ n c', c ≠ .add n :: c') :
    QueueInv (k.goto c) q := by
  have hself : (k.goto c).code k.crt = c := update_self ..
  have hother : ∀ t, t ≠ k.crt → (k.goto c).code t = k.code t := fun t ht => update_of_ne ht ..
  refine ⟨h.placed, ?_, ?_, ?_, ?_, ?_, ?_⟩
  · exact ⟨(hother _ hmain.symm).trans h.idle.1, h.idle.2⟩
  · intro t ht
    rw [hother t (fun heq => hcrt (heq ▸ ht))]
    exact h.absent t ht
  · intro l t ht
    obtain ⟨hl, hlock, hstatus⟩ := h.asleep ht
    by_cases heq : t = k.crt
    · subst heq
      obtain ⟨hfirst, hor⟩ := hq l ht
      rw [hself]
      exact ⟨hl, hfirst, hor.imp_right fun hmark => ⟨rfl, hmark⟩⟩
    · rw [hother t heq]
      exact ⟨hl, hlock, hstatus.imp_right fun hmark => absurd hmark.1 heq⟩
  · intro t l n c' hcode
    by_cases heq : t = k.crt
    · rw [heq, hself] at hcode
      exact hremove l n c' hcode
    · rw [hother t heq] at hcode
      exact h.removing hcode
  · intro t n c' hcode
    by_cases heq : t = k.crt
    · rw [heq, hself] at hcode
      exact absurd hcode (hadd n c')
    · rw [hother t heq] at hcode
      obtain ⟨hn, hne, hstatus, hfree, hlock⟩ := h.adding hcode
      refine ⟨hn, hne, hstatus, hfree, ?_⟩
      rwa [hother n hne]
  · intro t t' n c₁ c₂ hcode hcode'
    by_cases heq : t = k.crt
    · rw [heq, hself] at hcode
      exact absurd hcode (hadd n c₁)
    · by_cases heq' : t' = k.crt
      · rw [heq', hself] at hcode'
        exact absurd hcode' (hadd n c₂)
      · rw [hother t heq] at hcode
        rw [hother t' heq'] at hcode'
        exact h.once hcode hcode'

/-- A switch to another thread. -/
theorem QueueInv.switched {sched : Scheduler YieldLock Nat} (h : QueueInv k q) (hs : k.sched.Switched q sched q')
    (hmark : ∀ l c, k.crt ∈ q (.waiting l) → k.code k.crt ≠ .mark :: c) : ThreadInv { k with sched := sched } q' := by
  have hkeep : ∀ t, t ≠ k.sched.main → k.sched.status t = some .waiting → t ≠ sched.crt ∧ sched.status t = some .waiting := by
    intro t ht hstatus
    have hne : t ≠ sched.crt := by
      rintro rfl
      have hready := hs.chosen ht
      rw [hstatus] at hready
      cases hready
    refine ⟨hne, ?_⟩
    rw [hs.others t hne, if_neg]
    · exact hstatus
    · rintro ⟨hrun, rfl⟩
      rw [hrun.1] at hstatus
      cases hstatus
  have hwait : ∀ {l t}, t ∈ q' (.waiting l) → t ∈ q (.waiting l) := by
    intro l t ht
    rwa [hs.waits l] at ht
  have hmain : sched.status sched.main ≠ none := by
    by_cases heq : sched.main = sched.crt
    · rw [heq, hs.next]
      exact Option.some_ne_none _
    · rw [hs.others _ heq, hs.main]
      split_ifs
      · exact Option.some_ne_none _
      · exact h.idle.2
  refine ⟨⟨hs.placed, ⟨?_, hmain⟩, ?_, ?_, ?_, ?_, h.once⟩, fun _ => .inl hs.next⟩
  · rw [hs.main]
    exact h.idle.1
  · intro t ht
    have hne : t ≠ sched.crt := by
      rintro rfl
      rw [hs.next] at ht
      cases ht
    have hnone : k.sched.status t = none := by
      rw [hs.others t hne] at ht
      split_ifs at ht
      exact ht
    obtain ⟨hcode, hfree⟩ := h.absent t hnone
    refine ⟨hcode, fun j => ?_⟩
    cases j with
    | ready =>
      intro hmem
      have htmain : t ≠ sched.main := by
        rintro rfl
        exact hmain ht
      have hready := hs.placed.queued t htmain hmem
      rw [ht] at hready
      cases hready
    | waiting l => exact fun hmem => hfree _ (hwait hmem)
  · intro l t ht
    obtain ⟨hl, hlock, hstatus⟩ := h.asleep (hwait ht)
    refine ⟨hl, hlock, .inl ?_⟩
    rcases hstatus with hstatus | ⟨rfl, c, hcode⟩
    · have htmain : t ≠ k.sched.main := by
        rintro rfl
        exact h.placed.mainWaits l (hwait ht)
      exact (hkeep t htmain hstatus).2
    · exact absurd hcode (hmark l c (hwait ht))
  · intro t l n c hcode
    rw [hs.waits]
    exact h.removing hcode
  · intro t n c hcode
    obtain ⟨hn, hne, hstatus, hfree, hlock⟩ := h.adding hcode
    obtain ⟨hnew, hstatus'⟩ := hkeep n hn hstatus
    refine ⟨by rw [hs.main]; exact hn, hnew, hstatus', fun j => ?_, hlock⟩
    cases j with
    | ready =>
      intro hmem
      have hready := hs.placed.queued n (by rw [hs.main]; exact hn) hmem
      rw [hstatus'] at hready
      cases hready
    | waiting l => exact fun hmem => hfree _ (hwait hmem)

/-- A thread in no list is made ready. -/
theorem QueueInv.addThreadNode (h : QueueInv k q) (hmain : n ≠ k.sched.main) (hdead : k.sched.status n ≠ some .dead)
    (hfree : ∀ j, n ∉ q j) (hadd : ∀ t c, k.code t ≠ .add n :: c) :
    QueueInv { k with sched := k.sched.addThreadNode n } (update q .ready (q .ready ++ [n])) := by
  have hwait : ∀ l, update q .ready (q .ready ++ [n]) (.waiting l) = q (.waiting l) := fun l => update_of_ne (by simp) ..
  have hstatus : ∀ t, t ≠ n → (k.sched.addThreadNode n).status t = k.sched.status t := by
    intro t ht
    simp [Scheduler.addThreadNode, hdead, ht]
  have hn : (k.sched.addThreadNode n).status n = some .ready := by
    simp [Scheduler.addThreadNode, hdead]
  refine ⟨h.placed.addThreadNode hfree hmain hdead, ⟨h.idle.1, ?_⟩, ?_, ?_, ?_, ?_, h.once⟩
  · exact (hstatus _ hmain.symm).trans_ne h.idle.2
  · intro t ht
    have hne : t ≠ n := by
      rintro rfl
      rw [hn] at ht
      cases ht
    rw [hstatus t hne] at ht
    obtain ⟨hcode, hlists⟩ := h.absent t ht
    refine ⟨hcode, fun j => ?_⟩
    cases j with
    | ready =>
      rw [update_self, List.mem_append, List.mem_singleton]
      rintro (hmem | heq)
      · exact hlists _ hmem
      · exact hne heq
    | waiting l =>
      rw [hwait]
      exact hlists _
  · intro l t ht
    rw [hwait] at ht
    have hne : t ≠ n := by
      rintro rfl
      exact hfree _ ht
    obtain ⟨hl, hlock, hor⟩ := h.asleep ht
    refine ⟨hl, hlock, ?_⟩
    rw [hstatus t hne]
    exact hor
  · intro t l m c hcode
    rw [hwait]
    exact h.removing hcode
  · intro t m c hcode
    obtain ⟨hm, hcrt, hwaiting, hlists, hlock⟩ := h.adding hcode
    have hne : m ≠ n := by
      rintro rfl
      exact hadd t c hcode
    refine ⟨hm, hcrt, (hstatus m hne).trans hwaiting, fun j => ?_, hlock⟩
    cases j with
    | ready =>
      rw [update_self, List.mem_append, List.mem_singleton]
      rintro (hmem | heq)
      · exact hlists _ hmem
      · exact hne heq
    | waiting l =>
      rw [hwait]
      exact hlists _

/-- The current thread, outside of all lists, changes its status. -/
theorem QueueInv.setStatus {x : TaskStatus} (h : QueueInv k q) (hmain : k.crt ≠ k.sched.main) (hx : x ≠ .ready)
    (hx' : x ≠ .running) (hready : k.crt ∉ q .ready) (hq : x = .waiting ∨ ∀ l, k.crt ∉ q (.waiting l)) :
    QueueInv { k with sched := { k.sched with status := update k.sched.status k.crt (some x) } } q := by
  have hstatus : ∀ t, t ≠ k.crt → update k.sched.status k.crt (some x) t = k.sched.status t :=
    fun t ht => update_of_ne ht ..
  refine ⟨h.placed.setStatus (fun _ => hready) hx hx', ⟨h.idle.1, ?_⟩, ?_, ?_, h.removing, ?_, h.once⟩
  · exact (hstatus _ hmain.symm).trans_ne h.idle.2
  · intro t ht
    have hne : t ≠ k.crt := by
      rintro rfl
      simp only [update_self] at ht
      cases ht
    exact h.absent t ((hstatus t hne).symm.trans ht)
  · intro l t ht
    obtain ⟨hl, hlock, hor⟩ := h.asleep ht
    refine ⟨hl, hlock, ?_⟩
    by_cases heq : t = k.crt
    · subst heq
      rcases hq with rfl | hq
      · exact .inl (update_self ..)
      · exact absurd ht (hq l)
    · exact hor.imp (fun hw => (hstatus t heq).trans hw) id
  · intro t m c hcode
    obtain ⟨hm, hcrt, hwaiting, hlists, hlock⟩ := h.adding hcode
    exact ⟨hm, hcrt, (hstatus m hcrt).trans hwaiting, hlists, hlock⟩

/-- The current thread links its node into a waiting queue. -/
theorem QueueInv.appendWaiting (h : QueueInv k q) (hmain : k.crt ≠ k.sched.main) (hcrt : k.sched.status k.crt ≠ none)
    (hl : hasQueue l = true) (hcode : k.code k.crt = .mark :: c) (hlock : firstLock (k.code k.crt) = some l)
    (hfree : ∀ j, k.crt ∉ q j) :
    QueueInv { k with sched := k.sched.appendWaiting l } (update q (.waiting l) (q (.waiting l) ++ [k.crt])) := by
  have hmem : ∀ {j t}, t ∈ update q (.waiting l) (q (.waiting l) ++ [k.crt]) j → t ∈ q j ∨ t = k.crt ∧ j = .waiting l := by
    intro j t ht
    by_cases hj : j = .waiting l
    · subst hj
      rw [update_self, List.mem_append, List.mem_singleton] at ht
      exact ht.imp_right fun heq => ⟨heq, rfl⟩
    · rw [update_of_ne hj] at ht
      exact .inl ht
  refine ⟨h.placed.appendWaiting hfree hmain, h.idle, ?_, ?_, ?_, ?_, h.once⟩
  · intro t ht
    obtain ⟨hnil, hlists⟩ := h.absent t ht
    refine ⟨hnil, fun j hj => ?_⟩
    rcases hmem hj with hj | ⟨rfl, -⟩
    · exact hlists j hj
    · exact hcrt ht
  · intro l' t ht
    rcases hmem ht with ht | ⟨rfl, hj⟩
    · exact h.asleep ht
    · obtain rfl : l' = l := by simpa using hj
      exact ⟨hl, hlock, .inr ⟨rfl, c, hcode⟩⟩
  · intro t l' m c' hcode'
    have hhead := h.removing hcode'
    by_cases heq : l' = l
    · subst heq
      rw [update_self, List.head?_append, hhead]
      rfl
    · rw [update_of_ne (by simpa using heq)]
      exact hhead
  · intro t m c' hcode'
    obtain ⟨hm, hne, hwaiting, hlists, hfirst⟩ := h.adding hcode'
    refine ⟨hm, hne, hwaiting, fun j hj => ?_, hfirst⟩
    rcases hmem hj with hj | ⟨heq, -⟩
    · exact hlists j hj
    · exact hne heq

/-- The current thread takes the first thread of a waiting queue, whose lock it holds. -/
theorem QueueInv.removeWaiting (h : QueueInv k q) (hl : k.Locked) (hcode : k.code k.crt = .remove l n :: .add n :: rest)
    (hcrt : ∀ l, k.crt ∉ q (.waiting l)) :
    ∃ q', QueueInv { k.goto (.add n :: rest) with sched := k.sched.removeWaiting l n } q' := by
  obtain ⟨xs, hq⟩ : ∃ xs, q (.waiting l) = n :: xs := List.head?_eq_some_iff.mp (h.removing hcode)
  have hn : n ∈ q (.waiting l) := by simp [hq]
  have hne : n ≠ k.crt := fun heq => hcrt l (heq ▸ hn)
  have hnmain : n ≠ k.sched.main := fun heq => h.placed.mainWaits l (heq ▸ hn)
  have hmain : k.crt ≠ k.sched.main := by
    intro heq
    rw [heq, h.idle.1] at hcode
    cases hcode
  obtain ⟨hqueue, hlock, hstatus⟩ := h.asleep hn
  have hwaiting := hstatus.resolve_right fun hmark => hne hmark.1
  have hnodup := (h.placed.represents.holds (.waiting l)).nodup
  rw [hq, List.nodup_cons] at hnodup
  have hself : (k.goto (.add n :: rest)).code k.crt = .add n :: rest := update_self ..
  have hother : ∀ t, t ≠ k.crt → (k.goto (.add n :: rest)).code t = k.code t := fun t ht => update_of_ne ht ..
  have hmem : ∀ {j t}, t ∈ update q (.waiting l) xs j → t ∈ q j := by
    intro j t ht
    by_cases hj : j = .waiting l
    · subst hj
      rw [update_self] at ht
      rw [hq]
      exact List.mem_cons_of_mem n ht
    · rwa [update_of_ne hj] at ht
  have hgone : ∀ j, n ∉ update q (.waiting l) xs j := by
    intro j hj
    by_cases heq : j = .waiting l
    · subst heq
      rw [update_self] at hj
      exact hnodup.1 hj
    · exact heq (h.placed.represents.apart (hmem hj) hn)
  have hholder : k.holder l = some k.crt := by
    rw [hl.holds, hcode]
    exact (hl.fits_crt hcode).1.2.1
  have hadd : ∀ {t m c}, (k.goto (.add n :: rest)).code t = .add m :: c → t = k.crt ∧ m = n ∨ t ≠ k.crt ∧ k.code t = .add m :: c := by
    intro t m c hc
    by_cases heq : t = k.crt
    · rw [heq, hself] at hc
      exact .inl ⟨heq, by simpa using (List.cons.inj hc).1.symm⟩
    · rw [hother t heq] at hc
      exact .inr ⟨heq, hc⟩
  refine ⟨update q (.waiting l) xs, h.placed.removeWaiting hq, ?_, ?_, ?_, ?_, ?_, ?_⟩
  · exact ⟨(hother _ hmain.symm).trans h.idle.1, h.idle.2⟩
  · intro t ht
    obtain ⟨hnil, hlists⟩ := h.absent t ht
    have htc : t ≠ k.crt := by
      rintro rfl
      rw [hcode] at hnil
      cases hnil
    exact ⟨(hother t htc).trans hnil, fun j hj => hlists j (hmem hj)⟩
  · intro l' t ht
    obtain ⟨hl', hlock', hor⟩ := h.asleep (hmem ht)
    have htc : t ≠ k.crt := by
      rintro rfl
      exact hcrt l' (hmem ht)
    refine ⟨hl', ?_, ?_⟩
    · exact (congrArg firstLock (hother t htc)).trans hlock'
    · exact hor.imp_right fun hmark => absurd hmark.1 htc
  · intro t l' m c hc
    by_cases heq : t = k.crt
    · rw [heq] at hc
      rw [hself] at hc
      cases hc
    · have hc' : k.code t = .remove l' m :: c := (hother t heq).symm.trans hc
      have hhead := h.removing hc'
      have hne' : l' ≠ l := by
        rintro rfl
        have ht : k.holder l' = some t := by
          rw [hl.holds, hc']
          have hfits := hl.fits t
          rw [hc'] at hfits
          exact hfits.1.2.1
        rw [hholder] at ht
        exact heq (Option.some.inj ht).symm
      rw [update_of_ne (by simpa using hne')]
      exact hhead
  · intro t m c hc
    rcases hadd hc with ⟨rfl, rfl⟩ | ⟨htc, hc'⟩
    · exact ⟨hnmain, hne, hwaiting, hgone, l, (congrArg firstLock (hother m hne)).trans hlock, hqueue⟩
    · obtain ⟨hm, hmc, hmw, hlists, l', hfirst, hl'⟩ := h.adding hc'
      exact ⟨hm, hmc, hmw, fun j hj => hlists j (hmem hj), l', (congrArg firstLock (hother m hmc)).trans hfirst, hl'⟩
  · intro t t' m c c' hc hc'
    rcases hadd hc with ⟨rfl, rfl⟩ | ⟨-, hold⟩ <;> rcases hadd hc' with ⟨rfl, heq⟩ | ⟨-, hold'⟩
    · rfl
    · exact absurd hn ((h.adding hold').2.2.2.1 _)
    · exact absurd hn (heq ▸ (h.adding hold).2.2.2.1 _)
    · exact h.once hold hold'

namespace ThreadInv

variable {s : Stmt} {answer : Bool}

theorem crt_ne_main (h : ThreadInv k q) (hcode : k.code k.crt = s :: rest) : k.crt ≠ k.sched.main := by
  intro heq
  rw [heq, h.idle.1] at hcode
  cases hcode

theorem status_ne_none (h : ThreadInv k q) (hcode : k.code k.crt = s :: rest) : k.sched.status k.crt ≠ none := by
  intro hnone
  rw [(h.absent _ hnone).1] at hcode
  cases hcode

theorem crt_not_ready (h : ThreadInv k q) (hmain : k.crt ≠ k.sched.main) : k.crt ∉ q .ready := by
  intro hmem
  have hready := h.placed.queued k.crt hmain hmem
  rcases h.current hmain with hrun | ⟨hwait, -⟩ | ⟨hdead, -⟩
  · rw [hrun] at hready
    cases hready
  · rw [hwait] at hready
    cases hready
  · rw [hdead] at hready
    cases hready

/-- Outside of a blocking sequence the current thread is in no list. -/
theorem free (h : ThreadInv k q) (hcode : k.code k.crt = s :: rest) (hmark : s ≠ .mark) (hyield : s ≠ .yield)
    (hunlock : ∀ l, s ≠ .unlock l) : (∀ j, k.crt ∉ q j) ∧ (k.sched.status k.crt = some .running ∨
      k.sched.status k.crt = some .dead ∧ ∀ s' ∈ s :: rest, s'.isFinal = true) := by
  have hmain := h.crt_ne_main hcode
  have hstatus : k.sched.status k.crt ≠ some .waiting ∧ (k.sched.status k.crt = some .running ∨
      k.sched.status k.crt = some .dead ∧ ∀ s' ∈ s :: rest, s'.isFinal = true) := by
    rcases h.current hmain with hrun | ⟨-, l, c', hblock⟩ | ⟨hdead, hfinal⟩
    · exact ⟨by simp [hrun], .inl hrun⟩
    · rw [hcode] at hblock
      rcases hblock with hblock | hblock
      · exact absurd (List.cons.inj hblock).1 (hunlock l)
      · exact absurd (List.cons.inj hblock).1 hyield
    · rw [hcode] at hfinal
      exact ⟨by simp [hdead], .inr ⟨hdead, hfinal⟩⟩
  refine ⟨fun j hj => ?_, hstatus.2⟩
  cases j with
  | ready => exact h.crt_not_ready hmain hj
  | waiting l =>
    rcases (h.asleep hj).2.2 with hwait | ⟨-, c', hc⟩
    · exact hstatus.1 hwait
    · rw [hcode] at hc
      exact hmark (List.cons.inj hc).1

/-- The current thread goes on outside of a blocking sequence. -/
theorem goto (h : ThreadInv k q) (hcode : k.code k.crt = s :: rest) (hmark : s ≠ .mark) (hyield : s ≠ .yield)
    (hunlock : ∀ l, s ≠ .unlock l) (hremove : ∀ l n c', c = .remove l n :: c' → (q (.waiting l)).head? = some n)
    (hadd : ∀ n c', c ≠ .add n :: c') (hfinal : (∀ s' ∈ s :: rest, s'.isFinal = true) → ∀ s' ∈ c, s'.isFinal = true)
    (hsched : k'.sched = k.sched) (hcode' : k'.code = update k.code k.crt c) : ThreadInv k' q := by
  obtain ⟨hfree, hstatus⟩ := h.free hcode hmark hyield hunlock
  have hgoto := h.toQueueInv.goto (h.crt_ne_main hcode) (h.status_ne_none hcode)
    (fun l hl => absurd hl (hfree _)) hremove hadd
  refine ⟨hgoto.congr hsched hcode', fun _ => ?_⟩
  have hcrt : k'.crt = k.crt := congrArg Scheduler.crt hsched
  rw [hcrt, hsched, hcode', update_self]
  exact hstatus.imp_right fun hdead => .inr ⟨hdead.1, hfinal hdead.2⟩

end ThreadInv

theorem not_remove_of_startsCalm (h : startsCalm c = true) (l : YieldLock) (n : Nat) (c' : List Stmt) :
    c ≠ .remove l n :: c' := by
  rintro rfl
  cases h

theorem not_add_of_startsCalm (h : startsCalm c = true) (n : Nat) (c' : List Stmt) : c ≠ .add n :: c' := by
  rintro rfl
  cases h

/-- The common case of a statement that is followed by the rest of the code. -/
theorem ThreadInv.next {s : Stmt} (h : ThreadInv k q) (hl : k.Locked) (hcode : k.code k.crt = s :: rest)
    (hmark : s ≠ .mark) (hyield : s ≠ .yield) (hunlock : ∀ l, s ≠ .unlock l) (hremove : ∀ l n, s ≠ .remove l n)
    (hsched : k'.sched = k.sched) (hcode' : k'.code = update k.code k.crt rest) : ThreadInv k' q := by
  have hcalm := (hl.fits_crt hcode).2.1 hremove
  refine h.goto hcode hmark hyield hunlock (fun l n c' hc => ?_) (not_add_of_startsCalm hcalm) ?_ hsched hcode'
  · exact absurd hc (not_remove_of_startsCalm hcalm l n c')
  · exact fun hfinal s' hs' => hfinal s' (List.mem_cons_of_mem _ hs')

theorem startsCalm_blockOn (l : YieldLock) (rest : List Stmt) : startsCalm (blockOn l ++ rest) = true := by
  cases l <;> rfl

section Exec

variable {s : Stmt} {answer : Bool}

theorem ThreadInv.exec_lock (h : ThreadInv k q) (hl : k.Locked) (hcode : k.code k.crt = .lock l :: rest)
    (hexec : k.exec answer rest (.lock l) = some k') : ∃ q', ThreadInv k' q' := by
  cases hholder : k.holder l with
  | none =>
    simp only [exec, hholder, Option.some.injEq] at hexec
    subst hexec
    exact ⟨q, h.next hl hcode (by simp) (by simp) (by simp) (by simp) rfl rfl⟩
  | some t =>
    simp only [exec, hholder, Option.map_eq_some_iff] at hexec
    obtain ⟨sched, hyield, rfl⟩ := hexec
    obtain ⟨hfree, -⟩ := h.free hcode (by simp) (by simp) (by simp)
    obtain ⟨sched', q', hyield', hs⟩ := h.placed.threadYield (h.crt_ne_main hcode) fun _ w => hfree (.waiting w)
    obtain rfl : sched' = sched := by simpa [hyield] using hyield'.symm
    exact ⟨q', h.toQueueInv.switched hs fun _ c _ => by simp [hcode]⟩

theorem ThreadInv.exec_unlock (h : ThreadInv k q) (hl : k.Locked) (hcode : k.code k.crt = .unlock l :: rest)
    (hsched : k'.sched = k.sched) (hcode' : k'.code = update k.code k.crt rest) : ThreadInv k' q := by
  have hcalm := (hl.fits_crt hcode).2.1 (by simp)
  have hmain := h.crt_ne_main hcode
  have hblock : k.sched.status k.crt = some .waiting → ∃ c', rest = .yield :: .lock l :: c' := by
    intro hwait
    rcases h.current hmain with hrun | ⟨-, l', c', hblock | hblock⟩ | ⟨hdead, -⟩
    · rw [hwait] at hrun
      cases hrun
    · rw [hcode] at hblock
      obtain ⟨hl', hrest⟩ := List.cons.inj hblock
      obtain rfl : l = l' := by simpa using hl'
      exact ⟨c', hrest⟩
    · rw [hcode] at hblock
      cases hblock
    · rw [hwait] at hdead
      cases hdead
  have hgoto := h.toQueueInv.goto hmain (h.status_ne_none hcode) (c := rest) (fun l' hl' => ?_)
    (fun l' n c' hc => absurd hc (not_remove_of_startsCalm hcalm l' n c')) (not_add_of_startsCalm hcalm)
  · refine ⟨hgoto.congr hsched hcode', fun _ => ?_⟩
    have hcrt : k'.crt = k.crt := congrArg Scheduler.crt hsched
    rw [hcrt, hsched, hcode', update_self]
    rcases h.current hmain with hrun | ⟨hwait, -⟩ | ⟨hdead, hfinal⟩
    · exact .inl hrun
    · obtain ⟨c', hrest⟩ := hblock hwait
      exact .inr (.inl ⟨hwait, l, c', .inr hrest⟩)
    · rw [hcode] at hfinal
      exact .inr (.inr ⟨hdead, fun s' hs' => hfinal s' (List.mem_cons_of_mem _ hs')⟩)
  · obtain ⟨-, hlock, hstatus⟩ := h.asleep hl'
    rw [hcode] at hlock hstatus
    have hwait := hstatus.resolve_right (by simp)
    obtain ⟨c', hrest⟩ := hblock hwait
    obtain rfl : l = l' := by simpa [firstLock] using hlock
    exact ⟨by rw [hrest]; rfl, .inl hwait⟩

theorem ThreadInv.exec_test (h : ThreadInv k q) (hl : k.Locked) (hcode : k.code k.crt = .test l :: rest)
    (hexec : k.exec answer rest (.test l) = some k') : ThreadInv k' q := by
  obtain rfl := Option.some.inj hexec
  have hcalm := (hl.fits_crt hcode).2.1 (by simp)
  have hnew : startsCalm (if k.passes l answer then rest else blockOn l ++ rest) = true := by
    split_ifs
    · exact hcalm
    · exact startsCalm_blockOn l rest
  refine h.goto hcode (by simp) (by simp) (by simp) (fun l' n c' hc => ?_) (not_add_of_startsCalm hnew) ?_ rfl rfl
  · exact absurd hc (not_remove_of_startsCalm hnew l' n c')
  · exact fun hfinal => absurd (hfinal _ (List.mem_cons_self ..)) (by simp [isFinal])

theorem ThreadInv.exec_check {p : Nat} (h : ThreadInv k q) (hl : k.Locked) (hcode : k.code k.crt = .check p :: rest)
    (hexec : k.exec answer rest (.check p) = some k') : ThreadInv k' q := by
  obtain rfl := Option.some.inj hexec
  have hcalm := (hl.fits_crt hcode).2.1 (by simp)
  have hnew : startsCalm (if answer then rest else [.unlock (.process p)]) = true := by
    cases answer
    · rfl
    · exact hcalm
  refine h.goto hcode (by simp) (by simp) (by simp) (fun l' n c' hc => ?_) (not_add_of_startsCalm hnew) ?_ rfl rfl
  · exact absurd hc (not_remove_of_startsCalm hnew l' n c')
  · exact fun hfinal => absurd (hfinal _ (List.mem_cons_self ..)) (by simp [isFinal])

theorem ThreadInv.exec_append (h : ThreadInv k q) (hl : k.Locked) (hcode : k.code k.crt = .append l :: rest)
    (hexec : k.exec answer rest (.append l) = some k') : ∃ q', ThreadInv k' q' := by
  obtain rfl := Option.some.inj hexec
  obtain ⟨hqueue, c', hrest⟩ := (hl.fits_crt hcode).1
  obtain ⟨hfree, hstatus⟩ := h.free hcode (by simp) (by simp) (by simp)
  have hrun := hstatus.resolve_right fun hdead => absurd (hdead.2 _ (List.mem_cons_self ..)) (by simp [isFinal])
  have hgoto : ThreadInv (k.goto rest) q := h.next hl hcode (by simp) (by simp) (by simp) (by simp) rfl rfl
  have hself : (k.goto rest).code (k.goto rest).crt = .mark :: .unlock l :: .yield :: .lock l :: c' := by
    rw [← hrest]
    exact update_self ..
  refine ⟨_, hgoto.toQueueInv.appendWaiting (hgoto.crt_ne_main hself) (hgoto.status_ne_none hself) hqueue hself ?_ hfree, ?_⟩
  · rw [hself]
    rfl
  · exact fun _ => .inl hrun

theorem ThreadInv.exec_mark (h : ThreadInv k q) (hl : k.Locked) (hcode : k.code k.crt = .mark :: rest)
    (hexec : k.exec answer rest .mark = some k') : ThreadInv k' q := by
  obtain rfl := Option.some.inj hexec
  obtain ⟨l, c', hrest⟩ := (hl.fits_crt hcode).1
  have hmain := h.crt_ne_main hcode
  have hset := h.toQueueInv.setStatus (x := .waiting) hmain (by simp) (by simp) (h.crt_not_ready hmain) (.inl rfl)
  have hwait : update k.sched.status k.crt (some .waiting) k.crt = some .waiting := update_self ..
  have hgoto := hset.goto (c := rest) hmain (hwait.trans_ne (Option.some_ne_none _)) (fun l' hl' => ?_) ?_ ?_
  · refine ⟨hgoto.congr rfl rfl, fun _ => .inr (.inl ⟨hwait, ?_⟩)⟩
    have hself : (k.goto rest).code k.crt = rest := update_self ..
    exact ⟨l, c', .inl (hself.trans hrest)⟩
  · have hlock : firstLock (k.code k.crt) = some l' := (h.asleep hl').2.1
    rw [hcode] at hlock
    exact ⟨hlock, .inl hwait⟩
  · simp [hrest]
  · simp [hrest]

theorem ThreadInv.exec_yield (h : ThreadInv k q) (hl : k.Locked) (hcode : k.code k.crt = .yield :: rest)
    (hexec : k.exec answer rest .yield = some k') : ∃ q', ThreadInv k' q' := by
  obtain ⟨sched, hyield, rfl⟩ := Option.map_eq_some_iff.mp hexec
  obtain ⟨⟨l, c', hrest⟩, -⟩ := (hl.fits_crt hcode).1
  have hmain := h.crt_ne_main hcode
  have hasleep : ∀ l', k.crt ∈ q (.waiting l') → firstLock rest = some l' ∧ k.sched.status k.crt = some .waiting := by
    intro l' hl'
    obtain ⟨-, hlock, hstatus⟩ := h.asleep hl'
    rw [hcode] at hlock hstatus
    exact ⟨hlock, hstatus.resolve_right (by simp)⟩
  have hgoto := h.toQueueInv.goto (c := rest) hmain (h.status_ne_none hcode)
    (fun l' hl' => ⟨(hasleep l' hl').1, .inl (hasleep l' hl').2⟩) (by simp [hrest]) (by simp [hrest])
  have hfree : k.sched.Requeues → ∀ w, k.sched.crt ∉ q (.waiting w) := by
    intro hrun w hw
    have hwait := (hasleep w hw).2
    rw [show k.sched.status k.crt = _ from hrun.1] at hwait
    cases hwait
  obtain ⟨sched', q', hyield', hs⟩ := h.placed.threadYield hmain hfree
  obtain rfl : sched' = sched := by simpa [hyield] using hyield'.symm
  refine ⟨q', hgoto.switched hs fun _ c _ hc => ?_⟩
  have hself : (k.goto rest).code (k.goto rest).crt = rest := update_self ..
  rw [hself, hrest] at hc
  cases hc

theorem ThreadInv.exec_wake (h : ThreadInv k q) (hl : k.Locked) (hcode : k.code k.crt = .wake l :: rest)
    (hexec : k.exec answer rest (.wake l) = some k') : ThreadInv k' q := by
  simp only [exec] at hexec
  split_ifs at hexec
  · obtain ⟨n, hhead, rfl⟩ := Option.map_eq_some_iff.mp hexec
    rw [h.placed.represents.head_eq] at hhead
    refine h.goto hcode (by simp) (by simp) (by simp) (fun l' m c' hc => ?_) (by simp) ?_ rfl rfl
    · obtain ⟨hstmt, -⟩ := List.cons.inj hc
      obtain ⟨rfl, rfl⟩ : l = l' ∧ n = m := by simpa using hstmt
      exact hhead
    · intro hfinal s' hs'
      rcases List.mem_cons.mp hs' with rfl | hs'
      · rfl
      · rcases List.mem_cons.mp hs' with rfl | hs'
        · rfl
        · exact hfinal s' (List.mem_cons_of_mem _ hs')
  · obtain rfl := Option.some.inj hexec
    exact h.next hl hcode (by simp) (by simp) (by simp) (by simp) rfl rfl

theorem ThreadInv.exec_remove (h : ThreadInv k q) (hl : k.Locked) (hcode : k.code k.crt = .remove l n :: rest)
    (hexec : k.exec answer rest (.remove l n) = some k') : ∃ q', ThreadInv k' q' := by
  obtain rfl := Option.some.inj hexec
  obtain ⟨-, -, c', hrest, -⟩ := (hl.fits_crt hcode).1
  obtain ⟨hfree, hstatus⟩ := h.free hcode (by simp) (by simp) (by simp)
  subst hrest
  obtain ⟨q', hq'⟩ := h.toQueueInv.removeWaiting hl hcode fun w => hfree (.waiting w)
  have hself : (k.goto (.add n :: c')).code k.crt = .add n :: c' := update_self ..
  refine ⟨q', hq', fun _ => hstatus.imp_right fun hdead => .inr ⟨hdead.1, ?_⟩⟩
  intro s' hs'
  exact hdead.2 s' (List.mem_cons_of_mem _ (hself ▸ hs'))

theorem ThreadInv.exec_add (h : ThreadInv k q) (hl : k.Locked) (hcode : k.code k.crt = .add n :: rest)
    (hexec : k.exec answer rest (.add n) = some k') : ∃ q', ThreadInv k' q' := by
  obtain rfl := Option.some.inj hexec
  have hcalm := (hl.fits_crt hcode).2.1 (by simp)
  obtain ⟨hmain, hcrt, hwait, hlists, -⟩ := h.adding hcode
  have hgoto : ThreadInv (k.goto rest) q := h.next hl hcode (by simp) (by simp) (by simp) (by simp) rfl rfl
  have hdead : k.sched.status n ≠ some .dead := by simp [hwait]
  have hadd : ∀ t c, (k.goto rest).code t ≠ .add n :: c := by
    intro t c hc
    by_cases heq : t = k.crt
    · rw [heq, show (k.goto rest).code k.crt = rest from update_self ..] at hc
      exact not_add_of_startsCalm hcalm n c hc
    · rw [show (k.goto rest).code t = k.code t from update_of_ne heq ..] at hc
      exact heq (h.once hc hcode)
  refine ⟨_, hgoto.toQueueInv.addThreadNode hmain hdead hlists hadd, fun hne => ?_⟩
  have hstatus : (k.sched.addThreadNode n).status k.crt = k.sched.status k.crt := by
    simp [Scheduler.addThreadNode, hdead, hcrt.symm]
  have hcurrent := hgoto.current hne
  rwa [← show (k.sched.addThreadNode n).status k.crt = (k.goto rest).sched.status (k.goto rest).crt from hstatus] at hcurrent

theorem ThreadInv.exec_die (h : ThreadInv k q) (hl : k.Locked) (hcode : k.code k.crt = .die :: rest)
    (hexec : k.exec answer rest .die = some k') : ThreadInv k' q := by
  obtain rfl := Option.some.inj hexec
  have hfits := hl.fits_crt hcode
  have hcalm := hfits.2.1 (by simp)
  have hmain := h.crt_ne_main hcode
  obtain ⟨hfree, -⟩ := h.free hcode (by simp) (by simp) (by simp)
  have hset := h.toQueueInv.setStatus (x := .dead) hmain (by simp) (by simp) (hfree .ready) (.inr fun l => hfree (.waiting l))
  have hdead : update k.sched.status k.crt (some .dead) k.crt = some .dead := update_self ..
  have hgoto := hset.goto (c := rest) hmain (hdead.trans_ne (Option.some_ne_none _))
    (fun l hl' => absurd hl' (hfree _)) (fun l n c' hc => absurd hc (not_remove_of_startsCalm hcalm l n c'))
    (not_add_of_startsCalm hcalm)
  have hself : (k.goto rest).code k.crt = rest := update_self ..
  refine ⟨hgoto.congr rfl rfl, fun _ => .inr (.inr ⟨hdead, fun s' hs' => ?_⟩)⟩
  exact hfits.1.2 s' (hself ▸ hs')

theorem ThreadInv.exec_leave (h : ThreadInv k q) (hl : k.Locked) (hcode : k.code k.crt = .leave :: rest)
    (hexec : k.exec answer rest .leave = some k') : ∃ q', ThreadInv k' q' := by
  obtain ⟨sched, hswitch, rfl⟩ := Option.map_eq_some_iff.mp hexec
  have hrest : rest = [] := (hl.fits_crt hcode).1
  obtain ⟨hfree, -⟩ := h.free hcode (by simp) (by simp) (by simp)
  have hgoto : ThreadInv (k.goto rest) q := h.next hl hcode (by simp) (by simp) (by simp) (by simp) rfl rfl
  have hne : q .ready ≠ [] := by
    intro hempty
    rw [Scheduler.doContextSwitch, h.placed.head?_ready, hempty] at hswitch
    cases hswitch
  obtain ⟨sched', q', hswitch', hs⟩ := h.placed.doContextSwitch (fun _ w => hfree (.waiting w)) hne
  obtain rfl : sched' = sched := by simpa [hswitch] using hswitch'.symm
  refine ⟨q', hgoto.toQueueInv.switched hs fun _ c _ hc => ?_⟩
  have hself : (k.goto rest).code (k.goto rest).crt = rest := update_self ..
  rw [hself, hrest] at hc
  cases hc

/-- Every statement keeps the invariant. -/
theorem ThreadInv.exec (h : ThreadInv k q) (hl : k.Locked) (hcode : k.code k.crt = s :: rest)
    (hexec : k.exec answer rest s = some k') : ∃ q', ThreadInv k' q' := by
  cases s with
  | lock l => exact h.exec_lock hl hcode hexec
  | unlock l =>
    obtain rfl := Option.some.inj hexec
    exact ⟨q, h.exec_unlock hl hcode rfl rfl⟩
  | check p => exact ⟨q, h.exec_check hl hcode hexec⟩
  | test l => exact ⟨q, h.exec_test hl hcode hexec⟩
  | append l => exact h.exec_append hl hcode hexec
  | mark => exact ⟨q, h.exec_mark hl hcode hexec⟩
  | yield => exact h.exec_yield hl hcode hexec
  | holdNo m =>
    obtain rfl := Option.some.inj hexec
    exact ⟨q, h.next hl hcode (by simp) (by simp) (by simp) (by simp) rfl rfl⟩
  | wake l => exact ⟨q, h.exec_wake hl hcode hexec⟩
  | remove l n => exact h.exec_remove hl hcode hexec
  | add n => exact h.exec_add hl hcode hexec
  | die => exact ⟨q, h.exec_die hl hcode hexec⟩
  | record =>
    obtain rfl := Option.some.inj hexec
    exact ⟨q, h.next hl hcode (by simp) (by simp) (by simp) (by simp) rfl rfl⟩
  | leave => exact h.exec_leave hl hcode hexec

end Exec

/-- The current thread has linked its node into a waiting queue, and is not yet marked as
blocked. -/
def Linking (k : KernelThreads) : Prop := ∃ l c, hasQueue l = true ∧ k.code k.crt = .mark :: .unlock l :: c

/-- The timer interrupt makes another thread the current one. -/
def Preempts (k : KernelThreads) (a : Action) : Prop := a = .preempt ∧ 0 < (k.sched.queues.list .ready).size

theorem QueueInv.linking (h : QueueInv k q) (hl : k.Locked) (hq : k.crt ∈ q (.waiting l)) (hcode : k.code k.crt = .mark :: c) :
    k.Linking := by
  obtain ⟨hqueue, hlock, -⟩ := h.asleep hq
  obtain ⟨l', c', hrest⟩ := (hl.fits_crt hcode).1
  rw [hcode, hrest] at hlock
  obtain rfl : l' = l := by simpa [firstLock] using hlock
  exact ⟨l', _, hqueue, by rw [hcode, hrest]⟩

theorem ThreadInv.preempt (h : ThreadInv k q) (hl : k.Locked) (hlink : k.Preempts .preempt → ¬ k.Linking)
    (hstep : k.step .preempt = some k') : ∃ q', ThreadInv k' q' := by
  obtain ⟨sched, hschedule, rfl⟩ := Option.map_eq_some_iff.mp hstep
  by_cases hpos : 0 < (k.sched.queues.list .ready).size
  · have hmark : ∀ l c, k.crt ∈ q (.waiting l) → k.code k.crt ≠ .mark :: c :=
      fun l c hq hcode => hlink ⟨rfl, hpos⟩ (h.linking hl hq hcode)
    have hfree : k.sched.Requeues → ∀ w, k.sched.crt ∉ q (.waiting w) := by
      intro hrun w hw
      rcases (h.asleep hw).2.2 with hwait | ⟨-, c, hc⟩
      · rw [hrun.1] at hwait
        cases hwait
      · exact hmark w c hw hc
    rw [Scheduler.schedule, if_pos hpos] at hschedule
    rw [h.placed.represents.size_eq] at hpos
    obtain ⟨sched', q', hswitch, hs⟩ := h.placed.doContextSwitch hfree (List.ne_nil_of_length_pos hpos)
    obtain rfl : sched' = sched := by simpa [hschedule] using hswitch.symm
    exact ⟨q', h.toQueueInv.switched hs hmark⟩
  · rw [Scheduler.schedule, if_neg hpos] at hschedule
    obtain rfl := Option.some.inj hschedule
    exact ⟨q, h⟩

theorem ThreadInv.add_other (h : ThreadInv k q) (hmain : n ≠ k.sched.main) (hcrt : n ≠ k.crt)
    (hdead : k.sched.status n ≠ some .dead) (hfree : ∀ j, n ∉ q j) (hadd : ∀ t c, k.code t ≠ .add n :: c) :
    ∃ q', ThreadInv { k with sched := k.sched.addThreadNode n } q' := by
  refine ⟨_, h.toQueueInv.addThreadNode hmain hdead hfree hadd, fun hne => ?_⟩
  have hstatus : (k.sched.addThreadNode n).status k.crt = k.sched.status k.crt := by
    simp [Scheduler.addThreadNode, hdead, hcrt.symm]
  have hcurrent := h.current hne
  rw [← hstatus] at hcurrent
  exact hcurrent

theorem ThreadInv.spawn (h : ThreadInv k q) (hstep : k.step (.spawn n) = some k') : ∃ q', ThreadInv k' q' := by
  simp only [step] at hstep
  split_ifs at hstep with hnone
  obtain rfl := Option.some.inj hstep
  have hmain : n ≠ k.sched.main := by
    rintro rfl
    exact h.idle.2 hnone
  have hcrt : n ≠ k.crt := by
    rintro rfl
    rcases h.current hmain with hrun | ⟨hwait, -⟩ | ⟨hdead, -⟩
    · simp [hrun] at hnone
    · simp [hwait] at hnone
    · simp [hdead] at hnone
  refine h.add_other hmain hcrt (by simp [hnone]) (h.absent n hnone).2 fun t c hc => ?_
  obtain ⟨-, -, hwait, -⟩ := h.adding hc
  rw [hnone] at hwait
  cases hwait

theorem ThreadInv.wakeParent {t p : Nat} (h : ThreadInv k q) (hstep : k.step (.wakeParent t p) = some k') :
    ∃ q', ThreadInv k' q' := by
  simp only [step] at hstep
  split_ifs at hstep with hcond
  obtain rfl := Option.some.inj hstep
  obtain ⟨hcrt, hwait, hlock, -⟩ := hcond
  have hmain : t ≠ k.sched.main := by
    rintro rfl
    rw [h.idle.1] at hlock
    cases hlock
  refine h.add_other hmain hcrt (by simp [hwait]) (fun j hj => ?_) fun t' c hc => ?_
  · cases j with
    | ready =>
      have hready := h.placed.queued t hmain hj
      rw [hwait] at hready
      cases hready
    | waiting l =>
      obtain ⟨hqueue, hlock', -⟩ := h.asleep hj
      obtain rfl : l = .process p := by simpa [hlock] using hlock'.symm
      cases hqueue
  · obtain ⟨-, -, -, -, l, hlock', hqueue⟩ := h.adding hc
    obtain rfl : l = .process p := by simpa [hlock] using hlock'.symm
    cases hqueue

theorem ThreadInv.call {f : Call} (h : ThreadInv k q) (hstep : k.step (.call f) = some k') : ThreadInv k' q := by
  simp only [step] at hstep
  split_ifs at hstep with hcond
  obtain rfl := Option.some.inj hstep
  obtain ⟨hmain, hnil, hrun⟩ := hcond
  refine ⟨h.toQueueInv.goto hmain (by simp [hrun]) (fun l hl => ?_) (fun l n c' hc => ?_)
    (not_add_of_startsCalm f.startsCalm_body), fun _ => .inl hrun⟩
  · have hlock := (h.asleep hl).2.1
    rw [hnil] at hlock
    cases hlock
  · exact absurd hc (not_remove_of_startsCalm f.startsCalm_body l n c')

/-- Every step keeps the invariant, unless it preempts a thread that is being linked. -/
theorem ThreadInv.step {a : Action} (h : ThreadInv k q) (hl : k.Locked) (hlink : k.Preempts a → ¬ k.Linking)
    (hstep : k.step a = some k') : ∃ q', ThreadInv k' q' := by
  cases a with
  | spawn t => exact h.spawn hstep
  | call f => exact ⟨q, h.call hstep⟩
  | run answer =>
    simp only [KernelThreads.step] at hstep
    split at hstep
    · cases hstep
    · exact h.exec hl (by assumption) hstep
  | preempt => exact h.preempt hl hlink hstep
  | wakeParent t p => exact h.wakeParent hstep

theorem start_threadInv : ThreadInv start fun _ => [] := by
  refine ⟨⟨⟨⟨fun _ => LinkedList.holds_init, by simp⟩, ?_, ?_, by simp, by simp, by simp⟩, ?_, ?_, by simp, ?_, ?_, ?_⟩, ?_⟩
  · intro t ht
    simp_all [start]
  · intro t ht
    simp_all [start]
  · exact ⟨rfl, by simp [start]⟩
  · exact fun t _ => ⟨rfl, by simp⟩
  · exact fun hc => by cases hc
  · exact fun hc => by cases hc
  · exact fun hc => by cases hc
  · exact fun hne => absurd rfl hne

end LuckOS.KernelThreads
