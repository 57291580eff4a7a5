import LuckOS.Outcome

/-!
# Computations that log events

A traced computation returns a value or stops with a reason, and logs events on its
way. `Quiet allowed x post` says what holds if nothing was logged: `x` returns a value
satisfying `post`, or stops for an allowed reason. Logged events are never dropped, so
that a sequence without events consists of parts without events. `Ends allowed x post`
says the same whatever is logged.
-/

namespace LuckOS.Outcome

universe u v w

/-- The events of a computation and its outcome. -/
structure Traced (η : Type w) (ε : Type u) (α : Type v) where
  events : List η
  outcome : Except ε α

namespace Traced

variable {η : Type w} {ε : Type u} {α β : Type v}

protected def pure (a : α) : Traced η ε α := ⟨[], .ok a⟩

protected def bind (x : Traced η ε α) (f : α → Traced η ε β) : Traced η ε β :=
  match x.outcome with
  | .error e => ⟨x.events, .error e⟩
  | .ok a => ⟨x.events ++ (f a).events, (f a).outcome⟩

instance : Monad (Traced η ε) where
  pure := Traced.pure
  bind := Traced.bind

@[simp] theorem pure_bind (a : α) (f : α → Traced η ε β) : (Pure.pure a : Traced η ε α) >>= f = f a := rfl

protected theorem bind_assoc {γ : Type v} (x : Traced η ε α) (f : α → Traced η ε β) (g : β → Traced η ε γ) :
    (x >>= f) >>= g = x >>= fun a => f a >>= g := by
  obtain ⟨events, outcome⟩ := x
  cases outcome with
  | error e => rfl
  | ok a =>
    change Traced.bind (Traced.bind _ f) g = Traced.bind _ fun a => Traced.bind (f a) g
    obtain hf : f a = ⟨(f a).events, (f a).outcome⟩ := rfl
    cases hout : (f a).outcome with
    | error e => simp [Traced.bind, hout]
    | ok b => simp [Traced.bind, hout]

/-- Log an event if the condition holds. -/
def noteIf (c : Prop) [Decidable c] (e : η) : Traced η ε PUnit := ⟨if c then [e] else [], .ok ⟨⟩⟩

/-- Stop unless the condition holds. -/
def check (c : Prop) [Decidable c] (e : ε) : Traced η ε PUnit := ⟨[], if c then .ok ⟨⟩ else .error e⟩

theorem check_eq_pure {c : Prop} [Decidable c] (hc : c) (e : ε) :
    (check c e : Traced η ε PUnit) = Pure.pure ⟨⟩ := by
  rw [check, if_pos hc]
  rfl

theorem of_check_eq_ok {c : Prop} [Decidable c] {e : ε} {a : PUnit} (h : (check c e : Traced η ε PUnit) = ⟨[], .ok a⟩) :
    c := by
  by_contra hc
  have hout := congrArg Traced.outcome h
  rw [check, if_neg hc] at hout
  cases hout

def stop (e : ε) : Traced η ε α := ⟨[], .error e⟩

/-- The computation logs nothing and returns. -/
def returns (x : Traced η ε α) : Bool := x.events.isEmpty && x.outcome.toBool

theorem exists_of_returns {x : Traced η ε α} (h : x.returns = true) : ∃ a, x = ⟨[], .ok a⟩ := by
  obtain ⟨events, outcome⟩ := x
  obtain ⟨hevents, hout⟩ := Bool.and_eq_true_iff.mp h
  obtain rfl : events = [] := List.isEmpty_iff.mp hevents
  cases outcome with
  | error e => cases hout
  | ok a => exact ⟨a, rfl⟩

/-- The value of a computation that logs nothing and returns. -/
def value? (x : Traced η ε α) : Option α := if x.events.isEmpty then x.outcome.toOption else none

theorem eq_of_value? {x : Traced η ε α} {a : α} (h : x.value? = some a) : x = ⟨[], .ok a⟩ := by
  obtain ⟨events, outcome⟩ := x
  rw [value?] at h
  split_ifs at h with hevents
  obtain rfl : events = [] := List.isEmpty_iff.mp hevents
  cases outcome with
  | error e => cases h
  | ok b =>
    obtain rfl := Option.some.inj h
    rfl

theorem bind_eq_ok {x : Traced η ε α} {f : α → Traced η ε β} {b : β} (h : x >>= f = ⟨[], .ok b⟩) :
    ∃ a, x = ⟨[], .ok a⟩ ∧ f a = ⟨[], .ok b⟩ := by
  obtain ⟨events, outcome⟩ := x
  change Traced.bind _ f = _ at h
  cases outcome with
  | error e => cases h
  | ok a =>
    have hevents := congrArg Traced.events h
    have hout := congrArg Traced.outcome h
    simp only [Traced.bind, List.append_eq_nil_iff] at hevents hout
    refine ⟨a, ?_, ?_⟩
    · rw [hevents.1]
    · rw [← hevents.2, ← hout]

/-- Partial correctness of a computation that logs nothing. -/
structure Quiet (allowed : ε → Prop) (x : Traced η ε α) (post : α → Prop) : Prop where
  ensures : x.events = [] → Ensures allowed x.outcome post

variable {allowed : ε → Prop} {x : Traced η ε α} {post post' : α → Prop}

theorem Quiet.pure {a : α} (h : post a) : Quiet allowed (Pure.pure a : Traced η ε α) post := ⟨fun _ => h⟩

theorem Quiet.stop {e : ε} (h : allowed e) : Quiet allowed (stop e : Traced η ε α) post := ⟨fun _ => h⟩

theorem Quiet.mono (h : Quiet allowed x post) (hp : ∀ a, post a → post' a) : Quiet allowed x post' :=
  ⟨fun hx => (h.ensures hx).mono hp⟩

theorem Quiet.bind {f : α → Traced η ε β} {post : β → Prop} {m : α → Prop} (hx : Quiet allowed x m)
    (hf : ∀ a, m a → Quiet allowed (f a) post) : Quiet allowed (x >>= f) post := by
  refine ⟨fun hevents => ?_⟩
  change (Traced.bind x f).events = [] at hevents
  change Ensures allowed (Traced.bind x f).outcome post
  rw [Traced.bind] at hevents ⊢
  cases hout : x.outcome with
  | error e =>
    simp only [hout] at hevents
    have h := hx.ensures hevents
    rw [hout] at h
    exact h
  | ok a =>
    simp only [hout, List.append_eq_nil_iff] at hevents
    have h := hx.ensures hevents.1
    rw [hout] at h
    exact (hf a h).ensures hevents.2

/-- After a logged condition the condition does not hold. -/
theorem Quiet.noteIf {c : Prop} [Decidable c] {e : η} {f : PUnit → Traced η ε β} {post : β → Prop}
    (hf : ¬ c → Quiet allowed (f ⟨⟩) post) : Quiet allowed (noteIf c e >>= f) post := by
  refine Quiet.bind (m := fun _ => ¬ c) ?_ fun _ hc => hf hc
  refine ⟨fun hevents => ?_⟩
  by_cases hc : c
  · simp [Traced.noteIf, hc] at hevents
  · exact hc

/-- A check that is known to succeed. -/
theorem Quiet.check {c : Prop} [Decidable c] {e : ε} {f : PUnit → Traced η ε β} {post : β → Prop} (hc : c)
    (hf : Quiet allowed (f ⟨⟩) post) : Quiet allowed (check c e >>= f) post := by
  refine Quiet.bind (m := fun _ => True) ?_ fun _ _ => hf
  refine ⟨fun _ => ?_⟩
  simp [Traced.check, hc]

/-- A check that may stop the computation. -/
theorem Quiet.check_allowed {c : Prop} [Decidable c] {e : ε} {f : PUnit → Traced η ε β} {post : β → Prop}
    (he : allowed e) (hf : c → Quiet allowed (f ⟨⟩) post) : Quiet allowed (Traced.check c e >>= f) post := by
  refine Quiet.bind (m := fun _ => c) ?_ fun _ hc => hf hc
  refine ⟨fun _ => ?_⟩
  by_cases hc : c
  · simp [Traced.check, hc]
  · simpa [Traced.check, hc] using he

/-- A sequence logs nothing if its parts log nothing. -/
theorem Quiet.events_bind {f : α → Traced η ε β} {m : α → Prop} (hq : Quiet allowed x m) (hx : x.events = [])
    (hf : ∀ a, m a → (f a).events = []) : (x >>= f).events = [] := by
  change (Traced.bind x f).events = []
  have h := hq.ensures hx
  rw [Traced.bind]
  cases hout : x.outcome with
  | error e => exact hx
  | ok a =>
    rw [hout] at h
    exact List.append_eq_nil_iff.mpr ⟨hx, hf a h⟩

theorem events_check_bind {c : Prop} [Decidable c] {e : ε} {f : PUnit → Traced η ε β} (hf : c → (f ⟨⟩).events = []) :
    (Traced.check c e >>= f).events = [] := by
  change (Traced.bind (Traced.check c e) f).events = []
  rw [Traced.bind, Traced.check]
  by_cases hc : c
  · simpa [hc] using hf hc
  · simp [hc]

/-- Partial correctness of a computation, whatever it logs. -/
structure Ends (allowed : ε → Prop) (x : Traced η ε α) (post : α → Prop) : Prop where
  ensures : Ensures allowed x.outcome post

theorem Quiet.ends (h : Quiet allowed x post) (hx : x.events = []) : Ends allowed x post := ⟨h.ensures hx⟩

/-- A computation that never stops returns a value. -/
theorem Ends.exists_ok (h : Ends (fun _ => False) x post) : ∃ a, x.outcome = .ok a ∧ post a := by
  have hensures := h.ensures
  cases hout : x.outcome with
  | error e =>
    rw [hout] at hensures
    exact hensures.elim
  | ok a =>
    rw [hout] at hensures
    exact ⟨a, rfl, hensures⟩

/-- A sequence logs nothing if its parts log nothing. -/
theorem Ends.events_bind {f : α → Traced η ε β} {m : α → Prop} (he : Ends allowed x m) (hx : x.events = [])
    (hf : ∀ a, m a → (f a).events = []) : (x >>= f).events = [] :=
  Quiet.events_bind ⟨fun _ => he.ensures⟩ hx hf

theorem Ends.and (h : Ends allowed x post) (h' : Ends allowed x post') : Ends allowed x fun a => post a ∧ post' a :=
  ⟨h.ensures.and h'.ensures⟩

theorem ends_any (x : Traced η ε α) : Ends (fun _ => True) x fun _ => True := by
  refine ⟨?_⟩
  cases x.outcome <;> exact True.intro

/-- What is known of a returned value only. -/
theorem Ends.and_returned (h : Ends allowed x post) (h' : Ends (fun _ => True) x post') :
    Ends allowed x fun a => post a ∧ post' a := by
  have hensures := h.ensures
  have hensures' := h'.ensures
  refine ⟨?_⟩
  cases hout : x.outcome with
  | error e =>
    rw [hout] at hensures
    exact hensures
  | ok a =>
    rw [hout] at hensures hensures'
    exact ⟨hensures, hensures'⟩

theorem Ends.pure {a : α} (h : post a) : Ends allowed (Pure.pure a : Traced η ε α) post := ⟨h⟩

theorem Ends.stop {e : ε} (h : allowed e) : Ends allowed (Traced.stop e : Traced η ε α) post := ⟨h⟩

theorem Ends.mono (h : Ends allowed x post) (hp : ∀ a, post a → post' a) : Ends allowed x post' := ⟨h.ensures.mono hp⟩

theorem Ends.bind {f : α → Traced η ε β} {post : β → Prop} {m : α → Prop} (hx : Ends allowed x m)
    (hf : ∀ a, m a → Ends allowed (f a) post) : Ends allowed (x >>= f) post := by
  have h := hx.ensures
  refine ⟨?_⟩
  change Ensures allowed (Traced.bind x f).outcome post
  rw [Traced.bind]
  cases hout : x.outcome with
  | error e =>
    rw [hout] at h
    exact h
  | ok a =>
    rw [hout] at h
    exact (hf a h).ensures

/-- Nothing is known after a logged condition. -/
theorem Ends.noteIf {c : Prop} [Decidable c] {e : η} {f : PUnit → Traced η ε β} {post : β → Prop}
    (hf : Ends allowed (f ⟨⟩) post) : Ends allowed (Traced.noteIf c e >>= f) post :=
  Ends.bind (m := fun _ => True) ⟨trivial⟩ fun _ _ => hf

theorem Ends.check {c : Prop} [Decidable c] {e : ε} {f : PUnit → Traced η ε β} {post : β → Prop} (hc : c)
    (hf : Ends allowed (f ⟨⟩) post) : Ends allowed (Traced.check c e >>= f) post := by
  rw [check_eq_pure hc]
  exact hf

theorem Ends.check_allowed {c : Prop} [Decidable c] {e : ε} {f : PUnit → Traced η ε β} {post : β → Prop}
    (he : ¬ c → allowed e) (hf : c → Ends allowed (f ⟨⟩) post) : Ends allowed (Traced.check c e >>= f) post := by
  by_cases hc : c
  · exact .check hc (hf hc)
  · refine Ends.bind (m := fun _ => False) ⟨?_⟩ fun _ hfalse => hfalse.elim
    rw [Traced.check, if_neg hc]
    exact he hc

/-- Nothing is logged under a condition, and otherwise the given event is. -/
structure Logs (e : η) (c : Prop) (x : Traced η ε α) : Prop where
  quiet : c → x.events = []
  logged : ¬ c → e ∈ x.events

variable {e : η} {c c' : Prop}

theorem Logs.of_events (hx : x.events = []) (hc : c) : Logs e c x := ⟨fun _ => hx, fun hn => absurd hc hn⟩

theorem Logs.congr (h : Logs e c x) (hc : c ↔ c') : Logs e c' x := ⟨fun h' => h.quiet (hc.mpr h'), fun h' => h.logged (mt hc.mp h')⟩

/-- A computation that logs nothing is followed by another one. -/
theorem Logs.after {f : α → Traced η ε β} {m : α → Prop} (he : Ends (fun _ => False) x m) (hx : x.events = [])
    (hf : ∀ a, m a → Logs e c (f a)) : Logs e c (x >>= f) := by
  obtain ⟨a, hout, ha⟩ := he.exists_ok
  have hbind : x >>= f = f a := by
    change Traced.bind x f = f a
    rw [Traced.bind, hout, hx]
    rfl
  rw [hbind]
  exact hf a ha

/-- Both parts of a sequence may log the event. -/
theorem Logs.bind {f : α → Traced η ε β} {m : α → Prop} (h : Logs e c x) (he : Ends (fun _ => False) x m)
    (hf : c → ∀ a, m a → Logs e c' (f a)) : Logs e (c ∧ c') (x >>= f) := by
  by_cases hc : c
  · exact (Logs.after he (h.quiet hc) (hf hc)).congr (and_iff_right hc).symm
  · refine ⟨fun hboth => absurd hboth.1 hc, fun _ => ?_⟩
    obtain ⟨a, hout, -⟩ := he.exists_ok
    change e ∈ (Traced.bind x f).events
    rw [Traced.bind, hout]
    exact List.mem_append_left _ (h.logged hc)

/-- A computation that logs nothing follows. -/
theorem Logs.then_silent {f : α → Traced η ε β} (hx : Logs e c x) (hf : ∀ a, (f a).events = []) : Logs e c (x >>= f) := by
  have hevents : (x >>= f).events = x.events := by
    change (Traced.bind x f).events = _
    rw [Traced.bind]
    cases x.outcome with
    | error e => rfl
    | ok a =>
      change x.events ++ (f a).events = _
      rw [hf, List.append_nil]
  constructor
  · rw [hevents]
    exact hx.quiet
  · rw [hevents]
    exact hx.logged

theorem Logs.check {c₀ : Prop} [Decidable c₀] {r : ε} {f : PUnit → Traced η ε β} (hc : c₀) (hf : Logs e c (f ⟨⟩)) :
    Logs e c (Traced.check c₀ r >>= f) := by
  rw [check_eq_pure hc]
  exact hf

end Traced

end LuckOS.Outcome
