import Mathlib.Data.List.Basic
import Mathlib.Logic.Function.Basic

/-!
# Runs of a labelled transition system

A step relation is labelled with the action that is performed. A run is the list
of its actions. Invariants are carried along runs, also along runs all of whose
steps meet a guard on the state in which they are taken, and a simulation turns a
run into a run of the simulating system.
-/

namespace LuckOS.Runs

universe u v w

variable {σ : Type u} {τ : Type w} {α : Type v}

/-- A run from one state to another, indexed by the actions it performs. -/
inductive Run (step : σ → α → σ → Prop) : σ → List α → σ → Prop
  | nil (s : σ) : Run step s [] s
  | cons {s t u : σ} {a : α} {as : List α} (head : step s a t) (tail : Run step t as u) :
      Run step s (a :: as) u

/-- The steps whose action is admitted in the state in which it is performed. -/
def Guarded (ok : σ → α → Prop) (step : σ → α → σ → Prop) (s : σ) (a : α) (t : σ) : Prop :=
  ok s a ∧ step s a t

/-- The steps of a partial step function. -/
def Steps (f : σ → α → Option σ) (s : σ) (a : α) (t : σ) : Prop := f s a = some t

namespace Run

variable {step step' : σ → α → σ → Prop} {s t u : σ} {as bs : List α}

theorem mono (h : Run step s as t) (hstep : ∀ {s a t}, step s a t → step' s a t) :
    Run step' s as t := by
  induction h with
  | nil s => exact .nil s
  | cons head tail ih => exact .cons (hstep head) ih

theorem append (h : Run step s as t) (h' : Run step t bs u) : Run step s (as ++ bs) u := by
  induction h with
  | nil s => exact h'
  | cons head tail ih => exact .cons head (ih h')

theorem split (h : Run step s (as ++ bs) u) : ∃ t, Run step s as t ∧ Run step t bs u := by
  induction as generalizing s with
  | nil => exact ⟨s, .nil s, h⟩
  | cons a as ih =>
    cases h with
    | cons head tail =>
      obtain ⟨t, hfirst, hrest⟩ := ih tail
      exact ⟨t, .cons head hfirst, hrest⟩

theorem snoc (h : Run step s as t) {a : α} (hs : step t a u) : Run step s (as ++ [a]) u :=
  h.append (.cons hs (.nil u))

/-- What holds at the start and is preserved by every step holds at the end. -/
theorem invariant {inv : σ → Prop} (hstep : ∀ {s a t}, inv s → step s a t → inv t)
    (h : Run step s as t) (hs : inv s) : inv t := by
  induction h with
  | nil s => exact hs
  | cons head tail ih => exact ih (hstep hs head)

theorem unguard {ok : σ → α → Prop} (h : Run (Guarded ok step) s as t) : Run step s as t :=
  h.mono And.right

/-- A forward simulation maps a run to a run with the same actions. -/
theorem simulate {astep : τ → α → τ → Prop} {rel : σ → τ → Prop}
    (hsim : ∀ {s a t x}, rel s x → step s a t → ∃ y, astep x a y ∧ rel t y)
    (h : Run step s as t) {x : τ} (hx : rel s x) : ∃ y, Run astep x as y ∧ rel t y := by
  induction h generalizing x with
  | nil s => exact ⟨x, .nil x, hx⟩
  | cons head tail ih =>
    obtain ⟨y, hy, hrel⟩ := hsim hx head
    obtain ⟨z, hz, hrel'⟩ := ih hrel
    exact ⟨z, .cons hy hz, hrel'⟩

end Run

/-- Perform a list of actions with a partial step function. -/
def execute (f : σ → α → Option σ) : σ → List α → Option σ
  | s, [] => some s
  | s, a :: as => (f s a).bind (fun t => execute f t as)

theorem run_of_execute {f : σ → α → Option σ} {s t : σ} {as : List α}
    (h : execute f s as = some t) : Run (Steps f) s as t := by
  induction as generalizing s with
  | nil =>
    obtain rfl : s = t := Option.some.inj h
    exact .nil s
  | cons a as ih =>
    obtain ⟨u, hu, ht⟩ := Option.bind_eq_some_iff.mp h
    exact .cons hu (ih ht)

/-- The steps of a step function that pass a test. -/
def permit (test : σ → α → Bool) (f : σ → α → Option σ) (s : σ) (a : α) : Option σ :=
  if test s a then f s a else none

theorem run_of_execute_permit {f : σ → α → Option σ} {test : σ → α → Bool} {ok : σ → α → Prop}
    (hok : ∀ {s a}, test s a = true → ok s a) {s t : σ} {as : List α} (h : execute (permit test f) s as = some t) :
    Run (Guarded ok (Steps f)) s as t := by
  refine (run_of_execute h).mono fun {s a t} hstep => ?_
  rw [Steps, permit] at hstep
  split_ifs at hstep with htest
  exact ⟨hok htest, hstep⟩

/-- A property holds in all states along a run if and only if its steps meet the guard, provided that
under the invariant a step leads to a state with the property if and only if it meets the guard. -/
theorem throughout_iff {f : σ → α → Option σ} {inv good : σ → Prop} {ok : σ → α → Prop}
    (hinv : ∀ {s a t}, inv s → ok s a → f s a = some t → inv t)
    (hiff : ∀ {s a t}, inv s → f s a = some t → (good t ↔ ok s a)) {s t : σ} {as : List α} (hs : inv s) (hgood : good s)
    (h : Run (Steps f) s as t) :
    (∀ bs u, bs <+: as → Run (Steps f) s bs u → good u) ↔ Run (Guarded ok (Steps f)) s as t := by
  induction h with
  | nil s =>
    refine ⟨fun _ => .nil s, fun _ bs u hinitial hrun => ?_⟩
    obtain rfl := List.prefix_nil.mp hinitial
    cases hrun
    exact hgood
  | @cons s s' t a as head tail ih =>
    constructor
    · intro hall
      have hgood' : good s' := hall [a] s' (List.prefix_append [a] as) (.cons head (.nil s'))
      have hok := (hiff hs head).mp hgood'
      refine .cons ⟨hok, head⟩ ((ih (hinv hs hok head) hgood').mp fun bs u hinitial hrun => ?_)
      exact hall (a :: bs) u ((List.prefix_cons_inj a).mpr hinitial) (.cons head hrun)
    · intro hguarded bs u hinitial hrun
      cases hguarded with
      | cons hfirst hrest =>
        obtain ⟨hok, hfirst⟩ := hfirst
        obtain rfl := Option.some.inj (head.symm.trans hfirst)
        cases hrun with
        | nil => exact hgood
        | cons hstep hrun =>
          obtain ⟨rfl, hshorter⟩ := List.cons_prefix_cons.mp hinitial
          obtain rfl := Option.some.inj (head.symm.trans hstep)
          exact (ih (hinv hs hok head) ((hiff hs head).mpr hok)).mpr hrest _ _ hshorter hrun

/-- A property of the places of the threads that the step of one thread keeps. -/
theorem apply_place {ι γ β : Type} [DecidableEq ι] (places : ι → γ) (i : ι) (x : γ) (f : γ → β)
    (h : f x = f (places i)) (j : ι) : f (Function.update places i x j) = f (places j) := by
  by_cases hj : j = i
  · rw [hj, Function.update_self, h]
  · rw [Function.update_of_ne hj]

/-! ## Steps that are forced -/

/-- From `s` nothing can happen but the action `a`, which leads to `t`. -/
def Forced (step : σ → α → σ → Prop) (s : σ) (a : α) (t : σ) : Prop := ∀ {b u}, step s b u → b = a ∧ u = t

/-- Forced steps, which the simulating system follows, lead to states that are related. -/
inductive Settles (step : σ → α → σ → Prop) (astep : τ → α → τ → Prop) (rel : σ → τ → Prop) : σ → τ → Prop
  | done {s : σ} {x : τ} (h : rel s x) : Settles step astep rel s x
  | force {s t : σ} {x y : τ} {a : α} (hforced : Forced step s a t) (hastep : astep x a y)
      (h : Settles step astep rel t y) : Settles step astep rel s x

variable {step : σ → α → σ → Prop} {astep : τ → α → τ → Prop} {rel : σ → τ → Prop}

theorem Settles.follow (hrel : ∀ {s a t x}, rel s x → step s a t → ∃ y, astep x a y ∧ Settles step astep rel t y)
    {s t : σ} {x : τ} {a : α} (h : Settles step astep rel s x) (hstep : step s a t) :
    ∃ y, astep x a y ∧ Settles step astep rel t y := by
  cases h with
  | done h => exact hrel h hstep
  | force hforced hastep h =>
    obtain ⟨rfl, rfl⟩ := hforced hstep
    exact ⟨_, hastep, h⟩

/-- It suffices that every step from related states leads to states that settle. -/
theorem Settles.simulate
    (hrel : ∀ {s a t x}, rel s x → step s a t → ∃ y, astep x a y ∧ Settles step astep rel t y) {s t : σ} {x : τ}
    {as : List α} (h : Run step s as t) (hx : Settles step astep rel s x) :
    ∃ y, Run astep x as y ∧ Settles step astep rel t y :=
  h.simulate (fun hsettles hstep => hsettles.follow hrel hstep) hx

end LuckOS.Runs
