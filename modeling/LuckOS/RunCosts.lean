import LuckOS.Runs

/-!
# Costs along runs

The steps of a partial step function have costs, which add up along a run. They are
bounded by the method of potentials: a step that costs more than it may lowers the
potential of the state by the difference.
-/

namespace LuckOS.Runs

universe u v

variable {σ : Type u} {α : Type v} {f : σ → α → Option σ} {c d : σ → α → Nat} {s t : σ} {a : α} {as : List α}

/-- The sum of the costs of the steps of a run. -/
def total (f : σ → α → Option σ) (c : σ → α → Nat) : σ → List α → Nat
  | _, [] => 0
  | s, a :: as =>
    match f s a with
    | none => c s a
    | some t => c s a + total f c t as

theorem total_cons (h : f s a = some t) : total f c s (a :: as) = c s a + total f c t as := by
  rw [total, h]

theorem total_add (f : σ → α → Option σ) (c d : σ → α → Nat) (s : σ) (as : List α) :
    total f (fun s a => c s a + d s a) s as = total f c s as + total f d s as := by
  induction as generalizing s with
  | nil => rfl
  | cons a as ih =>
    simp only [total]
    cases f s a with
    | none => rfl
    | some t =>
      have hrest := ih t
      dsimp only
      omega

theorem total_mul (f : σ → α → Option σ) (n : Nat) (c : σ → α → Nat) (s : σ) (as : List α) :
    total f (fun s a => n * c s a) s as = n * total f c s as := by
  induction as generalizing s with
  | nil => rfl
  | cons a as ih =>
    simp only [total]
    cases f s a with
    | none => rfl
    | some t =>
      dsimp only
      rw [ih, Nat.mul_add]

namespace Run

variable {step : σ → α → σ → Prop}

/-- A step with cost `c` that may cost `d` lowers the potential by the difference. -/
theorem amortised {p : σ → Nat → Prop} (hf : ∀ {s a t}, step s a t → f s a = some t)
    (hstep : ∀ {s a t n}, p s n → step s a t → ∃ m, p t m ∧ c s a + m ≤ d s a + n)
    (h : Run step s as t) {n : Nat} (hs : p s n) :
    ∃ m, p t m ∧ total f c s as + m ≤ total f d s as + n := by
  induction h generalizing n with
  | nil s => exact ⟨n, hs, by simp [total]⟩
  | cons head tail ih =>
    obtain ⟨m, hm, hfirst⟩ := hstep hs head
    obtain ⟨l, hl, hrest⟩ := ih hm
    refine ⟨l, hl, ?_⟩
    rw [total_cons (hf head), total_cons (hf head)]
    omega

/-- A run visits a state with a property, or none of its states has the property. -/
theorem visits_or_avoids (good : σ → Prop) (h : Run step s as t) :
    (∃ bs cs u, as = bs ++ cs ∧ Run step s bs u ∧ Run step u cs t ∧ good u) ∨
      ¬ good s ∧ Run (fun s a t => step s a t ∧ ¬ good t) s as t := by
  induction h with
  | nil s =>
    by_cases hs : good s
    · exact .inl ⟨[], [], s, rfl, .nil s, .nil s, hs⟩
    · exact .inr ⟨hs, .nil s⟩
  | @cons s u t a as head tail ih =>
    by_cases hs : good s
    · exact .inl ⟨[], a :: as, s, rfl, .nil s, .cons head tail, hs⟩
    · rcases ih with ⟨bs, cs, v, rfl, hfirst, hrest, hv⟩ | ⟨hu, hrun⟩
      · exact .inl ⟨a :: bs, cs, v, rfl, .cons head hfirst, hrest, hv⟩
      · exact .inr ⟨hs, .cons ⟨head, hu⟩ hrun⟩

end Run

end LuckOS.Runs
