import Mathlib.Data.List.Basic

/-!
# Computations that may stop

A computation returns a value or stops with a reason. `Ensures allowed x post` says
that `x` returns a value satisfying `post`, or stops for an allowed reason. The rules
below follow sequential composition, case distinction and loops over a list.
-/

namespace LuckOS.Outcome

universe u v

variable {ε : Type u} {α β : Type v} {allowed : ε → Prop}

/-- Partial correctness up to the allowed reasons to stop. -/
def Ensures (allowed : ε → Prop) (x : Except ε α) (post : α → Prop) : Prop :=
  match x with
  | .ok a => post a
  | .error e => allowed e

@[simp] theorem ensures_ok {a : α} {post : α → Prop} : Ensures allowed (.ok a) post ↔ post a := Iff.rfl

@[simp] theorem ensures_error {e : ε} {post : α → Prop} :
    Ensures allowed (.error e : Except ε α) post ↔ allowed e := Iff.rfl

theorem Ensures.mono {x : Except ε α} {post post' : α → Prop} (h : Ensures allowed x post)
    (hp : ∀ a, post a → post' a) : Ensures allowed x post' := by
  cases x with
  | error e => exact h
  | ok a => exact hp a h

theorem Ensures.and {x : Except ε α} {post post' : α → Prop} (h : Ensures allowed x post)
    (h' : Ensures allowed x post') : Ensures allowed x (fun a => post a ∧ post' a) := by
  cases x with
  | error e => exact h
  | ok a => exact ⟨h, h'⟩

theorem Ensures.of_ok {x : Except ε α} {a : α} {post : α → Prop} (h : Ensures allowed x post) (hx : x = .ok a) :
    post a := by
  rw [hx] at h
  exact h

theorem Ensures.bind {x : Except ε α} {f : α → Except ε β} {m : α → Prop} {post : β → Prop}
    (hx : Ensures allowed x m) (hf : ∀ a, m a → Ensures allowed (f a) post) :
    Ensures allowed (x >>= f) post := by
  cases x with
  | error e => exact hx
  | ok a => exact hf a hx

theorem bind_eq_ok {x : Except ε α} {f : α → Except ε β} {b : β} (h : x >>= f = .ok b) :
    ∃ a, x = .ok a ∧ f a = .ok b := by
  cases x with
  | error e => cases h
  | ok a => exact ⟨a, rfl, h⟩

/-- A loop over a list keeps an invariant indexed by the part already visited. -/
theorem ensures_foldlM {f : β → α → Except ε β} {I : List α → β → Prop} {l : List α} {b : β}
    (hb : I [] b)
    (hstep : ∀ done x rest b, l = done ++ x :: rest → I done b → Ensures allowed (f b x) (I (done ++ [x]))) :
    Ensures allowed (l.foldlM f b) (I l) := by
  suffices h : ∀ done rest b, l = done ++ rest → I done b → Ensures allowed (rest.foldlM f b) (I l) from
    h [] l b rfl hb
  intro done rest
  induction rest generalizing done with
  | nil =>
    intro b hl hinv
    rw [hl, List.append_nil]
    exact hinv
  | cons x rest ih =>
    intro b hl hinv
    rw [List.foldlM_cons]
    exact Ensures.bind (hstep done x rest b hl hinv) fun c hc => ih (done ++ [x]) c (by simp [hl]) hc

/-- The same rule for a loop that always returns. -/
theorem foldl_invariant {f : β → α → β} {I : List α → β → Prop} {l : List α} {b : β} (hb : I [] b)
    (hstep : ∀ done x rest b, l = done ++ x :: rest → I done b → I (done ++ [x]) (f b x)) :
    I l (l.foldl f b) := by
  suffices h : ∀ done rest b, l = done ++ rest → I done b → I l (rest.foldl f b) from h [] l b rfl hb
  intro done rest
  induction rest generalizing done with
  | nil =>
    intro b hl hinv
    rw [hl, List.append_nil]
    exact hinv
  | cons x rest ih =>
    intro b hl hinv
    exact ih (done ++ [x]) (f b x) (by simp [hl]) (hstep done x rest b hl hinv)

/-- In a loop over `0, …, n - 1` the index is the number of the turns that are done. -/
theorem eq_length_of_range_eq {n x : Nat} {l rest : List Nat} (h : List.range n = l ++ x :: rest) :
    x = l.length ∧ x < n := by
  have hlt : l.length < n := by
    have hlen := congrArg List.length h
    simp only [List.length_range, List.length_append, List.length_cons] at hlen
    omega
  have hx : (List.range n)[l.length]? = some x := by simp [h]
  rw [List.getElem?_range hlt, Option.some.injEq] at hx
  omega

/-! ## Computations that return -/

/-- The computation returns, and its value satisfies `post`. -/
def Returns (x : Except ε α) (post : α → Prop) : Prop := ∃ a, x = .ok a ∧ post a

theorem Returns.mono {x : Except ε α} {post post' : α → Prop} (h : Returns x post) (hp : ∀ a, post a → post' a) :
    Returns x post' := by
  obtain ⟨a, hx, ha⟩ := h
  exact ⟨a, hx, hp a ha⟩

theorem Returns.bind {x : Except ε α} {f : α → Except ε β} {m : α → Prop} {post : β → Prop} (hx : Returns x m)
    (hf : ∀ a, m a → Returns (f a) post) : Returns (x >>= f) post := by
  obtain ⟨a, rfl, ha⟩ := hx
  exact hf a ha

/-- A loop over a list that returns in each turn returns. -/
theorem returns_foldlM {f : β → α → Except ε β} {I : List α → β → Prop} {l : List α} {b : β} (hb : I [] b)
    (hstep : ∀ done x rest b, l = done ++ x :: rest → I done b → Returns (f b x) (I (done ++ [x]))) :
    Returns (l.foldlM f b) (I l) := by
  suffices h : ∀ done rest b, l = done ++ rest → I done b → Returns (rest.foldlM f b) (I l) from h [] l b rfl hb
  intro done rest
  induction rest generalizing done with
  | nil =>
    intro b hl hinv
    rw [hl, List.append_nil]
    exact ⟨b, rfl, hinv⟩
  | cons x rest ih =>
    intro b hl hinv
    rw [List.foldlM_cons]
    exact Returns.bind (hstep done x rest b hl hinv) fun c hc => ih (done ++ [x]) c (by simp [hl]) hc

/-- A loop that returns in each turn, next to a loop of a function. -/
theorem returns_beside {γ δ : Type v} {f : β → δ → Except ε β} {g : γ → δ → γ} {R : β → γ → Prop} {l : List δ} {b : β}
    {c : γ} (h : R b c) (hstep : ∀ x ∈ l, ∀ b c, R b c → Returns (f b x) fun b' => R b' (g c x)) :
    Returns (l.foldlM f b) fun b' => R b' (l.foldl g c) := by
  induction l generalizing b c with
  | nil => exact ⟨b, rfl, h⟩
  | cons x l ih =>
    rw [List.foldlM_cons]
    exact (hstep x List.mem_cons_self b c h).bind fun b' hb => ih hb fun y hy => hstep y (List.mem_cons_of_mem x hy)

/-- Two computations both return, and their values are related. -/
def Together {ε' : Type u} {α' : Type v} (x : Except ε α) (y : Except ε' α') (post : α → α' → Prop) : Prop :=
  Returns x fun a => Returns y fun b => post a b

section Together

variable {ε' : Type u} {α' β' γ : Type v}

theorem together_ok {a : α} {b : α'} {post : α → α' → Prop} (h : post a b) :
    Together (.ok a : Except ε α) (.ok b : Except ε' α') post :=
  ⟨a, rfl, b, rfl, h⟩

theorem Together.mono {x : Except ε α} {y : Except ε' α'} {post post' : α → α' → Prop} (h : Together x y post)
    (hp : ∀ a b, post a b → post' a b) : Together x y post' :=
  Returns.mono h fun a hy => hy.mono fun b => hp a b

theorem Together.bind {x : Except ε α} {y : Except ε' α'} {f : α → Except ε β} {g : α' → Except ε' β'}
    {m : α → α' → Prop} {post : β → β' → Prop} (h : Together x y m) (hf : ∀ a b, m a b → Together (f a) (g b) post) :
    Together (x >>= f) (y >>= g) post := by
  obtain ⟨a, rfl, b, rfl, hm⟩ := h
  exact hf a b hm

/-- Two loops over the same list. -/
theorem together_foldlM {f : β → γ → Except ε β} {g : β' → γ → Except ε' β'} {I : List γ → β → β' → Prop}
    {l : List γ} {b : β} {c : β'} (hb : I [] b c)
    (hstep : ∀ done x rest b c, l = done ++ x :: rest → I done b c → Together (f b x) (g c x) (I (done ++ [x]))) :
    Together (l.foldlM f b) (l.foldlM g c) (I l) := by
  suffices h : ∀ done rest b c, l = done ++ rest → I done b c →
      Together (rest.foldlM f b) (rest.foldlM g c) (I l) from h [] l b c rfl hb
  intro done rest
  induction rest generalizing done with
  | nil =>
    intro b c hl hinv
    rw [hl, List.append_nil]
    exact together_ok hinv
  | cons x rest ih =>
    intro b c hl hinv
    rw [List.foldlM_cons, List.foldlM_cons]
    exact (hstep done x rest b c hl hinv).bind fun b' c' hc => ih (done ++ [x]) b' c' (by simp [hl]) hc

end Together

end LuckOS.Outcome
