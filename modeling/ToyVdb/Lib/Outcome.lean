import Mathlib.Tactic.Common

/-!
# Total correctness for fallible computations

A loop of a fallible program is specified by what it returns together with the fact that it returns:
no exception, no access outside an array, no exhausted fuel. `Yields x P` says both at once, and the
rules below compose it along `>>=` and along `List.foldlM`, so a specification of a function is
proved from the specifications of what it calls without ever unfolding them.
-/

namespace Outcome

variable {ε α β σ : Type}

/-- The computation returns, and what it returns satisfies the postcondition. -/
def Yields (x : Except ε α) (P : α → Prop) : Prop := ∃ a, x = .ok a ∧ P a

theorem Yields.ok {a : α} {P : α → Prop} (h : P a) : Yields (.ok a : Except ε α) P := ⟨a, rfl, h⟩

theorem Yields.pure {a : α} {P : α → Prop} (h : P a) : Yields (pure a : Except ε α) P := ⟨a, rfl, h⟩

theorem Yields.bind {x : Except ε α} {f : α → Except ε β} {P : α → Prop} {Q : β → Prop}
    (hx : Yields x P) (hf : ∀ a, P a → Yields (f a) Q) : Yields (x >>= f) Q := by
  obtain ⟨a, rfl, ha⟩ := hx
  exact hf a ha

theorem Yields.mono {x : Except ε α} {P Q : α → Prop} (hx : Yields x P) (h : ∀ a, P a → Q a) :
    Yields x Q := by
  obtain ⟨a, hxa, ha⟩ := hx
  exact ⟨a, hxa, h a ha⟩

theorem error_bind (err : ε) (f : α → Except ε β) : (Except.error err >>= f) = .error err := rfl

theorem exists_of_bind_eq_ok {x : Except ε α} {f : α → Except ε β} {b : β} (h : x >>= f = .ok b) :
    ∃ a, x = .ok a ∧ f a = .ok b := by
  cases x with
  | error err => cases h
  | ok a => exact ⟨a, rfl, h⟩

/-- The loop rule: an invariant indexed by the elements still to be visited. -/
theorem Yields.foldlM {step : σ → α → Except ε σ} {Inv : List α → σ → Prop}
    (hstep : ∀ a rest s, Inv (a :: rest) s → Yields (step s a) (Inv rest)) :
    ∀ (items : List α) (s : σ), Inv items s → Yields (items.foldlM step s) (Inv []) := by
  intro items
  induction items with
  | nil => intro s hs; exact Yields.pure hs
  | cons a rest ih =>
      intro s hs
      rw [List.foldlM_cons]
      exact (hstep a rest s hs).bind fun s' hs' => ih s' hs'

/-- What every step that returns preserves, a loop that returns preserves. -/
theorem invariant_foldlM {step : σ → α → Except ε σ} {Inv : σ → Prop}
    (hstep : ∀ s a s', Inv s → step s a = .ok s' → Inv s') :
    ∀ (items : List α) (s s' : σ), Inv s → items.foldlM step s = .ok s' → Inv s' := by
  intro items
  induction items with
  | nil =>
      intro s s' hs hfold
      cases hfold
      exact hs
  | cons a rest ih =>
      intro s s' hs hfold
      rw [List.foldlM_cons] at hfold
      obtain ⟨next, hnext, hrest⟩ := exists_of_bind_eq_ok hfold
      exact ih next s' (hstep s a next hs hnext) hrest

theorem foldlM_congr {f g : σ → α → Except ε σ} {Inv : σ → Prop}
    (hstep : ∀ s a s', Inv s → g s a = .ok s' → Inv s') (heq : ∀ s a, Inv s → f s a = g s a) :
    ∀ (items : List α) (s : σ), Inv s → items.foldlM f s = items.foldlM g s := by
  intro items
  induction items with
  | nil => intro s _; rfl
  | cons a rest ih =>
      intro s hs
      rw [List.foldlM_cons, List.foldlM_cons, heq s a hs]
      cases hnext : g s a with
      | error err => rfl
      | ok next => exact ih next (hstep s a next hs hnext)

/-- A sequence seen through a view is the sequence of what the view shows of its parts. -/
theorem map_bind {γ δ : Type} {view : α → β} {view' : γ → δ} {x : Except ε α} {y : Except ε β}
    {f : α → Except ε γ} {g : β → Except ε δ} (hx : x.map view = y)
    (hf : ∀ a, (f a).map view' = g (view a)) : (x >>= f).map view' = y >>= g := by
  cases x with
  | error err =>
      subst hx
      rfl
  | ok a =>
      subst hx
      exact hf a

theorem map_bind_same {γ δ : Type} {view : γ → δ} {x : Except ε α} {f : α → Except ε γ} {g : α → Except ε δ}
    (hf : ∀ a, (f a).map view = g a) : (x >>= f).map view = x >>= g := by
  cases x with
  | error err => rfl
  | ok a => exact hf a

theorem bind_map {view : α → β} (x : Except ε α) (f : β → Except ε σ) :
    x.map view >>= f = x >>= fun a => f (view a) := by
  cases x <;> rfl

theorem map_mapM {γ : Type} {view : β → γ} {f : α → Except ε β} {g : α → Except ε γ}
    (hfg : ∀ a, (f a).map view = g a) (items : List α) : (items.mapM f).map (List.map view) = items.mapM g := by
  induction items with
  | nil => rfl
  | cons a rest ih =>
      rw [List.mapM_cons, List.mapM_cons]
      refine map_bind (hfg a) fun b => ?_
      exact map_bind ih fun bs => rfl

theorem map_foldlM {τ : Type} {view : σ → τ} {f : σ → α → Except ε σ} {g : τ → α → Except ε τ}
    (hstep : ∀ s a, (f s a).map view = g (view s) a) :
    ∀ (items : List α) (s : σ), (items.foldlM f s).map view = items.foldlM g (view s) := by
  intro items
  induction items with
  | nil => intro s; rfl
  | cons a rest ih =>
      intro s
      rw [List.foldlM_cons, List.foldlM_cons, ← hstep s a]
      cases f s a with
      | error err => rfl
      | ok next => exact ih next

end Outcome
