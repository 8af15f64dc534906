import Mathlib.Tactic

/-! The `Except` monad as kernel code uses it, a panic being an `error`: the simp set that
runs a `do` block through its binds, and the inversion of a bind that succeeded. -/

namespace Except

variable {ε α β : Type} {e : ε} {a : α} {b : β} {x : Except ε α} {f : α → Except ε β}

@[simp] theorem ok_bind : (Except.ok a >>= f) = f a := rfl

@[simp] theorem error_bind : (Except.error e >>= f) = Except.error e := rfl

@[simp] theorem pure_eq_ok : (pure a : Except ε α) = Except.ok a := rfl

theorem bind_eq_ok : (x >>= f) = Except.ok b ↔ ∃ a, x = Except.ok a ∧ f a = Except.ok b := by
  cases x with
  | error e => simp
  | ok a => simp

theorem map_eq_ok {g : α → β} : x.map g = Except.ok b ↔ ∃ a, x = Except.ok a ∧ g a = b := by
  cases x with
  | error e => simp [Except.map]
  | ok a => simp [Except.map]

/-- A computation whose result, seen through `g`, is `b` returned a value that `g` takes to
`b`; with `decide` this turns an evaluated call into an existence statement. -/
theorem exists_of_toOption_map {g : α → β} (h : x.toOption.map g = some b) : ∃ a, x = .ok a ∧ g a = b := by
  cases x with
  | error e => simp [Except.toOption] at h
  | ok a => exact ⟨a, rfl, by simpa [Except.toOption] using h⟩

/-- What every round of a fold keeps, a fold that succeeded keeps. -/
theorem foldlM_invariant {σ : Type} {step : σ → α → Except ε σ} (P : σ → Prop)
    (hstep : ∀ s a s', P s → step s a = .ok s' → P s') :
    ∀ (l : List α) {s s' : σ}, P s → l.foldlM step s = .ok s' → P s'
  | [], _, _, hs, h => by cases h; exact hs
  | a :: l, s, _, hs, h => by
    rw [List.foldlM_cons] at h
    obtain ⟨s₁, h₁, h⟩ := bind_eq_ok.mp h
    exact foldlM_invariant P hstep l (hstep s a s₁ hs h₁) h

theorem foldlM_range_succ {σ : Type} {step : σ → ℕ → Except ε σ} {n : ℕ} {s sₙ s' : σ}
    (h : (List.range n).foldlM step s = .ok sₙ) (hs : step sₙ n = .ok s') :
    (List.range (n + 1)).foldlM step s = .ok s' := by
  rw [List.range_succ, List.foldlM_append, h, ok_bind, List.foldlM_cons, hs, ok_bind]
  rfl

end Except
