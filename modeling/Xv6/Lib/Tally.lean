import Mathlib.Algebra.BigOperators.Group.Finset.Piecewise
import Mathlib.Data.Fintype.Basic

/-! Tallies over a table `g : α → β` with finitely many slots: how many slots hold a value,
and how writing one slot changes that number. A reference count that is meant to equal
the number of pointers held in a table is compared with such a tally. -/

namespace Tally

variable {α β : Type*} [Fintype α] [DecidableEq α] [DecidableEq β]

/-- The number of slots of `g` that hold `b`. -/
def count (g : α → β) (b : β) : ℕ := (Finset.univ.filter fun a => g a = b).card

theorem count_update (g : α → β) (a : α) (v b : β) :
    count (Function.update g a v) b + (if g a = b then 1 else 0) =
      count g b + (if v = b then 1 else 0) := by
  have e : ∀ x, (if Function.update g a v x = b then 1 else 0) =
      Function.update (fun x => if g x = b then (1 : ℕ) else 0) a (if v = b then 1 else 0) x := by
    intro x
    by_cases hx : x = a
    · subst hx; simp
    · simp [Function.update_of_ne hx]
  simp only [count, Finset.card_filter, e]
  rw [Finset.sum_update_of_mem (Finset.mem_univ a), ← Finset.add_sum_erase _ _ (Finset.mem_univ a),
    Finset.sdiff_singleton_eq_erase]
  omega

omit [DecidableEq α] in
theorem count_eq_zero {g : α → β} {b : β} : count g b = 0 ↔ ∀ a, g a ≠ b := by
  simp [count, Finset.filter_eq_empty_iff]

end Tally
