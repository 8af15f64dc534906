import Mathlib.Tactic

/-! A store `κ → α` and a sequence of writes to single keys, applied in order: what a key
holds afterwards, and after any prefix of the sequence, which is what a device that writes
one key at a time holds when the power fails. -/

namespace Store

variable {κ α : Type} [DecidableEq κ]

/-- Apply the writes `ws` in order. -/
def apply (f : κ → α) (ws : List (κ × α)) : κ → α :=
  ws.foldl (fun f w => Function.update f w.1 w.2) f

@[simp] theorem apply_nil (f : κ → α) : apply f [] = f := rfl

@[simp] theorem apply_cons (f : κ → α) (w : κ × α) (ws : List (κ × α)) :
    apply f (w :: ws) = apply (Function.update f w.1 w.2) ws := rfl

theorem apply_append (f : κ → α) (ws vs : List (κ × α)) :
    apply f (ws ++ vs) = apply (apply f ws) vs := List.foldl_append

theorem apply_of_forall_ne {f : κ → α} {k : κ} :
    ∀ {ws : List (κ × α)}, (∀ w ∈ ws, w.1 ≠ k) → apply f ws k = f k
  | [], _ => rfl
  | w :: ws, h => by
    rw [apply_cons, apply_of_forall_ne fun w' hw' => h w' (List.mem_cons_of_mem w hw')]
    exact Function.update_of_ne (h w List.mem_cons_self).symm _ _

theorem apply_of_forall_eq {k : κ} {v : α} :
    ∀ {f : κ → α} {ws : List (κ × α)}, (∀ w ∈ ws, w.1 = k → w.2 = v) → (∃ w ∈ ws, w.1 = k) →
      apply f ws k = v
  | _, [], _, ⟨_, hw, _⟩ => absurd hw List.not_mem_nil
  | f, w :: ws, hall, hsome => by
    rw [apply_cons]
    by_cases hrest : ∃ w' ∈ ws, w'.1 = k
    · -- a later write to `k` decides
      exact apply_of_forall_eq (fun w' hw' => hall w' (List.mem_cons_of_mem w hw')) hrest
    · -- `w` is the only write to `k`
      simp only [not_exists, not_and] at hrest
      obtain ⟨w', hw', hk⟩ := hsome
      have hw : w.1 = k := by
        rcases List.mem_cons.mp hw' with rfl | hw'
        · exact hk
        · exact absurd hk (hrest w' hw')
      rw [apply_of_forall_ne hrest, ← hw, Function.update_self]
      exact hall w List.mem_cons_self hw

/-- What holds after every prefix of `A` from `f`, and after every prefix of `B` once all
of `A` is written, holds after every prefix of `A ++ B`: the rule that takes a crash
argument through the phases of a protocol. -/
theorem prefix_append {P : (κ → α) → Prop} {f : κ → α} {A B : List (κ × α)}
    (hA : ∀ k, P (apply f (A.take k))) (hB : ∀ k, P (apply (apply f A) (B.take k))) (k : ℕ) :
    P (apply f ((A ++ B).take k)) := by
  rw [List.take_append, apply_append]
  by_cases hk : k ≤ A.length
  · rw [Nat.sub_eq_zero_of_le hk, List.take_zero, apply_nil]
    exact hA k
  · rw [List.take_of_length_le (by omega)]
    exact hB _

/-- What holds after every prefix of the writes holds once all of them are written. -/
theorem of_forall_take {P : (κ → α) → Prop} {f : κ → α} {ws : List (κ × α)}
    (h : ∀ k, P (apply f (ws.take k))) : P (apply f ws) := by
  simpa using h ws.length

end Store
