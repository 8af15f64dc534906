import Mathlib.Tactic

/-! Free-running `UInt32` counters, as a producer and a consumer keep them: each counts up
and wraps at `2 ^ 32`, and the distance from the consumer's counter to the producer's is
what lies between them. -/

namespace Counter

/-- The distance from `b` up to `a`, modulo `2 ^ 32`. -/
def ahead (a b : UInt32) : ℕ := (a - b).toNat

theorem ahead_eq (a b : UInt32) : ahead a b = (2 ^ 32 - b.toNat + a.toNat) % 2 ^ 32 :=
  UInt32.toNat_sub a b

theorem ahead_eq_zero_iff {a b : UInt32} : ahead a b = 0 ↔ a = b := by
  have ha := UInt32.toNat_lt a
  have hb := UInt32.toNat_lt b
  rw [ahead_eq, ← UInt32.toNat_inj]
  omega

theorem eq_add_iff {a b : UInt32} {c : ℕ} (hc : c < 2 ^ 32) :
    a = b + UInt32.ofNat c ↔ ahead a b = c := by
  have ha := UInt32.toNat_lt a
  have hb := UInt32.toNat_lt b
  rw [ahead_eq, ← UInt32.toNat_inj, UInt32.toNat_add, UInt32.toNat_ofNat', Nat.mod_eq_of_lt hc]
  omega

theorem ahead_succ_left {a b : UInt32} (h : ahead a b + 1 < 2 ^ 32) : ahead (a + 1) b = ahead a b + 1 := by
  have ha := UInt32.toNat_lt a
  have hb := UInt32.toNat_lt b
  rw [ahead_eq] at h ⊢
  rw [ahead_eq, UInt32.toNat_add, UInt32.toNat_one]
  omega

theorem ahead_succ_right {a b : UInt32} (h : a ≠ b) : ahead a (b + 1) = ahead a b - 1 := by
  have ha := UInt32.toNat_lt a
  have hb := UInt32.toNat_lt b
  have hne : a.toNat ≠ b.toNat := fun e => h (UInt32.toNat_inj.mp e)
  rw [ahead_eq, ahead_eq, UInt32.toNat_add, UInt32.toNat_one]
  omega

theorem ahead_pred_left {a b : UInt32} (h : a ≠ b) : ahead (a - 1) b = ahead a b - 1 := by
  have ha := UInt32.toNat_lt a
  have hb := UInt32.toNat_lt b
  have hne : a.toNat ≠ b.toNat := fun e => h (UInt32.toNat_inj.mp e)
  rw [ahead_eq, ahead_eq, UInt32.toNat_sub, UInt32.toNat_one]
  omega

theorem add_ahead (a b : UInt32) : b + UInt32.ofNat (ahead a b) = a := by
  have ha := UInt32.toNat_lt a
  have hb := UInt32.toNat_lt b
  rw [← UInt32.toNat_inj, UInt32.toNat_add, UInt32.toNat_ofNat', ahead_eq]
  omega

theorem ahead_split {e w r : UInt32} (h : ahead w r ≤ ahead e r) : ahead e r = ahead w r + ahead e w := by
  have he := UInt32.toNat_lt e
  have hw := UInt32.toNat_lt w
  have hr := UInt32.toNat_lt r
  rw [ahead_eq, ahead_eq] at h
  rw [ahead_eq, ahead_eq, ahead_eq]
  omega

end Counter
