import Xv6.Spec.Ulib
import Xv6.Lib.ByteMem

/-! Both `memmove`s store the original source bytes over the destination and change nothing
else, wherever the two ranges lie: each picks a loop whose reads run ahead of its writes.
This is the copy that the kernel model writes as `Phys.memmove`, `writeBytes` of the source
bytes. -/

namespace Xv6

open ByteMem

variable {m : ℕ → UInt8}

/-- The upward loop reads each source byte before any store reaches it when the destination
starts at or below the source, or past its end. -/
theorem copyUp_eq (n : ℕ) {d s : ℕ} (h : d ≤ s ∨ s + n ≤ d) :
    copyUp m d s n = writeBytes m d (readBytes m s n) := by
  induction n generalizing m d s with
  | zero => simp [copyUp, readBytes]
  | succ n ih =>
    -- the first store lies below every source byte still to be read
    have hread : readBytes (Function.update m d (m s)) (s + 1) n = readBytes m (s + 1) n :=
      readBytes_congr fun i hi => Function.update_of_ne (by omega) _ _
    rw [copyUp, ih (by omega), hread, writeBytes_update_succ, readBytes_succ]

/-- The downward loop, from one past the ends, reads each source byte before any store
reaches it when the destination starts at or above the source, or ends below it. -/
theorem copyDown_eq (n : ℕ) {d s : ℕ} (h : s ≤ d ∨ d + n ≤ s) :
    copyDown m (d + n) (s + n) n = writeBytes m d (readBytes m s n) := by
  induction n generalizing m with
  | zero => simp [copyDown, readBytes]
  | succ n ih =>
    -- the first store lies above every source byte still to be read
    have hread : readBytes (Function.update m (d + n) (m (s + n))) s n = readBytes m s n :=
      readBytes_congr fun i hi => Function.update_of_ne (by omega) _ _
    have hlast := writeBytes_update_end (m := m) d (m (s + n)) (readBytes m s n)
    rw [length_readBytes] at hlast
    rw [copyDown, show d + (n + 1) - 1 = d + n by omega, show s + (n + 1) - 1 = s + n by omega,
      ih (by omega), hread, hlast, readBytes_succ_end]

/-- The kernel's `memmove` copies downwards exactly when the source starts below the
destination and runs into it. -/
theorem memmove_eq (m : ℕ → UInt8) (dst src n : ℕ) :
    memmove m dst src n = writeBytes m dst (readBytes m src n) := by
  unfold memmove
  split_ifs with h0 hdown
  · subst h0
    simp [readBytes]
  · exact copyDown_eq n (.inl hdown.1.le)
  · exact copyUp_eq n (by omega)

/-- The user library's `memmove` for a count `n ≥ 0`: upwards when the source lies above
the destination, downwards otherwise. -/
theorem Ulib.memmove_eq (m : ℕ → UInt8) (dst src n : ℕ) :
    Ulib.memmove m dst src n = writeBytes m dst (readBytes m src n) := by
  unfold Ulib.memmove
  rw [Int.toNat_natCast]
  split_ifs with h
  · exact copyUp_eq n (.inl h.le)
  · exact copyDown_eq n (.inl (Nat.le_of_not_lt h))

theorem memmove_overlap_safe (m : ℕ → UInt8) (dst src n x : ℕ) :
    memmove m dst src n x = (if dst ≤ x ∧ x < dst + n then m (src + (x - dst)) else m x) ∧
      Ulib.memmove m dst src n x = (if dst ≤ x ∧ x < dst + n then m (src + (x - dst)) else m x) := by
  rw [memmove_eq, Ulib.memmove_eq]
  exact ⟨writeBytes_readBytes_apply dst src n x, writeBytes_readBytes_apply dst src n x⟩

/-- Two bytes moved up by one over themselves. -/
example : memmove (fun x => if x = 0 then 7 else if x = 1 then 9 else 0) 1 0 2 2 = 9 := by decide

end Xv6
