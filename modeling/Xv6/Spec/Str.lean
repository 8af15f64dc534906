import Xv6.Spec.Param

/-! `memmove`, `strncpy` and `strncmp` of `string.c`. A source string is the function from offsets to the bytes
stored at them, so reading past a terminator is defined as the C code reads it; the
function returns the bytes it stores at the destination, in order. -/

namespace Xv6

/-- `strncpy(s, t, n)`: copy bytes of `t` up to and including a NUL, at most `n`, then pad
the rest of the `n` bytes with NULs. -/
def strncpy (t : ℕ → UInt8) : ℕ → List UInt8
  | 0 => []
  | n + 1 => if t 0 = 0 then List.replicate (n + 1) 0 else t 0 :: strncpy (fun i => t (i + 1)) n

@[simp] theorem length_strncpy (t : ℕ → UInt8) (n : ℕ) : (strncpy t n).length = n := by
  induction n generalizing t with
  | zero => rfl
  | succ n ih => unfold strncpy; split <;> simp [ih]

/-- Byte `j` of what `strncpy` stores is the source byte while no NUL came before it,
and `0` from the first NUL on. -/
theorem getD_strncpy (t : ℕ → UInt8) (n j : ℕ) :
    (strncpy t n).getD j 0 = if j < n ∧ ∀ i ≤ j, t i ≠ 0 then t j else 0 := by
  induction n generalizing t j with
  | zero => simp [strncpy]
  | succ n ih =>
    unfold strncpy
    by_cases h0 : t 0 = 0
    · -- the first byte is the NUL: everything stored is padding
      have : ¬ (j < n + 1 ∧ ∀ i ≤ j, t i ≠ 0) := fun h => h.2 0 (Nat.zero_le j) h0
      rw [if_pos h0, if_neg this, List.getD_eq_getElem?_getD, List.getElem?_replicate]
      split <;> rfl
    · cases j with
      | zero => simp [h0]
      | succ j =>
        rw [if_neg h0, List.getD_cons_succ, ih]
        have hall : (∀ i ≤ j, t (i + 1) ≠ 0) ↔ ∀ i ≤ j + 1, t i ≠ 0 := by
          constructor
          · intro h i hi
            cases i with
            | zero => exact h0
            | succ i => exact h i (by omega)
          · intro h i hi
            exact h (i + 1) (by omega)
        simp only [hall, Nat.add_lt_add_iff_right]

/-- `strncmp(p, q, n)`: step over at most `n` equal bytes, stopping after a NUL in `p`; the
difference of the two bytes reached, as `uchar`s, or `0` when all `n` were equal. -/
def strncmp (p q : ℕ → UInt8) : ℕ → ℤ
  | 0 => 0
  | n + 1 =>
    if p 0 ≠ 0 ∧ p 0 = q 0 then strncmp (fun i => p (i + 1)) (fun i => q (i + 1)) n
    else (p 0).toNat - (q 0).toNat

/-! ## memmove

Memory is a function from addresses to bytes, and the two copy loops of `memmove` are
recursions on the count `n`; the user library's `memmove` has the same two loops. -/

/-- `while(n-- > 0) *d++ = *s++;` -/
def copyUp (m : ℕ → UInt8) (d s : ℕ) : ℕ → ℕ → UInt8
  | 0 => m
  | n + 1 => copyUp (Function.update m d (m s)) (d + 1) (s + 1) n

/-- `while(n-- > 0) *--d = *--s;`, with `d` and `s` one past the ends. -/
def copyDown (m : ℕ → UInt8) (d s : ℕ) : ℕ → ℕ → UInt8
  | 0 => m
  | n + 1 => copyDown (Function.update m (d - 1) (m (s - 1))) (d - 1) (s - 1) n

/-- `memmove(dst, src, n)`: downwards when `src` lies below `dst` and overlaps it. -/
def memmove (m : ℕ → UInt8) (dst src n : ℕ) : ℕ → UInt8 :=
  if n = 0 then m
  else if src < dst ∧ src + n > dst then copyDown m (dst + n) (src + n) n
  else copyUp m dst src n

end Xv6
