import Mathlib
import Xv6.Spec.Printf

/-! What `vprintf` writes for a number. The abstract side is `numeral b n`, `n` in base `b`
by `Nat.digits`, with the digits `0`-`9` and `A`-`F`. `printint` writes the numeral of the
`uint` it converts its `int` to, with a sign for `%d`, `INT_MIN` included: its negation wraps
in `int` and converts to `2^31` all the same. `printptr` writes sixteen digits. `%l` passes
its `uint64` through `printint`'s `int` parameter, so it prints the value mod `2^32`. -/

namespace Xv6

namespace Printf

/-- The digit `d < 16` in ASCII: `0`-`9`, then `A`-`F`. -/
def digitChar (d : ℕ) : UInt8 := if d < 10 then UInt8.ofNat (48 + d) else UInt8.ofNat (55 + d)

/-- `n` in base `b`, most significant digit first; `0` for zero. -/
def numeral (b n : ℕ) : List UInt8 :=
  if n = 0 then [digitChar 0] else ((Nat.digits b n).map digitChar).reverse

/-- `v` in decimal, after a `-` when it is negative. -/
def signedDecimal (v : ℤ) : List UInt8 :=
  if v < 0 then '-'.toUInt8 :: numeral 10 v.natAbs else numeral 10 v.toNat

/-- The sixteen hexadecimal digits of a 64-bit `x`, most significant first. -/
def hex16 (x : ℕ) : List UInt8 := (List.range 16).map fun i => digitChar (x / 16 ^ (15 - i) % 16)

/-- The 64-bit slot an `int` argument is passed in, sign-extended. -/
def intSlot (v : Int32) : ℕ := (v.toInt % 2 ^ 64).toNat

/-- The bytes of a format string. -/
def fmtBytes (s : String) : List UInt8 := s.toList.map Char.toUInt8

theorem getD_digits : ∀ d < 16, digits.getD d 0 = digitChar d := by decide

/-! ## `printint` -/

theorem printintLoop_eq {base : ℕ} (hb : 2 ≤ base ∧ base ≤ 16) :
    ∀ fuel x, x < fuel →
      printintLoop base fuel x = if x = 0 then [digitChar 0] else (Nat.digits base x).map digitChar
  | 0, _, h => absurd h (Nat.not_lt_zero _)
  | fuel + 1, x, h => by
    have hd : x % base < 16 := lt_of_lt_of_le (Nat.mod_lt _ (by omega)) hb.2
    rw [printintLoop, getD_digits _ hd]
    by_cases hx : x = 0
    · subst hx
      simp
    rw [if_neg hx, Nat.digits_def' (by omega) (Nat.pos_of_ne_zero hx), List.map_cons]
    by_cases hq : x / base = 0
    · rw [if_neg (not_not.mpr hq), hq, Nat.digits_zero, List.map_nil]
    · -- the quotient is smaller, so the rounds left are enough for it
      have hlt : x / base < fuel := by
        have := Nat.div_lt_self (Nat.pos_of_ne_zero hx) (show 1 < base by omega)
        omega
      rw [if_pos hq, printintLoop_eq hb fuel (x / base) hlt, if_neg hq]

theorem reverse_printintLoop {base : ℕ} (hb : 2 ≤ base ∧ base ≤ 16) (x : ℕ) :
    (printintLoop base (x + 1) x).reverse = numeral base x := by
  rw [printintLoop_eq hb _ _ (Nat.lt_succ_self x), numeral]
  split_ifs <;> simp

theorem printint_unsigned (xx : ℤ) {base : ℕ} (hb : 2 ≤ base ∧ base ≤ 16) :
    printint xx base false = numeral base (xx % 2 ^ 32).toNat := by
  simp only [printint, Bool.false_and, Bool.false_eq_true, if_false, List.append_nil]
  exact reverse_printintLoop hb _

/-- `-xx` overflows `int` for `INT_MIN` alone, and converts to the `uint` `2^31` all the
same. -/
theorem toNat_neg_int32 {xx : ℤ} (h : -2 ^ 31 ≤ xx ∧ xx < 0) :
    (int32 (-xx) % 2 ^ 32).toNat = xx.natAbs := by
  unfold int32 wrap
  omega

theorem printint_signed (xx : ℤ) (h : -2 ^ 31 ≤ xx ∧ xx < 2 ^ 31) :
    printint xx 10 true = signedDecimal xx := by
  unfold printint signedDecimal
  by_cases hn : xx < 0
  · simp only [Bool.true_and, decide_eq_true hn, if_true, List.reverse_append, List.reverse_singleton,
      List.singleton_append]
    rw [toNat_neg_int32 ⟨h.1, hn⟩, reverse_printintLoop (by norm_num), if_pos hn]
  · have hx : (xx % 2 ^ 32).toNat = xx.toNat := by omega
    simp only [Bool.true_and, decide_eq_false hn, Bool.false_eq_true, if_false, List.append_nil]
    rw [hx, reverse_printintLoop (by norm_num), if_neg hn]

/-! ## `printptr` -/

theorem printptrLoop_eq : ∀ (k y : ℕ), y < 2 ^ 64 →
    printptrLoop k y = (List.range k).map fun i => digits.getD (y * 16 ^ i % 2 ^ 64 / 2 ^ 60) 0
  | 0, _, _ => rfl
  | k + 1, y, hy => by
    rw [printptrLoop, printptrLoop_eq k _ (Nat.mod_lt _ (by norm_num)), List.range_succ_eq_map,
      List.map_cons, List.map_map, pow_zero, Nat.mul_one, Nat.mod_eq_of_lt hy]
    congr 1
    apply List.map_congr_left
    intro i _
    simp only [Function.comp_apply]
    rw [Nat.mod_mul_mod, Nat.mul_assoc, ← pow_succ']

theorem shift_digit {x i : ℕ} (hx : x < 2 ^ 64) (hi : i < 16) :
    x * 16 ^ i % 2 ^ 64 / 2 ^ 60 = x / 16 ^ (15 - i) % 16 := by
  interval_cases i <;> omega

theorem printptr_eq {x : ℕ} (hx : x < 2 ^ 64) : printptr x = fmtBytes "0x" ++ hex16 x := by
  rw [printptr, printptrLoop_eq 16 x hx, hex16]
  show _ = ['0'.toUInt8, 'x'.toUInt8] ++ _
  simp only [List.cons_append, List.nil_append, List.cons.injEq, true_and]
  apply List.map_congr_left
  intro i hi
  have hi' := List.mem_range.mp hi
  rw [shift_digit hx hi', getD_digits _ (Nat.mod_lt _ (by norm_num))]

/-! ## `vprintf` -/

theorem vprintf_percent (str : ℕ → List UInt8) (c : UInt8) (fmt : List UInt8) (ap : List ℕ) :
    vprintf str ('%'.toUInt8 :: c :: fmt) ap =
      (conversion str c ap).1 ++ vprintf str fmt (conversion str c ap).2 := by
  simp [vprintf, vprintfLoop]

theorem int32_intSlot (v : Int32) : int32 (intSlot v : ℤ) = v.toInt := by
  have h₁ := Int32.le_toInt v
  have h₂ := Int32.toInt_lt v
  unfold int32 wrap intSlot
  omega

theorem vprintf_numbers (str : ℕ → List UInt8) (v : Int32) (u : UInt64) :
    vprintf str (fmtBytes "%d") [intSlot v] = signedDecimal v.toInt ∧
      vprintf str (fmtBytes "%x") [intSlot v] = numeral 16 (v.toInt % 2 ^ 32).toNat ∧
      vprintf str (fmtBytes "%l") [u.toNat] = numeral 10 (u.toNat % 2 ^ 32) ∧
      vprintf str (fmtBytes "%p") [u.toNat] = fmtBytes "0x" ++ hex16 u.toNat := by
  have hv : -2 ^ 31 ≤ v.toInt ∧ v.toInt < 2 ^ 31 := ⟨Int32.le_toInt v, Int32.toInt_lt v⟩
  have hu := UInt64.toNat_lt u
  refine ⟨?_, ?_, ?_, ?_⟩
  · rw [show fmtBytes "%d" = ['%'.toUInt8, 'd'.toUInt8] by decide, vprintf_percent]
    simp [conversion, vaArg, vprintf, vprintfLoop, int32_intSlot, printint_signed _ hv]
  · rw [show fmtBytes "%x" = ['%'.toUInt8, 'x'.toUInt8] by decide, vprintf_percent]
    simp +decide [conversion, vaArg, vprintf, vprintfLoop, int32_intSlot,
      printint_unsigned _ (by norm_num : 2 ≤ 16 ∧ 16 ≤ 16)]
  · rw [show fmtBytes "%l" = ['%'.toUInt8, 'l'.toUInt8] by decide, vprintf_percent]
    simp +decide [conversion, vaArg, vprintf, vprintfLoop,
      printint_unsigned _ (by norm_num : 2 ≤ 10 ∧ 10 ≤ 16)]
    -- the `uint64` keeps its low 32 bits on its way into `printint`
    refine congrArg (numeral 10) ?_
    unfold int32 wrap
    omega
  · rw [show fmtBytes "%p" = ['%'.toUInt8, 'p'.toUInt8] by decide, vprintf_percent]
    simp +decide [conversion, vaArg, vprintf, vprintfLoop, printptr_eq hu]

/-- `%l` of `2^32` prints `0`, where the decimal of `2^32` has ten digits. -/
theorem vprintf_l_wraps :
    vprintf (fun _ => []) (fmtBytes "%l") [(2 ^ 32 : UInt64).toNat] = fmtBytes "0" ∧
      numeral 10 (2 ^ 32 : UInt64).toNat = fmtBytes "4294967296" := by
  refine ⟨(vprintf_numbers (fun _ => []) 0 (2 ^ 32)).2.2.1.trans ?_, ?_⟩
  · decide
  · norm_num [numeral]
    decide

end Printf

end Xv6
