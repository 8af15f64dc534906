import Xv6.Spec.Param

/-! `printf.c` of the user library: `printint`, `printptr` and `vprintf`, as the bytes they
write to the descriptor, one `putc` a byte. A variadic argument is the 64-bit slot it is
passed in: `va_arg(ap, int)` reads the slot's low 32 bits as signed, `va_arg(ap, uint64)`
all of it. A `%s` argument is a pointer, and `str` gives the bytes before the NUL of the
string at each address. -/

namespace Xv6

namespace Printf

/-- `digits[] = "0123456789ABCDEF"`. -/
def digits : List UInt8 := "0123456789ABCDEF".toList.map Char.toUInt8

/-- The `do`-`while` loop of `printint`: `buf[i++] = digits[x % base]` while
`(x /= base) != 0`, the digits least significant first; `fuel` bounds the rounds. -/
def printintLoop (base : ℕ) : ℕ → ℕ → List UInt8
  | 0, _ => []
  | fuel + 1, x =>
    digits.getD (x % base) 0 :: if x / base ≠ 0 then printintLoop base fuel (x / base) else []

/-- `printint(fd, xx, base, sgn)` for an `int` `xx`: `x` is the `uint` that `xx` converts to,
or that `-xx`, computed in `int`, converts to for a negative `xx` printed signed. Each round
divides `x`, so `x + 1` rounds are enough; `buf` is printed backwards. -/
def printint (xx : ℤ) (base : ℕ) (sgn : Bool) : List UInt8 :=
  let neg := sgn && decide (xx < 0)
  let x := if neg then (int32 (-xx) % 2 ^ 32).toNat else (xx % 2 ^ 32).toNat
  (printintLoop base (x + 1) x ++ if neg then ['-'.toUInt8] else []).reverse

/-- The loop of `printptr`: `digits[x >> 60]`, then `x <<= 4` in `uint64`. -/
def printptrLoop : ℕ → ℕ → List UInt8
  | 0, _ => []
  | i + 1, x => digits.getD (x / 2 ^ 60) 0 :: printptrLoop i (x * 16 % 2 ^ 64)

/-- `printptr(fd, x)`: `0x` and `sizeof(uint64) * 2` digits. -/
def printptr (x : ℕ) : List UInt8 := '0'.toUInt8 :: 'x'.toUInt8 :: printptrLoop 16 x

/-- `va_arg(ap, T)`: the next slot, `0` when the caller passed too few. -/
def vaArg (ap : List ℕ) : ℕ × List ℕ := (ap.headD 0, ap.tail)

/-- What `vprintf` writes for the character `c` after a `%`, and the arguments left. `%l`
hands its `uint64` to `printint`'s `int` parameter, which keeps the low 32 bits. -/
def conversion (str : ℕ → List UInt8) (c : UInt8) (ap : List ℕ) : List UInt8 × List ℕ :=
  let (a, rest) := vaArg ap
  if c = 'd'.toUInt8 then (printint (int32 a) 10 true, rest)
  else if c = 'l'.toUInt8 then (printint (int32 a) 10 false, rest)
  else if c = 'x'.toUInt8 then (printint (int32 a) 16 false, rest)
  else if c = 'p'.toUInt8 then (printptr a, rest)
  else if c = 's'.toUInt8 then (if a = 0 then "(null)".toList.map Char.toUInt8 else str a, rest)
  else if c = 'c'.toUInt8 then ([UInt8.ofNat a], rest)
  else if c = '%'.toUInt8 then ([c], ap)
  else (['%'.toUInt8, c], ap)

/-- The loop of `vprintf` over the bytes of `fmt` before its NUL; `pct` is
`state == '%'`. -/
def vprintfLoop (str : ℕ → List UInt8) : Bool → List UInt8 → List ℕ → List UInt8
  | _, [], _ => []
  | false, c :: fmt, ap =>
    if c = '%'.toUInt8 then vprintfLoop str true fmt ap else c :: vprintfLoop str false fmt ap
  | true, c :: fmt, ap =>
    (conversion str c ap).1 ++ vprintfLoop str false fmt (conversion str c ap).2

/-- `vprintf(fd, fmt, ap)`: the bytes written to `fd`. -/
def vprintf (str : ℕ → List UInt8) (fmt : List UInt8) (ap : List ℕ) : List UInt8 :=
  vprintfLoop str false fmt ap

end Printf

end Xv6
