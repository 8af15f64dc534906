import Xv6.Spec.Str

/-! The functions of the user library `ulib.c` that `grep` calls: `strchr` and `memmove`,
and the reading of a string from memory up to its NUL. `strchr` and `cstring` are given how
many bytes they may look at, which their callers bound by a NUL they stored. -/

namespace Xv6

namespace Ulib

/-- `strchr(s, c)`, looking at no more than `fuel` bytes from `s`: the address of the first
`c` before a NUL. -/
def strchr (mem : ℕ → UInt8) (c : UInt8) : ℕ → ℕ → Option ℕ
  | 0, _ => none
  | fuel + 1, s => if mem s = 0 then none else if mem s = c then some s else strchr mem c fuel (s + 1)

/-- The string at `s` as a function that takes a `char *` reads it: the bytes before its
NUL, looking at no more than `fuel` bytes. -/
def cstring (mem : ℕ → UInt8) : ℕ → ℕ → List UInt8
  | 0, _ => []
  | fuel + 1, s => if mem s = 0 then [] else mem s :: cstring mem fuel (s + 1)

/-- `memmove(vdst, vsrc, n)` with its `int` count: upwards when `src > dst`, else
downwards from `dst + n`, `src + n`. -/
def memmove (m : ℕ → UInt8) (dst src : ℕ) (n : ℤ) : ℕ → UInt8 :=
  if src > dst then copyUp m dst src n.toNat
  else copyDown m (dst + n.toNat) (src + n.toNat) n.toNat

end Ulib

end Xv6
