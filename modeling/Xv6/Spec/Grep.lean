import Xv6.Spec.Ulib
import Xv6.Lib.ByteMem

/-! `grep.c`: the regular-expression matcher, Kernighan and Pike's `match`, `matchhere`
and `matchstar`, and `grep`'s loop over the input. A C string is the list of its bytes before the NUL. The two `do`-`while`
loops try the empty match first and then step over one byte of the text; `matchhere` and
`matchstar` call each other, the pattern shrinking at each `matchhere` and the text at each
turn of `matchstar`'s loop, which is their measure. -/

namespace Xv6

def DOT : UInt8 := '.'.toUInt8
def STAR : UInt8 := '*'.toUInt8
def CARET : UInt8 := '^'.toUInt8
def DOLLAR : UInt8 := '$'.toUInt8

mutual

/-- `matchhere(re, text)`: search for `re` at the beginning of `text`. -/
def matchhere (re text : List UInt8) : Bool :=
  match re with
  | [] => true
  | c :: re =>
    if re.head? = some STAR then matchstar c re.tail text
    else if c = DOLLAR ∧ re = [] then text.isEmpty
    else
      match text with
      | t :: text => if c = DOT ∨ c = t then matchhere re text else false
      | [] => false
termination_by (re.length, 0, text.length)
decreasing_by
  · exact Prod.Lex.left _ _ (by simp)
  · exact Prod.Lex.left _ _ (by simp)

/-- `matchstar(c, re, text)`: search for `c*re` at the beginning of `text`. -/
def matchstar (c : UInt8) (re text : List UInt8) : Bool :=
  matchhere re text ||
    match text with
    | t :: text => (t = c ∨ c = DOT) && matchstar c re text
    | [] => false
termination_by (re.length, 1, text.length)
decreasing_by
  · exact Prod.Lex.right _ (Prod.Lex.left _ _ (by decide))
  · exact Prod.Lex.right _ (Prod.Lex.right _ (by simp))

end

/-- The loop of `match` over the suffixes of `text`, the empty one last. -/
def matchLoop (re : List UInt8) : List UInt8 → Bool
  | [] => matchhere re []
  | t :: text => matchhere re (t :: text) || matchLoop re text

/-- `match(re, text)`: `re` anchored by a leading `^`, else at any position of `text`. -/
def match_ (re text : List UInt8) : Bool :=
  if re.head? = some CARET then matchhere re.tail text else matchLoop re text

/-! ## The loop of `grep`

`char buf[1024]` is memory at addresses `0` to `1023`. `read` is given the input not yet
read, and the `t`-th call returns `min (chunk t) k` bytes for a request of `k`, or fewer at
the end of the input, so that every way of cutting the input into chunks is some `chunk`. -/

def NEWLINE : UInt8 := 10

/-- `sizeof(buf)`. -/
def BUFSIZE : ℕ := 1024

open ByteMem in
structure GrepState where
  buf : ℕ → UInt8
  m : ℕ
  /-- What `read` has not returned yet. -/
  input : List UInt8
  /-- The number of `read` calls so far. -/
  reads : ℕ
  /-- What was written to descriptor 1. -/
  out : List UInt8

open ByteMem in
/-- The inner loop from `p`: each line up to a newline is matched with its newline replaced
by a NUL, and written with the newline put back when it matches. `strchr` and `match` look
no further than the end of `buf`; each round passes a newline, so `fuel` rounds of
`BUFSIZE` are enough. -/
def grepLines (re : List UInt8) : ℕ → (ℕ → UInt8) → ℕ → List UInt8 → (ℕ → UInt8) × ℕ × List UInt8
  | 0, buf, p, out => (buf, p, out)
  | fuel + 1, buf, p, out =>
    match Ulib.strchr buf NEWLINE (BUFSIZE - p) p with
    | none => (buf, p, out)
    | some q =>
      let buf := Function.update buf q 0
      if match_ re (Ulib.cstring buf (BUFSIZE - p) p) then
        let buf := Function.update buf q NEWLINE
        grepLines re fuel buf (q + 1) (out ++ readBytes buf p (q + 1 - p))
      else grepLines re fuel buf (q + 1) out

open ByteMem in
/-- One round of the outer loop after `read` returned `n > 0` bytes at `buf + m`. -/
def grepRound (re : List UInt8) (s : GrepState) (n : ℕ) : GrepState :=
  let m := s.m + n
  let buf := Function.update (writeBytes s.buf s.m (s.input.take n)) m 0
  let (buf, p, out) := grepLines re BUFSIZE buf 0 s.out
  let s := { s with input := s.input.drop n, reads := s.reads + 1, out := out }
  if m > 0 then { s with buf := Ulib.memmove buf 0 p ((m - p : ℕ) : ℤ), m := m - p }
  else { s with buf := buf, m := m }

/-- The outer loop, while `read(fd, buf+m, sizeof(buf)-m-1)` returns more than 0. Each
round takes at least one byte, so one round more than the input has bytes is enough. -/
def grepLoop (re : List UInt8) (chunk : ℕ → ℕ) : ℕ → GrepState → GrepState
  | 0, s => s
  | fuel + 1, s =>
    let n := min (chunk s.reads) (min (BUFSIZE - s.m - 1) s.input.length)
    if n > 0 then grepLoop re chunk fuel (grepRound re s n) else { s with reads := s.reads + 1 }

/-- `grep(pattern, fd)` on `input`, with `buf` as an earlier call left it. -/
def grep (re : List UInt8) (chunk : ℕ → ℕ) (buf : ℕ → UInt8) (input : List UInt8) : GrepState :=
  grepLoop re chunk (input.length + 1) ⟨buf, 0, input, 0, []⟩

end Xv6
