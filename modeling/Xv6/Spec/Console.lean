import Xv6.Spec.Param
import Xv6.Lib.RingBuf
import Xv6.Lib.Counter

/-! Console input of `console.c`: the ring `cons` of typed characters that `consoleintr`
edits and commits, and the `consoleread` calls that take committed characters out of it.

Each call holds `cons.lock` from its start to its return and gives it up only inside
`sleep`, which it enters while nothing is committed. A step here is one iteration of its
loop, so every interleaving of interrupts with the calls at their sleeps is a run. One
process reads, one call after another; `kill` may set its `killed` flag at any time. The
`either_copyout` of each byte comes in with the step. Beside the ring the system records
what each finished call gave its caller. The echo through `consputc` and `procdump` only
print, and are left out. -/

namespace Xv6

def INPUT_BUF_SIZE : ℕ := 128

instance : NeZero INPUT_BUF_SIZE := ⟨by decide⟩

/-- `C(x)`: control-`x`. -/
def C (x : Char) : UInt8 := x.toUInt8 - '@'.toUInt8

/-- `cons` without its lock. -/
structure Cons where
  buf : Fin INPUT_BUF_SIZE → UInt8
  /-- Read index. -/
  r : UInt32
  /-- Write index. -/
  w : UInt32
  /-- Edit index. -/
  e : UInt32

/-- `cons.buf[i % INPUT_BUF_SIZE]`. -/
def Cons.slot (i : UInt32) : Fin INPUT_BUF_SIZE := RingBuf.cell INPUT_BUF_SIZE i

/-- The loop of `C('U')`: back over the edited characters to `w` or to a newline. Each round
moves `e` back by one, so `e - w` rounds are enough. -/
def killLine : ℕ → Cons → Cons
  | 0, s => s
  | fuel + 1, s =>
    if s.e ≠ s.w ∧ s.buf (Cons.slot (s.e - 1)) ≠ '\n'.toUInt8 then killLine fuel { s with e := s.e - 1 }
    else s

/-- `consoleintr(c)` for a byte `c` from the UART. -/
def consoleintr (s : Cons) (c : UInt8) : Cons :=
  if c = C 'P' then s
  else if c = C 'U' then killLine (s.e - s.w).toNat s
  else if c = C 'H' ∨ c = 0x7f then (if s.e ≠ s.w then { s with e := s.e - 1 } else s)
  else if c ≠ 0 ∧ (s.e - s.r).toNat < INPUT_BUF_SIZE then
    let c := if c = '\r'.toUInt8 then '\n'.toUInt8 else c
    let s := { s with buf := Function.update s.buf (Cons.slot s.e) c, e := s.e + 1 }
    -- a whole line, an end of file or a full buffer is committed
    if c = '\n'.toUInt8 ∨ c = C 'D' ∨ (s.e - s.r).toNat = INPUT_BUF_SIZE then { s with w := s.e } else s
  else s

/-- A `consoleread(user_dst, dst, n)` under way: `target` is `n` as a `uint`, `n` the count
still to copy, and `got` the bytes copied to `dst` so far. -/
structure ConsRead where
  target : ℕ
  n : ℤ
  got : List UInt8
  deriving DecidableEq, Repr

structure ConsSys where
  cons : Cons
  /-- `killed(myproc())` of the reading process. -/
  killed : Bool
  call : Option ConsRead
  /-- What each finished call gave its caller, in order: the bytes copied when it returned
  their number, `none` when it returned `-1`. -/
  out : List (Option (List UInt8))

inductive ConsEvent
  | intr (c : UInt8)
  | read (n : ℤ)
  /-- One iteration of the call's loop; `copyout` is whether `either_copyout` succeeds. -/
  | step (copyout : Bool)
  | kill
  deriving DecidableEq, Repr

/-- `release(&cons.lock); return ...;`. -/
def ConsSys.finish (s : ConsSys) (r : Option (List UInt8)) : ConsSys :=
  { s with call := none, out := s.out ++ [r] }

/-- One iteration of `consoleread`'s loop, or its return; `none` while it sleeps on
`cons.r`. The byte is taken out (`cons.r++`) before it is looked at and copied. -/
def consoleread (s : ConsSys) (c : ConsRead) (copyout : Bool) : Option ConsSys :=
  if 0 < c.n then
    if s.cons.r = s.cons.w then
      if s.killed then some (s.finish none) else none
    else
      let ch := s.cons.buf (Cons.slot s.cons.r)
      let cs := { s.cons with r := s.cons.r + 1 }
      if ch = C 'D' then
        -- a `^D` after copied bytes is put back for the next call
        let cs := if c.n.toNat < c.target then { cs with r := cs.r - 1 } else cs
        some ({ s with cons := cs }.finish (some c.got))
      else if !copyout then some ({ s with cons := cs }.finish (some c.got))
      else
        let c := { c with n := c.n - 1, got := c.got ++ [ch] }
        if ch = '\n'.toUInt8 then some ({ s with cons := cs }.finish (some c.got))
        else some { s with cons := cs, call := some c }
  else some (s.finish (some c.got))

def consStep (s : ConsSys) : ConsEvent → Option ConsSys
  | .intr c => some { s with cons := consoleintr s.cons c }
  | .read n =>
    -- `argint` gives the `int` `n`; `target = n` makes it a `uint`
    if s.call = none then some { s with call := some { target := (int32 n % 2 ^ 32).toNat, n := int32 n, got := [] } }
    else none
  | .step copyout =>
    match s.call with
    | none => none
    | some c => consoleread s c copyout
  | .kill => some { s with killed := true }

/-- `cons` as the zeroed BSS leaves it, and a reader that has made no call. -/
def consBoot : ConsSys where
  cons := { buf := fun _ => 0, r := 0, w := 0, e := 0 }
  killed := false
  call := none
  out := []

end Xv6
