import Xv6.Spec.Param
import Xv6.Lib.DList

/-! `bio.c`: the buffer cache. The `NBUF` buffers hang on a doubly linked list through
`bcache.head`, most recently used first; in the links `none` stands for `&bcache.head`.
Each call holds `bcache.lock` throughout its changes to the cache, so a call is one step;
the sleep lock of a buffer and its data are left out, and so are `bwrite` and the disk
read in `bread`, which change neither the list nor the counts.

Beside the code's fields the cache carries ghost state for what the claims about it count:
the holders between a `bget` and its `brelse`, the `bpin` calls not yet undone, whether
`bget` has given a buffer a block, and the times (a clock that each `brelse` advances) at
which a buffer was last put at the front of the list and last released. -/

namespace Xv6

open DList

instance : NeZero NBUF := ⟨by decide⟩

/-- `struct buf` without its sleep lock, `disk` flag, links and data. -/
structure Buf where
  valid : Bool
  dev : ℕ
  blockno : ℕ
  refcnt : ℕ
  deriving DecidableEq, Repr

structure Bcache where
  buf : Fin NBUF → Buf
  links : Links (Fin NBUF)
  holds : Fin NBUF → ℕ
  pins : Fin NBUF → ℕ
  assigned : Fin NBUF → Bool
  moved : Fin NBUF → ℕ
  released : Fin NBUF → Option ℕ
  clock : ℕ

namespace Bcache

def setBuf (c : Bcache) (b : Fin NBUF) (x : Buf) : Bcache := { c with buf := Function.update c.buf b x }

end Bcache

/-- `binit()`: `head.prev = head.next = &head`, then each buffer in turn is put after
`head`. The buffers' own links are written before anything reads them, and the zeroed
`bcache` gives every buffer `dev = blockno = refcnt = valid = 0`. -/
def binit : Bcache where
  buf := fun _ => { valid := false, dev := 0, blockno := 0, refcnt := 0 }
  links := (List.finRange NBUF).foldl (fun lk b => lk.insertAfter none b) ⟨fun _ => none, fun _ => none⟩
  holds := fun _ => 0
  pins := fun _ => 0
  assigned := fun _ => false
  moved := fun b => b.val
  released := fun _ => none
  clock := NBUF

/-- `bget(dev, blockno)`: the scan from `head.next` for the block, and when that fails the
scan from `head.prev` for a buffer with `refcnt == 0`, which is given the block. Both loops
stop at `head`, which a list of the `NBUF` buffers reaches within `NBUF` steps. The caller
becomes a holder. -/
def bget (c : Bcache) (dev blockno : ℕ) : Except String (Bcache × Fin NBUF) :=
  match c.links.findNext (fun b => (c.buf b).dev == dev && (c.buf b).blockno == blockno) NBUF
      (c.links.next none) with
  | some b =>
    return ({ c.setBuf b { c.buf b with refcnt := (c.buf b).refcnt + 1 } with
              holds := Function.update c.holds b (c.holds b + 1) }, b)
  | none =>
    match c.links.flip.findNext (fun b => (c.buf b).refcnt == 0) NBUF (c.links.prev none) with
    | some b =>
      return ({ c.setBuf b { dev := dev, blockno := blockno, valid := false, refcnt := 1 } with
                holds := Function.update c.holds b (c.holds b + 1),
                assigned := Function.update c.assigned b true }, b)
    | none => throw "bget: no buffers"

/-- `bread(dev, blockno)`: `bget`, then the disk read that makes the buffer valid. -/
def bread (c : Bcache) (dev blockno : ℕ) : Except String (Bcache × Fin NBUF) := do
  let (c, b) ← bget c dev blockno
  if !(c.buf b).valid then return (c.setBuf b { c.buf b with valid := true }, b)
  else return (c, b)

/-- `brelse(b)` by a holder: `refcnt--`, and a buffer that no one else uses moves to the
front of the list. -/
def brelse (c : Bcache) (b : Fin NBUF) : Bcache :=
  let refcnt := (c.buf b).refcnt - 1
  let c' := { c.setBuf b { c.buf b with refcnt := refcnt } with
              holds := Function.update c.holds b (c.holds b - 1),
              released := Function.update c.released b (some c.clock),
              clock := c.clock + 1 }
  if refcnt = 0 then
    { c' with links := (c'.links.unlink b).insertAfter none b,
              moved := Function.update c.moved b c.clock }
  else c'

def bpin (c : Bcache) (b : Fin NBUF) : Bcache :=
  { c.setBuf b { c.buf b with refcnt := (c.buf b).refcnt + 1 } with
    pins := Function.update c.pins b (c.pins b + 1) }

def bunpin (c : Bcache) (b : Fin NBUF) : Bcache :=
  { c.setBuf b { c.buf b with refcnt := (c.buf b).refcnt - 1 } with
    pins := Function.update c.pins b (c.pins b - 1) }

inductive BioEvent
  | bread (dev blockno : ℕ)
  | brelse (b : Fin NBUF)
  | bpin (b : Fin NBUF)
  | bunpin (b : Fin NBUF)
  deriving DecidableEq, Repr

/-- A call from the log or the file system: `brelse` by a holder of the buffer (any other
caller panics in `holdingsleep`), `bunpin` of a pinned buffer. -/
def bioStep (c : Bcache) : BioEvent → Option (Except String Bcache)
  | .bread dev blockno => some ((bread c dev blockno).map Prod.fst)
  | .brelse b => if 0 < c.holds b then some (.ok (brelse c b)) else none
  | .bpin b => some (.ok (bpin c b))
  | .bunpin b => if 0 < c.pins b then some (.ok (bunpin c b)) else none

def bioNext (c : Bcache) (e : BioEvent) : Option Bcache :=
  match bioStep c e with
  | some (.ok c') => some c'
  | _ => none

end Xv6
