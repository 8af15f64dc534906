import Xv6.Spec.Vm
import Xv6.Lib.Run

/-! `pipe.c`: one pipe, shared by processes that call `pipewrite` and `piperead` on it, and
closed end by end by `pipeclose` when the last file of that end is closed.

A call holds `pi->lock` from its start to its return and gives it up only inside `sleep`,
while `kill` may set `p->killed` at any time. A step here is one iteration of a call's
loop, so that every interleaving of the calls at their sleeps is a run (and so are some
that the lock rules out). An iteration that would `sleep` is not enabled until the
condition it sleeps on has changed; each such change is followed by a `wakeup` of that
channel in the code. The `kfree` of a pipe whose two ends are closed is left out: no call
can reach the pipe after it.

Beside the pipe the system records every byte a `pipewrite` put into it and, in the order
the reads returned, the bytes that each `piperead` copied out. -/

namespace Xv6

def PIPESIZE : ℕ := 512

/-- `struct pipe` without its lock. -/
structure Pipe where
  data : Fin PIPESIZE → UInt8
  nread : UInt32
  nwrite : UInt32
  readopen : Bool
  writeopen : Bool

/-- The index `n % PIPESIZE` into `data`. -/
def Pipe.slot (n : UInt32) : Fin PIPESIZE := ⟨n.toNat % PIPESIZE, Nat.mod_lt _ (by decide)⟩

/-- `pi->data[pi->nwrite++ % PIPESIZE] = ch`. -/
def Pipe.put (pi : Pipe) (ch : UInt8) : Pipe :=
  { pi with data := Function.update pi.data (Pipe.slot pi.nwrite) ch, nwrite := pi.nwrite + 1 }

/-- The pipe that `pipealloc` sets up in a page that held `data`. -/
def pipealloc (data : Fin PIPESIZE → UInt8) : Pipe :=
  { data := data, nread := 0, nwrite := 0, readopen := true, writeopen := true }

inductive PipeCall
  /-- In the loop of `pipewrite(pi, addr, n)`, with `i` bytes written. -/
  | write (addr : ℕ) (n : ℤ) (i : ℕ)
  /-- In the loop of `piperead(pi, addr, n)` that waits for data. -/
  | readWait (addr : ℕ) (n : ℤ)
  /-- In the copy loop of `piperead`, with the bytes `got` copied out, so `i = got.length`. -/
  | readCopy (addr : ℕ) (n : ℤ) (got : List UInt8)
  deriving DecidableEq, Repr

structure PipeProc where
  pagetable : ℕ
  killed : ℤ
  call : Option PipeCall
  /-- What its last call returned. -/
  ret : ℤ

structure PipeSys where
  pipe : Pipe
  phys : Phys
  procs : Fin NPROC → PipeProc
  /-- Every byte a `pipewrite` put into the pipe, in order. -/
  written : List UInt8
  /-- The bytes each `piperead` copied out, in the order the reads returned. -/
  delivered : List UInt8

inductive PipeEvent
  | write (p : Fin NPROC) (addr : ℕ) (n : ℤ)
  | read (p : Fin NPROC) (addr : ℕ) (n : ℤ)
  | step (p : Fin NPROC)
  | close (writable : Bool)
  | kill (p : Fin NPROC)
  deriving DecidableEq, Repr

namespace PipeSys

variable (s : PipeSys) (p : Fin NPROC)

def setCall (c : Option PipeCall) : PipeSys :=
  { s with procs := Function.update s.procs p { s.procs p with call := c } }

/-- `release(&pi->lock); return r;`. -/
def finish (r : ℤ) : PipeSys :=
  { s with procs := Function.update s.procs p { s.procs p with call := none, ret := r } }

/-- `piperead` returns the number of bytes `got` that it copied out. -/
def readDone (got : List UInt8) : PipeSys :=
  { s.finish p got.length with delivered := s.delivered ++ got }

end PipeSys

/-- One iteration of `pipewrite`'s loop with `i` bytes written, or its return; `none` while
it sleeps on `nwrite` because the pipe is full. -/
def pipewriteStep (s : PipeSys) (p : Fin NPROC) (addr : ℕ) (n : ℤ) (i : ℕ) :
    Option (Except String PipeSys) :=
  let pi := s.pipe
  if (i : ℤ) < n then
    if pi.readopen = false ∨ (s.procs p).killed ≠ 0 then some (.ok (s.finish p (-1)))
    else if pi.nwrite = pi.nread + UInt32.ofNat PIPESIZE then none
    else some do
      let (r, bs) ← copyin s.phys (s.procs p).pagetable (addr + i) 1
      if r = -1 then return s.finish p i
      else
        let ch := bs.getD 0 0
        return { s with pipe := pi.put ch, written := s.written ++ [ch] }.setCall p (some (.write addr n (i + 1)))
  else some (.ok (s.finish p i))

/-- One iteration of `piperead`'s first loop: `-1` for a killed caller, sleep on `nread`
while the pipe is empty and its write end open, and on to the copy loop otherwise. -/
def pipereadWait (s : PipeSys) (p : Fin NPROC) (addr : ℕ) (n : ℤ) : Option (Except String PipeSys) :=
  if s.pipe.nread = s.pipe.nwrite ∧ s.pipe.writeopen = true then
    if (s.procs p).killed ≠ 0 then some (.ok (s.finish p (-1))) else none
  else some (.ok (s.setCall p (some (.readCopy addr n []))))

/-- One iteration of `piperead`'s copy loop after the bytes `got`: the next byte is taken
out of the pipe (`nread++`) and then copied out; the loop ends once `n` bytes are out,
the pipe is empty, or a copy fails. -/
def pipereadCopy (s : PipeSys) (p : Fin NPROC) (addr : ℕ) (n : ℤ) (got : List UInt8) :
    Except String PipeSys :=
  if (got.length : ℤ) < n ∧ s.pipe.nread ≠ s.pipe.nwrite then do
    let ch := s.pipe.data (Pipe.slot s.pipe.nread)
    let s := { s with pipe := { s.pipe with nread := s.pipe.nread + 1 } }
    let (r, m) ← copyout s.phys (s.procs p).pagetable (addr + got.length) [ch]
    let s := { s with phys := m }
    if r = -1 then return s.readDone p got
    else return s.setCall p (some (.readCopy addr n (got ++ [ch])))
  else return s.readDone p got

/-- `pipeclose(pi, writable)`, for an end that is open. -/
def pipeclose (s : PipeSys) (writable : Bool) : Option PipeSys :=
  if writable then
    if s.pipe.writeopen then some { s with pipe := { s.pipe with writeopen := false } } else none
  else if s.pipe.readopen then some { s with pipe := { s.pipe with readopen := false } } else none

/-- A call starts from a process that is in none, through a file of an end that is open. -/
def pipeStep (s : PipeSys) : PipeEvent → Option (Except String PipeSys)
  | .write p addr n =>
    if (s.procs p).call = none ∧ s.pipe.writeopen = true then
      some (.ok (s.setCall p (some (.write addr n 0))))
    else none
  | .read p addr n =>
    if (s.procs p).call = none ∧ s.pipe.readopen = true then
      some (.ok (s.setCall p (some (.readWait addr n))))
    else none
  | .step p =>
    match (s.procs p).call with
    | none => none
    | some (.write addr n i) => pipewriteStep s p addr n i
    | some (.readWait addr n) => pipereadWait s p addr n
    | some (.readCopy addr n got) => some (pipereadCopy s p addr n got)
  | .close writable => (pipeclose s writable).map .ok
  | .kill p => some (.ok { s with procs := Function.update s.procs p { s.procs p with killed := 1 } })

/-- The steps that are enabled and do not panic. -/
def pipeNext (s : PipeSys) (e : PipeEvent) : Option PipeSys :=
  match pipeStep s e with
  | some (.ok s') => some s'
  | _ => none

/-- A fresh pipe in a page that held `data`, between processes with page tables and
memory `phys`, none of them in a call yet. -/
def pipeInit (data : Fin PIPESIZE → UInt8) (phys : Phys) (pagetable : Fin NPROC → ℕ) : PipeSys where
  pipe := pipealloc data
  phys := phys
  procs := fun p => { pagetable := pagetable p, killed := 0, call := none, ret := 0 }
  written := []
  delivered := []

end Xv6
