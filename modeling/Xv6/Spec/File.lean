import Xv6.Spec.Sysfile
import Xv6.Spec.Proc

/-! The descriptor layer: the file table of `file.c` (`filealloc`, `filedup`, `fileclose`),
`fdalloc`, `sys_dup`, `sys_close`, the descriptor half of `sys_open`, `sys_pipe` with
`pipealloc` and `pipeclose`, and the descriptor loops of `fork` and `exit`; each call is
one step of a system of processes.

What other layers decide comes in with the event: the inode that `sys_open`'s `create` or
`namei` returned, locked, and whether it is a device (`none` when that part failed); the
page `kalloc` gave `pipealloc` (`none` when memory is out), which holds no allocated pipe;
whether the `copyout` of the two descriptors succeeded; whether `fork`'s `allocproc` and
`uvmcopy` got their memory. `fileclose`'s `iput` of an inode is the inode layer's, and
`exec` keeps the descriptors. A pipe is the page it is on; closing an end of a pipe whose
page was freed is an error here, as `fileclose`'s and `filedup`'s panics are. `wait`'s
`freeproc` of a zombie child is a step of its own, the parent left out. -/

namespace Xv6

def O_WRONLY : ℕ := 0x001

/-- `struct file` without `off` and `major`. -/
structure OpenFile where
  type : FdType
  ref : ℕ
  readable : Bool
  writable : Bool
  pipe : ℕ
  ip : Fin NINODE
  deriving DecidableEq, Repr

/-- `readopen` and `writeopen` of a `struct pipe`. -/
structure PipeEnds where
  readopen : Bool
  writeopen : Bool
  deriving DecidableEq, Repr

structure FdProc where
  state : Procstate
  ofile : Fin NOFILE → Option (Fin NFILE)

/-- A process makes calls between its `allocproc` and its `exit`. -/
def FdProc.live (q : FdProc) : Bool := q.state != .unused && q.state != .zombie

structure FdSys where
  ftable : Fin NFILE → OpenFile
  pipes : ℕ → Option PipeEnds
  procs : Fin NPROC → FdProc
  initproc : Fin NPROC

namespace FdSys

def setFile (s : FdSys) (f : Fin NFILE) (x : OpenFile) : FdSys :=
  { s with ftable := Function.update s.ftable f x }

def setOfile (s : FdSys) (p : Fin NPROC) (fd : Fin NOFILE) (x : Option (Fin NFILE)) : FdSys :=
  let q := { s.procs p with ofile := Function.update (s.procs p).ofile fd x }
  { s with procs := Function.update s.procs p q }

def setState (s : FdSys) (p : Fin NPROC) (st : Procstate) : FdSys :=
  { s with procs := Function.update s.procs p { s.procs p with state := st } }

/-- `filealloc()`: the first file with no reference gets one. -/
def filealloc (s : FdSys) : Option (Fin NFILE × FdSys) :=
  ((List.finRange NFILE).find? fun f => (s.ftable f).ref == 0).map fun f =>
    (f, s.setFile f { s.ftable f with ref := 1 })

def filedup (s : FdSys) (f : Fin NFILE) : Except String FdSys :=
  if (s.ftable f).ref < 1 then .error "filedup"
  else .ok (s.setFile f { s.ftable f with ref := (s.ftable f).ref + 1 })

/-- `pipeclose(pi, writable)`: one end closes, and with both closed `kfree` frees the page. -/
def pipeclose (s : FdSys) (pi : ℕ) (writable : Bool) : Except String FdSys :=
  match s.pipes pi with
  | none => .error "pipeclose: freed pipe"
  | some e =>
    let e : PipeEnds := if writable then { e with writeopen := false } else { e with readopen := false }
    let pe := if e.readopen = false ∧ e.writeopen = false then none else some e
    .ok { s with pipes := Function.update s.pipes pi pe }

def fileclose (s : FdSys) (f : Fin NFILE) : Except String FdSys :=
  let ff := s.ftable f
  if ff.ref < 1 then .error "fileclose"
  else if 0 < ff.ref - 1 then .ok (s.setFile f { ff with ref := ff.ref - 1 })
  else
    let s := s.setFile f { ff with ref := 0, type := .none }
    if ff.type = .pipe then s.pipeclose ff.pipe ff.writable else .ok s

/-- `fdalloc(f)` in `p`: the first free descriptor takes over the reference. -/
def fdalloc (s : FdSys) (p : Fin NPROC) (f : Fin NFILE) : Option (Fin NOFILE × FdSys) :=
  ((List.finRange NOFILE).find? fun fd => (s.procs p).ofile fd == none).map fun fd =>
    (fd, s.setOfile p fd (some f))

/-- `argfd`: a descriptor of `p` that is open. -/
def argfd (s : FdSys) (p : Fin NPROC) (fd : ℕ) : Option (Fin NOFILE × Fin NFILE) :=
  if h : fd < NOFILE then ((s.procs p).ofile ⟨fd, h⟩).map fun f => (⟨fd, h⟩, f) else none

def sysDup (s : FdSys) (p : Fin NPROC) (fd : ℕ) : Except String FdSys :=
  match s.argfd p fd with
  | none => .ok s
  | some (_, f) =>
    match s.fdalloc p f with
    | none => .ok s
    | some (_, s) => s.filedup f

def sysClose (s : FdSys) (p : Fin NPROC) (fd : ℕ) : Except String FdSys :=
  match s.argfd p fd with
  | none => .ok s
  | some (fd, f) => (s.setOfile p fd none).fileclose f

/-- The descriptor half of `sys_open(path, omode)` once the inode layer holds `ip` locked;
`dev` when its type is `T_DEVICE`. -/
def openFile (s : FdSys) (p : Fin NPROC) (ip : Fin NINODE) (dev : Bool) (omode : ℕ) :
    Except String FdSys :=
  match s.filealloc with
  | none => .ok s
  | some (f, s) =>
    match s.fdalloc p f with
    | none => s.fileclose f
    | some (_, s) => .ok (s.setFile f { s.ftable f with
        type := if dev then .device else .inode
        ip := ip
        readable := omode &&& O_WRONLY == 0
        writable := omode &&& O_WRONLY != 0 || omode &&& O_RDWR != 0 })

/-- `pipealloc(&f0, &f1)` with `kalloc` giving `pa`: the read end and the write end, or
`none` after its `bad:` path has closed the files it took. -/
def pipealloc (s : FdSys) (pa : Option ℕ) : Except String (Option (Fin NFILE × Fin NFILE) × FdSys) :=
  match s.filealloc with
  | none => .ok (none, s)
  | some (f0, s) =>
    match s.filealloc with
    | none => do
      let s ← s.fileclose f0
      return (none, s)
    | some (f1, s) =>
      match pa with
      | none => do
        let s ← s.fileclose f0
        let s ← s.fileclose f1
        return (none, s)
      | some pa =>
        let s := { s with pipes := Function.update s.pipes pa (some ⟨true, true⟩) }
        let s := s.setFile f0 { s.ftable f0 with type := .pipe, readable := true, writable := false, pipe := pa }
        let s := s.setFile f1 { s.ftable f1 with type := .pipe, readable := false, writable := true, pipe := pa }
        return (some (f0, f1), s)

/-- `sys_pipe(fdarray)` by `p`; `copyout` tells whether both descriptors reached user memory. -/
def sysPipe (s : FdSys) (p : Fin NPROC) (pa : Option ℕ) (copyout : Bool) : Except String FdSys := do
  let (r, s) ← s.pipealloc pa
  match r with
  | none => return s
  | some (rf, wf) =>
    let undo (s : FdSys) : Except String FdSys := do
      let s ← s.fileclose rf
      s.fileclose wf
    match s.fdalloc p rf with
    | none => undo s
    | some (fd0, s) =>
      match s.fdalloc p wf with
      | none => undo (s.setOfile p fd0 none)
      | some (fd1, s) => if copyout then return s else undo ((s.setOfile p fd0 none).setOfile p fd1 none)

/-- `allocproc()`'s slot: the first `UNUSED` one. -/
def allocproc (s : FdSys) : Option (Fin NPROC) :=
  (List.finRange NPROC).find? fun c => (s.procs c).state == .unused

/-- One round of `fork`'s loop: `np->ofile[i] = filedup(p->ofile[i])` when `p->ofile[i]` is
open. -/
def forkFile (p c : Fin NPROC) (s : FdSys) (i : Fin NOFILE) : Except String FdSys :=
  match (s.procs p).ofile i with
  | none => .ok s
  | some f => do
    let s ← s.filedup f
    return s.setOfile c i (some f)

/-- `fork()` by `p`: when `allocproc` or `uvmcopy` runs out of memory, `freeproc` gives the
slot back as it was. -/
def fork (s : FdSys) (p : Fin NPROC) (ok : Bool) : Except String FdSys :=
  match s.allocproc with
  | none => .ok s
  | some c =>
    if ok then do
      let s ← (List.finRange NOFILE).foldlM (forkFile p c) s
      return s.setState c .runnable
    else .ok s

/-- One round of `exit`'s loop: `fileclose(f); p->ofile[fd] = 0` when `p->ofile[fd]` is
open. -/
def exitFile (p : Fin NPROC) (s : FdSys) (fd : Fin NOFILE) : Except String FdSys :=
  match (s.procs p).ofile fd with
  | none => .ok s
  | some f => do
    let s ← s.fileclose f
    return s.setOfile p fd none

def exit (s : FdSys) (p : Fin NPROC) : Except String FdSys :=
  if p = s.initproc then .error "init exiting"
  else do
    let s ← (List.finRange NOFILE).foldlM (exitFile p) s
    return s.setState p .zombie

/-- `kalloc` gives a page that no allocated pipe is on. -/
def freePage (s : FdSys) : Option ℕ → Bool
  | none => true
  | some pa => (s.pipes pa).isNone

end FdSys

inductive FdEvent
  | open (p : Fin NPROC) (ip : Option (Fin NINODE × Bool)) (omode : ℕ)
  | dup (p : Fin NPROC) (fd : ℕ)
  | close (p : Fin NPROC) (fd : ℕ)
  | pipe (p : Fin NPROC) (pa : Option ℕ) (copyout : Bool)
  | fork (p : Fin NPROC) (ok : Bool)
  | exit (p : Fin NPROC)
  | free (c : Fin NPROC)
  deriving DecidableEq, Repr

/-- A call by `p`, enabled while `p` is live. -/
def FdSys.call (s : FdSys) (p : Fin NPROC) (r : Except String FdSys) : Option (Except String FdSys) :=
  if (s.procs p).live then some r else none

def fdStep (s : FdSys) : FdEvent → Option (Except String FdSys)
  | .open p ip omode => s.call p (match ip with
    | none => .ok s
    | some (ip, dev) => s.openFile p ip dev omode)
  | .dup p fd => s.call p (s.sysDup p fd)
  | .close p fd => s.call p (s.sysClose p fd)
  | .pipe p pa copyout => if s.freePage pa then s.call p (s.sysPipe p pa copyout) else none
  | .fork p ok => s.call p (s.fork p ok)
  | .exit p => s.call p (s.exit p)
  | .free c => if (s.procs c).state = .zombie then some (.ok (s.setState c .unused)) else none

/-- The steps that are enabled and do not fail. -/
def fdNext (s : FdSys) (e : FdEvent) : Option FdSys :=
  match fdStep s e with
  | some (.ok s') => some s'
  | _ => none

/-- After `userinit`: `initproc` in slot 0 with no descriptors open, every file free. -/
def fdBoot : FdSys where
  ftable := fun _ => { type := .none, ref := 0, readable := false, writable := false, pipe := 0, ip := 0 }
  pipes := fun _ => none
  procs := fun q => { state := if q = 0 then .runnable else .unused, ofile := fun _ => none }
  initproc := 0

end Xv6
