import Xv6.Spec.Path

/-! File-system calls as steps of a system of processes sharing one file system, one file
table and one log: `sys_chdir`, whose path walk is one step per element so that other
processes can run between them, `sys_close` with `fileclose`, and the calls that name
inodes, `sys_open`, `sys_mkdir`, `sys_unlink` and `sys_link`, each one step from its
`begin_op` to its `end_op`. A path is the kernel's copy of the argument string.

Each process records `txn`, the blocks it has passed to `log_write` since its last
`begin_op`; an event's writes are added to the process that made it. `begin_op` that would
sleep leaves its event not enabled; a panic is an error. -/

namespace Xv6

def NOFILE : ℕ := 16
def NFILE : ℕ := 100
def NDEV : ℕ := 10

def O_RDONLY : ℕ := 0x000
def O_RDWR : ℕ := 0x002
def O_CREATE : ℕ := 0x200
def O_TRUNC : ℕ := 0x400

instance : NeZero NOFILE := ⟨by decide⟩
instance : NeZero NFILE := ⟨by decide⟩

inductive FdType
  | none
  | pipe
  | inode
  | device
  deriving DecidableEq, Repr

/-- `struct file` without what the modelled calls do not read (`readable`, `writable`,
`pipe`, `off`, `major`). -/
structure File where
  type : FdType
  ref : ℕ
  ip : Fin NINODE
  deriving DecidableEq, Repr

/-- The file-system part of a `struct proc`, and where its `sys_chdir` stands: `walking`
holds the inode and the rest of the path while `namex`'s loop runs. -/
structure FsProc where
  cwd : Option (Fin NINODE)
  ofile : Fin NOFILE → Option (Fin NFILE)
  walking : Option (Fin NINODE × List UInt8)
  txn : List ℕ

structure FsSys where
  fs : Fs
  ftable : Fin NFILE → File
  procs : Fin NPROC → FsProc

inductive FsEvent
  | chdir (p : Fin NPROC) (path : List UInt8)
  | walk (p : Fin NPROC)
  | close (p : Fin NPROC) (fd : ℕ)
  | open (p : Fin NPROC) (path : List UInt8) (omode : ℕ)
  | mkdir (p : Fin NPROC) (path : List UInt8)
  | unlink (p : Fin NPROC) (path : List UInt8)
  | link (p : Fin NPROC) (old new : List UInt8)
  deriving DecidableEq, Repr

/-- `end_op()`: the last outstanding operation commits, which empties the header. -/
def Fs.endOp (s : Fs) : Except String Fs := do
  let (l, c) ← s.log.endOp
  return { s with log := if c then l.committed else l }

namespace FsSys

variable (s : FsSys) (p : Fin NPROC)

def setProc (q : FsProc) : FsSys := { s with procs := Function.update s.procs p q }

/-- `begin_op()` by `p`: `none` while it has to sleep; `p`'s transaction starts empty. -/
def beginOp : Option FsSys :=
  s.fs.log.beginOp.map fun l => { s.setProc p { s.procs p with txn := [] } with fs := { s.fs with log := l } }

/-- The file system after `p`'s part of an event: what it wrote to the log joins `p`'s
transaction. -/
def record (fs : Fs) : FsSys :=
  { s.setProc p { s.procs p with txn := (s.procs p).txn ++ fs.logged } with fs := { fs with logged := [] } }

end FsSys

/-- `sys_chdir` from its `begin_op` to the start of `namex`. -/
def chdirBegin (s : FsSys) (p : Fin NPROC) (path : List UInt8) : Option (Except String FsSys) :=
  match (s.procs p).walking, (s.procs p).cwd with
  | none, some cwd => (s.beginOp p).map fun s => do
    let (ip, fs) ← namexStart s.fs cwd path
    let s := s.record p fs
    return s.setProc p { s.procs p with walking := some (ip, path) }
  | _, _ => none

/-- The rest of `sys_chdir` once `namei` has returned `ip`. -/
def chdirEnd (s : FsSys) (p : Fin NPROC) (fs : Fs) (ip : Option (Fin NINODE)) : Except String FsSys := do
  let stop (fs : Fs) : Except String FsSys := do
    let fs ← fs.endOp
    let s := s.record p fs
    return s.setProc p { s.procs p with walking := none }
  match ip with
  | none => stop fs
  | some ip =>
    let fs ← ilock fs ip
    if (fs.itable ip).dinode.type ≠ T_DIR then do
      let fs ← iunlockput fs ip
      stop fs
    else do
      let fs ← iunlock fs ip
      let fs ← (match (s.procs p).cwd with
        | some cwd => iput fs cwd
        | none => pure fs)
      let fs ← fs.endOp
      let s := s.record p fs
      return s.setProc p { s.procs p with walking := none, cwd := some ip }

/-- One iteration of the loop of `namex` inside `p`'s `sys_chdir`, or, when the loop ends,
the rest of the call. -/
def chdirWalk (s : FsSys) (p : Fin NPROC) : Option (Except String FsSys) :=
  match (s.procs p).walking with
  | none => none
  | some (ip, path) => some do
    let (w, fs) ← namexStep s.fs ip path false
    match w with
    | .next ip path =>
      let s := s.record p fs
      return s.setProc p { s.procs p with walking := some (ip, path) }
    | .done ip _ => chdirEnd s p fs ip

/-- `fileclose(f)` by `p`: the last reference to an inode file puts the inode in a
transaction of its own. A pipe's `pipeclose` is not modelled. -/
def fileclose (s : FsSys) (p : Fin NPROC) (f : Fin NFILE) : Option (Except String FsSys) :=
  let fl := s.ftable f
  if fl.ref < 1 then some (.error "fileclose")
  else if 0 < fl.ref - 1 then some (.ok { s with ftable := Function.update s.ftable f { fl with ref := fl.ref - 1 } })
  else
    let s := { s with ftable := Function.update s.ftable f { fl with ref := 0, type := .none } }
    if fl.type = .inode ∨ fl.type = .device then
      (s.beginOp p).map fun s => do
        let fs ← iput s.fs fl.ip
        let fs ← fs.endOp
        return s.record p fs
    else some (.ok s)

/-- `sys_close(fd)` by `p`; a descriptor that is not open returns `-1` and changes nothing. -/
def sysClose (s : FsSys) (p : Fin NPROC) (fd : ℕ) : Option (Except String FsSys) :=
  if h : fd < NOFILE then
    match (s.procs p).ofile ⟨fd, h⟩ with
    | none => some (.ok s)
    | some f =>
      fileclose (s.setProc p { s.procs p with ofile := Function.update (s.procs p).ofile ⟨fd, h⟩ none }) p f
  else some (.ok s)

/-! ## Calls that name inodes -/

/-- `ip->nlink += k; iupdate(ip)`; `nlink` is a `short`. -/
def Fs.addNlink (s : Fs) (ip : Fin NINODE) (k : ℤ) : Except String Fs :=
  iupdate (s.setInode ip { s.itable ip with
    dinode := { (s.itable ip).dinode with nlink := wrap 16 ((s.itable ip).dinode.nlink + k) } }) ip

/-- `create(path, type, major, minor)` by a process whose working directory is `cwd`: the
inode, locked and referenced, or `none`. -/
def create (s : Fs) (cwd : Fin NINODE) (path : List UInt8) (type major minor : ℤ) :
    Except String (Option (Fin NINODE) × Fs) := do
  let (dp, name, s) ← nameiparent s cwd path
  match dp with
  | none => return (none, s)
  | some dp =>
    let name := fun j => name.getD j 0
    let s ← ilock s dp
    let (found, s) ← dirlookup s dp name
    match found with
    | some (ip, _) => do
      let s ← iunlockput s dp
      let s ← ilock s ip
      let t := (s.itable ip).dinode.type
      if type = T_FILE ∧ (t = T_FILE ∨ t = T_DEVICE) then return (some ip, s)
      else do
        let s ← iunlockput s ip
        return (none, s)
    | none => do
      let (ip, s) ← ialloc s type
      match ip with
      | none => do
        let s ← iunlockput s dp
        return (none, s)
      | some ip => do
        let s ← ilock s ip
        let s ← iupdate (s.setInode ip { s.itable ip with
          dinode := { (s.itable ip).dinode with major := major, minor := minor, nlink := 1 } }) ip
        -- a new directory's `.` and `..` first, then its entry in the parent
        let (ok, s) ← (if type = T_DIR then do
            let (ok, s) ← dirlink s ip dotName (s.itable ip).inum
            if ok then dirlink s ip dotdotName (s.itable dp).inum else pure (false, s)
          else pure (true, s))
        let (ok, s) ← (if ok then dirlink s dp name (s.itable ip).inum else pure (false, s))
        if ok then do
          let s ← (if type = T_DIR then s.addNlink dp 1 else pure s)
          let s ← iunlockput s dp
          return (some ip, s)
        else do
          let s ← iupdate (s.setInode ip { s.itable ip with
            dinode := { (s.itable ip).dinode with nlink := 0 } }) ip
          let s ← iunlockput s ip
          let s ← iunlockput s dp
          return (none, s)

/-- `isdirempty(dp)`: no live entry after `.` and `..`. -/
def isdirempty (s : Fs) (dp : Fin NINODE) : Except String (Bool × Fs) := do
  let (found, _, s) ← direntScan dp (fun de => direntInum de != 0) "isdirempty: readi"
    ((s.itable dp).dinode.size / DIRENTSZ + 1) s (2 * DIRENTSZ)
  return (!found, s)

/-- The body of `sys_unlink(path)`: `0`, or `-1`. -/
def unlinkFs (s : Fs) (cwd : Fin NINODE) (path : List UInt8) : Except String (ℤ × Fs) := do
  let (dp, name, s) ← nameiparent s cwd path
  match dp with
  | none => return (-1, s)
  | some dp =>
    let name := fun j => name.getD j 0
    let bad (s : Fs) : Except String (ℤ × Fs) := do
      let s ← iunlockput s dp
      return (-1, s)
    let s ← ilock s dp
    if namecmp name dotName = 0 ∨ namecmp name dotdotName = 0 then bad s
    else do
      let (found, s) ← dirlookup s dp name
      match found with
      | none => bad s
      | some (ip, off) => do
        let s ← ilock s ip
        if (s.itable ip).dinode.nlink < 1 then throw "unlink: nlink < 1"
        let (empty, s) ← (if (s.itable ip).dinode.type = T_DIR then isdirempty s ip else pure (true, s))
        if !empty then do
          let s ← iunlockput s ip
          bad s
        else do
          let (r, s) ← writei s dp (List.replicate DIRENTSZ 0) off
          if r ≠ DIRENTSZ then throw "unlink: writei"
          let s ← (if (s.itable ip).dinode.type = T_DIR then s.addNlink dp (-1) else pure s)
          let s ← iunlockput s dp
          let s ← s.addNlink ip (-1)
          let s ← iunlockput s ip
          return (0, s)

/-- The body of `sys_link(old, new)`: `0`, or `-1`. -/
def linkFs (s : Fs) (cwd : Fin NINODE) (old new : List UInt8) : Except String (ℤ × Fs) := do
  let (ip, s) ← namei s cwd old
  match ip with
  | none => return (-1, s)
  | some ip => do
    let s ← ilock s ip
    if (s.itable ip).dinode.type = T_DIR then do
      let s ← iunlockput s ip
      return (-1, s)
    else do
      let s ← s.addNlink ip 1
      let s ← iunlock s ip
      -- the link count is taken back on the way out of a failure
      let bad (s : Fs) : Except String (ℤ × Fs) := do
        let s ← ilock s ip
        let s ← s.addNlink ip (-1)
        let s ← iunlockput s ip
        return (-1, s)
      let (dp, name, s) ← nameiparent s cwd new
      match dp with
      | none => bad s
      | some dp => do
        let s ← ilock s dp
        let (ok, s) ← dirlink s dp (fun j => name.getD j 0) (s.itable ip).inum
        if ok then do
          let s ← iunlockput s dp
          let s ← iput s ip
          return (0, s)
        else do
          let s ← iunlockput s dp
          bad s

/-- The body of `sys_open(path, omode)` by `p`. A file that `filealloc` found but `fdalloc`
could not place is closed again: its reference goes and its type becomes `FD_NONE`. -/
def openSys (s : FsSys) (p : Fin NPROC) (cwd : Fin NINODE) (path : List UInt8) (omode : ℕ) :
    Except String FsSys := do
  let (ip, fs) ← (if omode &&& O_CREATE ≠ 0 then create s.fs cwd path T_FILE 0 0
    else do
      let (ip, fs) ← namei s.fs cwd path
      match ip with
      | none => pure (none, fs)
      | some ip => do
        let fs ← ilock fs ip
        if (fs.itable ip).dinode.type = T_DIR ∧ omode ≠ O_RDONLY then do
          let fs ← iunlockput fs ip
          pure (none, fs)
        else pure (some ip, fs))
  match ip with
  | none => return { s with fs := fs }
  | some ip =>
    let d := (fs.itable ip).dinode
    if d.type = T_DEVICE ∧ (d.major < 0 ∨ NDEV ≤ d.major) then do
      let fs ← iunlockput fs ip
      return { s with fs := fs }
    else
      match (List.finRange NFILE).find? (fun f => (s.ftable f).ref == 0) with
      | none => do
        let fs ← iunlockput fs ip
        return { s with fs := fs }
      | some f =>
        match (List.finRange NOFILE).find? (fun fd => (s.procs p).ofile fd == none) with
        | none => do
          let fs ← iunlockput fs ip
          return { s with fs := fs, ftable := Function.update s.ftable f { s.ftable f with type := .none } }
        | some fd => do
          let fs ← (if omode &&& O_TRUNC ≠ 0 ∧ d.type = T_FILE then itrunc fs ip else pure fs)
          let fs ← iunlock fs ip
          let file : File := { type := if d.type = T_DEVICE then .device else .inode, ref := 1, ip := ip }
          let s := { s with fs := fs, ftable := Function.update s.ftable f file }
          return s.setProc p { s.procs p with ofile := Function.update (s.procs p).ofile fd (some f) }

/-- A call of `p` that is one operation: `begin_op`, `body` with `p`'s working directory,
`end_op`, with the body's log writes added to `p`'s transaction. -/
def fsCall (s : FsSys) (p : Fin NPROC) (body : FsSys → Fin NINODE → Except String FsSys) :
    Option (Except String FsSys) :=
  match (s.procs p).walking, (s.procs p).cwd with
  | none, some cwd => (s.beginOp p).map fun s => do
    let s ← body s cwd
    let fs ← s.fs.endOp
    return s.record p fs
  | _, _ => none

def sysOpen (s : FsSys) (p : Fin NPROC) (path : List UInt8) (omode : ℕ) : Option (Except String FsSys) :=
  fsCall s p fun s cwd => openSys s p cwd path omode

def sysMkdir (s : FsSys) (p : Fin NPROC) (path : List UInt8) : Option (Except String FsSys) :=
  fsCall s p fun s cwd => do
    let (ip, fs) ← create s.fs cwd path T_DIR 0 0
    let fs ← (match ip with
      | some ip => iunlockput fs ip
      | none => pure fs)
    return { s with fs := fs }

def sysUnlink (s : FsSys) (p : Fin NPROC) (path : List UInt8) : Option (Except String FsSys) :=
  fsCall s p fun s cwd => do
    let (_, fs) ← unlinkFs s.fs cwd path
    return { s with fs := fs }

def sysLink (s : FsSys) (p : Fin NPROC) (old new : List UInt8) : Option (Except String FsSys) :=
  fsCall s p fun s cwd => do
    let (_, fs) ← linkFs s.fs cwd old new
    return { s with fs := fs }

def fsStep (s : FsSys) : FsEvent → Option (Except String FsSys)
  | .chdir p path => chdirBegin s p path
  | .walk p => chdirWalk s p
  | .close p fd => sysClose s p fd
  | .open p path omode => sysOpen s p path omode
  | .mkdir p path => sysMkdir s p path
  | .unlink p path => sysUnlink s p path
  | .link p old new => sysLink s p old new

/-- The steps that are enabled and do not panic. -/
def fsNext (s : FsSys) (e : FsEvent) : Option FsSys :=
  match fsStep s e with
  | some (.ok s') => some s'
  | _ => none

end Xv6
