import Xv6.Spec.Fs

/-! Directories and path names of `fs.c`: `namecmp`, `dirlookup`, `skipelem` and `namex`.

A path is the kernel's copy of the string, the bytes before its NUL. `namex` is given as
its loop body `namexStep`, one path element per call, so that a system call that walks a
path can be interleaved with other processes between elements, and as the whole loop
`namex`. -/

namespace Xv6

open ByteMem

def namecmp (s t : ℕ → UInt8) : ℤ := strncmp s t DIRSIZ

/-- `de.inum` of the bytes of a `struct dirent`. -/
def direntInum (de : List UInt8) : ℕ := (de.getD 0 0).toNat + (de.getD 1 0).toNat * 256

/-- `de.name` of the bytes of a `struct dirent`. -/
def direntName (de : List UInt8) : ℕ → UInt8 := fun j => de.getD (2 + j) 0

/-- The bytes of the `struct dirent` that `dirlink` writes for `name` and `inum`:
`strncpy(de.name, name, DIRSIZ); de.inum = inum;`. -/
def direntBytes (inum : ℕ) (name : ℕ → UInt8) : List UInt8 := leBytes 2 inum ++ strncpy name DIRSIZ

/-- The loop of `dirlookup(dp, name, poff)` from offset `off`. -/
def dirlookupLoop (dp : Fin NINODE) (name : ℕ → UInt8) :
    ℕ → Fs → ℕ → Except String (Option (Fin NINODE × ℕ) × Fs)
  | 0, s, _ => .ok (none, s)
  | fuel + 1, s, off =>
    if (s.itable dp).dinode.size ≤ off then .ok (none, s)
    else do
      let (de, s) ← readi s dp off DIRENTSZ
      if de.length ≠ DIRENTSZ then throw "dirlookup read"
      else if direntInum de = 0 then dirlookupLoop dp name fuel s (off + DIRENTSZ)
      else if namecmp name (direntName de) = 0 then do
        let (ip, s) ← iget s (direntInum de)
        return (some (ip, off), s)
      else dirlookupLoop dp name fuel s (off + DIRENTSZ)

/-- `dirlookup(dp, name, poff)`: the entry named `name` and its offset. The loop reads one
entry per round while `off < dp->size`, so `size / DIRENTSZ + 1` rounds are enough. -/
def dirlookup (s : Fs) (dp : Fin NINODE) (name : ℕ → UInt8) :
    Except String (Option (Fin NINODE × ℕ) × Fs) :=
  if (s.itable dp).dinode.type ≠ T_DIR then .error "dirlookup not DIR"
  else dirlookupLoop dp name ((s.itable dp).dinode.size / DIRENTSZ + 1) s 0

/-- The names `"."` and `".."`. -/
def dotName : ℕ → UInt8 := fun j => [46].getD j 0
def dotdotName : ℕ → UInt8 := fun j => [46, 46].getD j 0

/-- The loop over the entries of `dp` from `off` on that `dirlink` and `isdirempty` run: it
reads one entry a round while `off < dp->size` and stops at the first for which `stop` holds
(`true` and its offset), or at the end (`false` and the offset reached). A short read panics
with `msg`. -/
def direntScan (dp : Fin NINODE) (stop : List UInt8 → Bool) (msg : String) :
    ℕ → Fs → ℕ → Except String (Bool × ℕ × Fs)
  | 0, s, off => .ok (false, off, s)
  | fuel + 1, s, off =>
    if (s.itable dp).dinode.size ≤ off then .ok (false, off, s)
    else do
      let (de, s) ← readi s dp off DIRENTSZ
      if de.length ≠ DIRENTSZ then throw msg
      else if stop de then .ok (true, off, s)
      else direntScan dp stop msg fuel s (off + DIRENTSZ)

/-- `dirlink(dp, name, inum)`: `false` (`-1`) when the name is present or the write falls
short, else the entry is written into the first empty slot or at the end. -/
def dirlink (s : Fs) (dp : Fin NINODE) (name : ℕ → UInt8) (inum : ℕ) : Except String (Bool × Fs) := do
  let (ip, s) ← dirlookup s dp name
  match ip with
  | some (ip, _) => do
    let s ← iput s ip
    return (false, s)
  | none => do
    let (_, off, s) ← direntScan dp (fun de => direntInum de == 0) "dirlink read"
      ((s.itable dp).dinode.size / DIRENTSZ + 1) s 0
    let (r, s) ← writei s dp (direntBytes inum name) off
    return (r == DIRENTSZ, s)

def SLASH : UInt8 := '/'.toUInt8

/-- `skipelem(path, name)`: the next element as it is copied into `name` (its first `DIRSIZ`
bytes, followed by a NUL when it is shorter) and the path after it and the slashes that
follow; `none` for a path of slashes only. -/
def skipelem (path : List UInt8) : Option (List UInt8 × List UInt8) :=
  match path.dropWhile (· == SLASH) with
  | [] => none
  | path =>
    let s := path.takeWhile (· != SLASH)
    let name := if DIRSIZ ≤ s.length then s.take DIRSIZ else s ++ [0]
    some (name, (path.dropWhile (· != SLASH)).dropWhile (· == SLASH))

/-- Where one iteration of `namex`'s loop leaves the walk: at the next inode, or returning
an inode (or `0`) with the last element copied into `name`. -/
inductive Walk
  | next (ip : Fin NINODE) (path : List UInt8)
  | done (ip : Option (Fin NINODE)) (name : List UInt8)
  deriving DecidableEq, Repr

/-- The start of `namex`: the root for an absolute path, else a new reference to `cwd`. -/
def namexStart (s : Fs) (cwd : Fin NINODE) (path : List UInt8) : Except String (Fin NINODE × Fs) :=
  if path.head? = some SLASH then iget s ROOTINO else .ok (cwd, idup s cwd)

/-- One iteration of `namex`'s loop at `ip`, and its exit when `skipelem` finds no element. -/
def namexStep (s : Fs) (ip : Fin NINODE) (path : List UInt8) (nameiparent : Bool) :
    Except String (Walk × Fs) :=
  match skipelem path with
  | none =>
    if nameiparent then do
      let s ← iput s ip
      return (.done none [], s)
    else return (.done (some ip) [], s)
  | some (name, path) => do
    let s ← ilock s ip
    if (s.itable ip).dinode.type ≠ T_DIR then do
      let s ← iunlockput s ip
      return (.done none name, s)
    else if nameiparent ∧ path = [] then do
      -- stop one level early
      let s ← iunlock s ip
      return (.done (some ip) name, s)
    else do
      let (next, s) ← dirlookup s ip (fun j => name.getD j 0)
      match next with
      | none => do
        let s ← iunlockput s ip
        return (.done none name, s)
      | some (next, _) => do
        let s ← iunlockput s ip
        return (.next next path, s)

/-- `namex`'s loop, for at most `fuel` iterations. -/
def namexLoop (nameiparent : Bool) : ℕ → Fs → Fin NINODE → List UInt8 →
    Except String (Option (Fin NINODE) × List UInt8 × Fs)
  | 0, s, _, _ => .ok (none, [], s)
  | fuel + 1, s, ip, path => do
    let (w, s) ← namexStep s ip path nameiparent
    match w with
    | .next ip path => namexLoop nameiparent fuel s ip path
    | .done ip name => return (ip, name, s)

/-- `namex(path, nameiparent, name)` by a process whose working directory is `cwd`: each
iteration consumes an element, so one more than the path's length is enough. -/
def namex (s : Fs) (cwd : Fin NINODE) (path : List UInt8) (nameiparent : Bool) :
    Except String (Option (Fin NINODE) × List UInt8 × Fs) := do
  let (ip, s) ← namexStart s cwd path
  namexLoop nameiparent (path.length + 1) s ip path

def namei (s : Fs) (cwd : Fin NINODE) (path : List UInt8) : Except String (Option (Fin NINODE) × Fs) := do
  let (ip, _, s) ← namex s cwd path false
  return (ip, s)

def nameiparent (s : Fs) (cwd : Fin NINODE) (path : List UInt8) :
    Except String (Option (Fin NINODE) × List UInt8 × Fs) :=
  namex s cwd path true

end Xv6
