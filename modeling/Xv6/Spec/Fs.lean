import Xv6.Spec.Log
import Xv6.Spec.Str
import Xv6.Lib.ByteMem
import Xv6.Lib.Except

/-! The block and inode layers of `fs.c`: the disk layout of `fs.h` as `mkfs` builds it,
the free-block bitmap (`balloc`, `bzero`, `bfree`), the in-memory inode table (`iget`,
`idup`, `ilock`, `iunlock`, `iput`), and an inode's content (`bmap`, `itrunc`, `readi`,
`iupdate`).

The disk is byte memory with block `b` at `b * BSIZE`. Inside a transaction every block a
call reads comes from the buffer cache, which holds what the transaction last wrote, so the
model reads and writes this one image. A `log_write(bp)` goes to the log of
`Xv6.Spec.Log`, and `logged` records it for the operation that made it. -/

namespace Xv6

open ByteMem

def ROOTINO : ℕ := 1
def NINODE : ℕ := 50

instance : NeZero NINODE := ⟨by decide⟩
def NDIRECT : ℕ := 12
def NINDIRECT : ℕ := BSIZE / 4
def MAXFILE : ℕ := NDIRECT + NINDIRECT
/-- `sizeof(struct dinode)`: four `short`s, `uint size` and `uint addrs[NDIRECT+1]`. -/
def DINODESZ : ℕ := 4 * 2 + 4 + (NDIRECT + 1) * 4
def IPB : ℕ := BSIZE / DINODESZ
def BPB : ℕ := BSIZE * 8
def DIRSIZ : ℕ := 14
/-- `sizeof(struct dirent)`: `ushort inum` and `char name[DIRSIZ]`. -/
def DIRENTSZ : ℕ := 2 + DIRSIZ

def T_DIR : ℤ := 1
def T_FILE : ℤ := 2
def T_DEVICE : ℤ := 3

/-- `struct superblock` without its magic number, which only `fsinit` checks. -/
structure Superblock where
  size : ℕ
  nblocks : ℕ
  ninodes : ℕ
  nlog : ℕ
  logstart : ℕ
  inodestart : ℕ
  bmapstart : ℕ
  deriving DecidableEq, Repr

/-- `NINODES` of `mkfs.c`. -/
def NINODES : ℕ := 200

/-- The superblock `mkfs` writes: boot block, superblock, `LOGSIZE` log blocks, the inode
blocks, the bitmap, then the data blocks. -/
def mkfsSb : Superblock :=
  let nbitmap := FSSIZE / (BSIZE * 8) + 1
  let ninodeblocks := NINODES / IPB + 1
  let nlog := LOGSIZE
  let nmeta := 2 + nlog + ninodeblocks + nbitmap
  { size := FSSIZE, nblocks := FSSIZE - nmeta, ninodes := NINODES, nlog := nlog, logstart := 2,
    inodestart := 2 + nlog, bmapstart := 2 + nlog + ninodeblocks }

def IBLOCK (i : ℕ) (sb : Superblock) : ℕ := i / IPB + sb.inodestart
def BBLOCK (b : ℕ) (sb : Superblock) : ℕ := b / BPB + sb.bmapstart

/-- Where inode `inum`'s `struct dinode` lies. -/
def dinodeAddr (sb : Superblock) (inum : ℕ) : ℕ := IBLOCK inum sb * BSIZE + inum % IPB * DINODESZ

/-- The bitmap byte holding block `b`'s bit: `bp->data[bi/8]` of block `BBLOCK(b)`. -/
def bitAddr (sb : Superblock) (b : ℕ) : ℕ := BBLOCK b sb * BSIZE + b % BPB / 8

/-! ## Inodes on disk -/

/-- `struct dinode`; the `short` fields are read as signed 16-bit values. -/
structure Dinode where
  type : ℤ
  major : ℤ
  minor : ℤ
  nlink : ℤ
  size : ℕ
  addrs : Vector ℕ (NDIRECT + 1)
  deriving DecidableEq, Repr

def readShort (m : ℕ → UInt8) (a : ℕ) : ℤ := wrap 16 (readWord m a 2)

def shortBytes (x : ℤ) : List UInt8 := leBytes 2 (x % 2 ^ 16).toNat

def readDinode (m : ℕ → UInt8) (a : ℕ) : Dinode where
  type := readShort m a
  major := readShort m (a + 2)
  minor := readShort m (a + 4)
  nlink := readShort m (a + 6)
  size := readWord m (a + 8) 4
  addrs := Vector.ofFn fun j => readWord m (a + 12 + 4 * j) 4

/-- The `DINODESZ` bytes of a `struct dinode`, in field order. -/
def Dinode.bytes (d : Dinode) : List UInt8 :=
  shortBytes d.type ++ shortBytes d.major ++ shortBytes d.minor ++ shortBytes d.nlink ++
    leBytes 4 d.size ++ d.addrs.toList.flatMap (leBytes 4)

/-- `addrs[k]`. -/
def Dinode.addr (d : Dinode) (k : ℕ) : ℕ := d.addrs.toList.getD k 0

/-- `addrs[k] = v`. -/
def Dinode.setAddr (d : Dinode) (k v : ℕ) : Dinode :=
  { d with addrs := if h : k < NDIRECT + 1 then d.addrs.set k v h else d.addrs }

/-- An entry of the inode table: `struct inode` without its device (there is one disk) and
its sleep-lock; `dinode` is the copy of the disk inode that `ilock` reads. -/
structure Inode where
  inum : ℕ
  ref : ℕ
  valid : Bool
  dinode : Dinode
  deriving DecidableEq, Repr

structure Fs where
  sb : Superblock
  disk : ℕ → UInt8
  itable : Fin NINODE → Inode
  log : Log
  logged : List ℕ

namespace Fs

variable (s : Fs)

def setInode (ip : Fin NINODE) (i : Inode) : Fs := { s with itable := Function.update s.itable ip i }

/-- `log_write(bp)` for block `b`. -/
def logWrite (b : ℕ) : Except String Fs := do
  let l ← s.log.logWrite b
  return { s with log := l, logged := s.logged ++ [b] }

end Fs

/-- `m = 1 << (bi % 8)` for `bi = b % BPB`. -/
def bitMask (b : ℕ) : UInt8 := 1 <<< (b % BPB % 8).toUInt8

/-! ## Blocks -/

def bzero (s : Fs) (bno : ℕ) : Except String Fs :=
  { s with disk := fill s.disk (bno * BSIZE) BSIZE 0 }.logWrite bno

/-- `balloc(dev)`: the first block whose bit is clear, marked in use and zeroed, or `0` when
every one of `sb.size` blocks is in use. The source's two loops visit the blocks `b + bi` in
increasing order, block `x` at byte `(x % BPB) / 8` of bitmap block `BBLOCK(x)`. -/
def balloc (s : Fs) : Except String (ℕ × Fs) :=
  match (List.range s.sb.size).find? (fun x => s.disk (bitAddr s.sb x) &&& bitMask x == 0) with
  | none => .ok (0, s)
  | some x => do
    let s ← { s with disk := writeBytes s.disk (bitAddr s.sb x) [s.disk (bitAddr s.sb x) ||| bitMask x] }.logWrite
      (BBLOCK x s.sb)
    let s ← bzero s x
    return (x, s)

def bfree (s : Fs) (b : ℕ) : Except String Fs :=
  if s.disk (bitAddr s.sb b) &&& bitMask b = 0 then .error "freeing free block"
  else { s with disk := writeBytes s.disk (bitAddr s.sb b) [s.disk (bitAddr s.sb b) &&& ~~~bitMask b] }.logWrite
    (BBLOCK b s.sb)

/-! ## The inode table -/

/-- `iupdate(ip)`: the inode's copy of its disk inode, written back. -/
def iupdate (s : Fs) (ip : Fin NINODE) : Except String Fs :=
  let i := s.itable ip
  { s with disk := writeBytes s.disk (dinodeAddr s.sb i.inum) i.dinode.bytes }.logWrite (IBLOCK i.inum s.sb)

/-- `iget(dev, inum)`: the entry that already holds `inum`, or else the first free one. -/
def iget (s : Fs) (inum : ℕ) : Except String (Fin NINODE × Fs) :=
  match (List.finRange NINODE).find? (fun ip => 0 < (s.itable ip).ref && (s.itable ip).inum == inum) with
  | some ip => .ok (ip, s.setInode ip { s.itable ip with ref := (s.itable ip).ref + 1 })
  | none =>
    match (List.finRange NINODE).find? (fun ip => (s.itable ip).ref == 0) with
    | none => .error "iget: no inodes"
    | some ip => .ok (ip, s.setInode ip { s.itable ip with inum := inum, ref := 1, valid := false })

def idup (s : Fs) (ip : Fin NINODE) : Fs := s.setInode ip { s.itable ip with ref := (s.itable ip).ref + 1 }

/-- `ilock(ip)`: read the disk inode the first time. -/
def ilock (s : Fs) (ip : Fin NINODE) : Except String Fs :=
  let i := s.itable ip
  if i.ref < 1 then .error "ilock"
  else if i.valid then .ok s
  else
    let d := readDinode s.disk (dinodeAddr s.sb i.inum)
    if d.type = 0 then .error "ilock: no type"
    else .ok (s.setInode ip { i with valid := true, dinode := d })

def iunlock (s : Fs) (ip : Fin NINODE) : Except String Fs :=
  if (s.itable ip).ref < 1 then .error "iunlock" else .ok s

/-- One iteration of `itrunc`'s loop over the direct blocks. -/
def itruncDirect (ip : Fin NINODE) (s : Fs) (k : ℕ) : Except String Fs :=
  let a := (s.itable ip).dinode.addr k
  if a = 0 then .ok s
  else do
    let s ← bfree s a
    return s.setInode ip { s.itable ip with dinode := (s.itable ip).dinode.setAddr k 0 }

/-- One iteration of `itrunc`'s loop over the entries `a[j]` of the indirect block `ind`. -/
def itruncIndirect (ind : ℕ) (s : Fs) (j : ℕ) : Except String Fs :=
  let a := readWord s.disk (ind * BSIZE + 4 * j) 4
  if a = 0 then .ok s else bfree s a

def itrunc (s : Fs) (ip : Fin NINODE) : Except String Fs := do
  let s ← (List.range NDIRECT).foldlM (itruncDirect ip) s
  let ind := (s.itable ip).dinode.addr NDIRECT
  let s ← (if ind ≠ 0 then do
      let s ← (List.range NINDIRECT).foldlM (itruncIndirect ind) s
      let s ← bfree s ind
      pure (s.setInode ip { s.itable ip with dinode := (s.itable ip).dinode.setAddr NDIRECT 0 })
    else pure s)
  iupdate (s.setInode ip { s.itable ip with dinode := { (s.itable ip).dinode with size := 0 } }) ip

/-- `iput(ip)`: the last reference to an inode with no links truncates and frees it. -/
def iput (s : Fs) (ip : Fin NINODE) : Except String Fs := do
  let i := s.itable ip
  let s ← (if i.ref = 1 ∧ i.valid ∧ i.dinode.nlink = 0 then do
      let s ← itrunc s ip
      let s ← iupdate (s.setInode ip { s.itable ip with dinode := { (s.itable ip).dinode with type := 0 } }) ip
      pure (s.setInode ip { s.itable ip with valid := false })
    else pure s)
  return s.setInode ip { s.itable ip with ref := (s.itable ip).ref - 1 }

def iunlockput (s : Fs) (ip : Fin NINODE) : Except String Fs := do
  let s ← iunlock s ip
  iput s ip

/-! ## Content -/

/-- `bmap(ip, bn)` for an indirect block number `bn` (already less `NDIRECT`). -/
def bmapIndirect (s : Fs) (ip : Fin NINODE) (bn : ℕ) : Except String (ℕ × Fs) := do
  -- load the indirect block, allocating it if necessary
  let (ind, s) ← (if (s.itable ip).dinode.addr NDIRECT ≠ 0 then pure ((s.itable ip).dinode.addr NDIRECT, s)
    else do
      let (a, s) ← balloc s
      pure (a, if a = 0 then s
        else s.setInode ip { s.itable ip with dinode := (s.itable ip).dinode.setAddr NDIRECT a }))
  if ind = 0 then return (0, s)
  else
    let addr := readWord s.disk (ind * BSIZE + 4 * bn) 4
    if addr ≠ 0 then return (addr, s)
    else do
      let (addr, s) ← balloc s
      if addr = 0 then return (0, s)
      else do
        let s ← { s with disk := writeWord s.disk (ind * BSIZE + 4 * bn) 4 addr }.logWrite ind
        return (addr, s)

/-- `bmap(ip, bn)`: the disk block holding block `bn` of the inode, allocated if it has none
yet; `0` when the disk is full. -/
def bmap (s : Fs) (ip : Fin NINODE) (bn : ℕ) : Except String (ℕ × Fs) :=
  if bn < NDIRECT then
    let addr := (s.itable ip).dinode.addr bn
    if addr ≠ 0 then .ok (addr, s)
    else do
      let (addr, s) ← balloc s
      if addr = 0 then return (0, s)
      else return (addr, s.setInode ip { s.itable ip with dinode := (s.itable ip).dinode.setAddr bn addr })
  else if bn - NDIRECT < NINDIRECT then bmapIndirect s ip (bn - NDIRECT)
  else .error "bmap: out of range"

/-- The loop of `readi`: `n` bytes still to read at `off`, `acc` those read so far. -/
def readiLoop (ip : Fin NINODE) : ℕ → Fs → ℕ → ℕ → List UInt8 → Except String (List UInt8 × Fs)
  | 0, s, _, _, acc => .ok (acc, s)
  | fuel + 1, s, off, n, acc =>
    if n = 0 then .ok (acc, s)
    else do
      let (addr, s) ← bmap s ip (off / BSIZE)
      if addr = 0 then return (acc, s)
      else
        let m := min n (BSIZE - off % BSIZE)
        readiLoop ip fuel s (off + m) (n - m) (acc ++ readBytes s.disk (addr * BSIZE + off % BSIZE) m)

/-- `readi(ip, 0, dst, off, n)` into kernel memory: the bytes it copies to `dst` (its result
is their number). Each round reads at least one byte, so `n` rounds are enough. -/
def readi (s : Fs) (ip : Fin NINODE) (off n : ℕ) : Except String (List UInt8 × Fs) :=
  let size := (s.itable ip).dinode.size
  if size < off ∨ (off + n) % 2 ^ 32 < off then .ok ([], s)
  else
    let n := if size < off + n then size - off else n
    readiLoop ip n s off n []

/-- The loop of `writei`: `src` still to write at `off`. Each round writes at least one
byte, so `src.length` rounds are enough; the result is where the writing stopped. -/
def writeiLoop (ip : Fin NINODE) : ℕ → Fs → ℕ → List UInt8 → Except String (ℕ × Fs)
  | 0, s, off, _ => .ok (off, s)
  | fuel + 1, s, off, src =>
    if src = [] then .ok (off, s)
    else do
      let (addr, s) ← bmap s ip (off / BSIZE)
      if addr = 0 then return (off, s)
      else
        let m := min src.length (BSIZE - off % BSIZE)
        let s ← { s with disk := writeBytes s.disk (addr * BSIZE + off % BSIZE) (src.take m) }.logWrite addr
        writeiLoop ip fuel s (off + m) (src.drop m)

/-- `writei(ip, 0, src, off, n)` from kernel memory: the number of bytes written, or `-1`
for a write that starts past the end or would pass `MAXFILE` blocks. -/
def writei (s : Fs) (ip : Fin NINODE) (src : List UInt8) (off : ℕ) : Except String (ℤ × Fs) :=
  if (s.itable ip).dinode.size < off ∨ (off + src.length) % 2 ^ 32 < off then .ok (-1, s)
  else if MAXFILE * BSIZE < off + src.length then .ok (-1, s)
  else do
    let (off', s) ← writeiLoop ip src.length s off src
    let s := if (s.itable ip).dinode.size < off' then
        s.setInode ip { s.itable ip with dinode := { (s.itable ip).dinode with size := off' } }
      else s
    let s ← iupdate s ip
    return ((off' - off : ℕ), s)

/-- The loop of `writei(ip, user_src, src, off, n)` with `either_copyin` as `copy`: `copy a m`
is its result and the bytes it has stored at the destination, those of the pages before a
fault included. The bytes go into the cached block before the result is looked at, and
`log_write` comes only after a copy that succeeded. -/
def writeiFromLoop (copy : ℕ → ℕ → Except String (ℤ × List UInt8)) (ip : Fin NINODE) :
    ℕ → Fs → ℕ → ℕ → ℕ → Except String (ℕ × Fs)
  | 0, s, off, _, _ => .ok (off, s)
  | fuel + 1, s, off, src, n =>
    if n = 0 then .ok (off, s)
    else do
      let (addr, s) ← bmap s ip (off / BSIZE)
      if addr = 0 then return (off, s)
      else
        let m := min n (BSIZE - off % BSIZE)
        let (r, bs) ← copy src m
        let s := { s with disk := writeBytes s.disk (addr * BSIZE + off % BSIZE) bs }
        if r = -1 then return (off, s)
        else do
          let s ← s.logWrite addr
          writeiFromLoop copy ip fuel s (off + m) (src + m) (n - m)

/-- `writei(ip, user_src, src, off, n)` with `either_copyin` as `copy`. -/
def writeiFrom (s : Fs) (copy : ℕ → ℕ → Except String (ℤ × List UInt8)) (ip : Fin NINODE) (src off n : ℕ) :
    Except String (ℤ × Fs) :=
  if (s.itable ip).dinode.size < off ∨ (off + n) % 2 ^ 32 < off then .ok (-1, s)
  else if MAXFILE * BSIZE < off + n then .ok (-1, s)
  else do
    let (off', s) ← writeiFromLoop copy ip n s off src n
    let s := if (s.itable ip).dinode.size < off' then
        s.setInode ip { s.itable ip with dinode := { (s.itable ip).dinode with size := off' } }
      else s
    let s ← iupdate s ip
    return ((off' - off : ℕ), s)

/-- `either_copyin` from kernel memory that holds `buf` from address `0` on: a `memmove`,
which cannot fail. -/
def kernelCopyin (buf : List UInt8) (src len : ℕ) : Except String (ℤ × List UInt8) :=
  .ok (0, (buf.drop src).take len)

theorem writeiLoop_eq_writeiFromLoop (ip : Fin NINODE) (buf : List UInt8) :
    ∀ (fuel : ℕ) (s : Fs) (off a : ℕ),
      writeiLoop ip fuel s off (buf.drop a) = writeiFromLoop (kernelCopyin buf) ip fuel s off a (buf.drop a).length
  | 0, _, _, _ => rfl
  | fuel + 1, s, off, a => by
    simp only [writeiLoop, writeiFromLoop, List.length_eq_zero_iff, kernelCopyin]
    split_ifs with h0
    · rfl
    cases bmap s ip (off / BSIZE) with
    | error e => rfl
    | ok x =>
      obtain ⟨addr, s₁⟩ := x
      simp only [Except.ok_bind]
      split_ifs with ha hr
      · rfl
      · exact hr.elim
      cases Fs.logWrite _ addr with
      | error e => rfl
      | ok s₂ =>
        simp only [Except.ok_bind, List.drop_drop]
        rw [writeiLoop_eq_writeiFromLoop ip buf fuel, List.length_drop, List.length_drop, Nat.sub_sub]

/-- `ialloc(dev, type)`: the first inode from 1 on whose type on disk is 0, zeroed there and
given `type`, then `iget` of it; `none` when every one is in use. -/
def ialloc (s : Fs) (type : ℤ) : Except String (Option (Fin NINODE) × Fs) :=
  match (List.range' 1 (s.sb.ninodes - 1)).find?
      (fun inum => (readDinode s.disk (dinodeAddr s.sb inum)).type == 0) with
  | none => .ok (none, s)
  | some inum => do
    let d : Dinode := { type := type, major := 0, minor := 0, nlink := 0, size := 0, addrs := Vector.replicate _ 0 }
    let s ← { s with disk := writeBytes s.disk (dinodeAddr s.sb inum) d.bytes }.logWrite (IBLOCK inum s.sb)
    let (ip, s) ← iget s inum
    return (some ip, s)

/-! ## What the calls write to the log -/

namespace Fs

variable {s s' : Fs} {ip : Fin NINODE} {i : Inode}

@[simp] theorem setInode_sb : (s.setInode ip i).sb = s.sb := rfl
@[simp] theorem setInode_logged : (s.setInode ip i).logged = s.logged := rfl
@[simp] theorem setInode_self : (s.setInode ip i).itable ip = i := by simp [setInode]

theorem logWrite_eq_ok {b : ℕ} (h : s.logWrite b = .ok s') :
    ∃ l, s.log.logWrite b = .ok l ∧ s' = { s with log := l, logged := s.logged ++ [b] } := by
  obtain ⟨l, hl, h⟩ := Except.bind_eq_ok.mp h
  cases h
  exact ⟨l, hl, rfl⟩

end Fs

open Fs

theorem bfree_eq_ok {s s' : Fs} {b : ℕ} (h : bfree s b = .ok s') :
    s'.sb = s.sb ∧ s'.itable = s.itable ∧ s'.logged = s.logged ++ [BBLOCK b s.sb] := by
  unfold bfree at h
  split_ifs at h
  obtain ⟨l, -, rfl⟩ := logWrite_eq_ok h
  exact ⟨rfl, rfl, rfl⟩

theorem iupdate_eq_ok {s s' : Fs} {ip : Fin NINODE} (h : iupdate s ip = .ok s') :
    s'.sb = s.sb ∧ s'.itable = s.itable ∧ s'.logged = s.logged ++ [IBLOCK (s.itable ip).inum s.sb] := by
  obtain ⟨l, -, rfl⟩ := logWrite_eq_ok h
  exact ⟨rfl, rfl, rfl⟩

section Itrunc

variable {s s' : Fs} {ip : Fin NINODE}

/-- The part of the file system that truncating `ip` leaves alone: the superblock and which
inode `ip` holds. -/
def TruncKeeps (s : Fs) (ip : Fin NINODE) (t : Fs) : Prop :=
  t.sb = s.sb ∧ (t.itable ip).inum = (s.itable ip).inum

theorem bfree_keeps {t t' : Fs} {b : ℕ} (ht : TruncKeeps s ip t) (h : bfree t b = .ok t') :
    TruncKeeps s ip t' := by
  obtain ⟨hsb, hit, -⟩ := bfree_eq_ok h
  exact ⟨by rw [hsb, ht.1], by rw [hit, ht.2]⟩

theorem iupdate_keeps {t t' : Fs} (ht : TruncKeeps s ip t) (h : iupdate t ip = .ok t') :
    TruncKeeps s ip t' := by
  obtain ⟨hsb, hit, -⟩ := iupdate_eq_ok h
  exact ⟨by rw [hsb, ht.1], by rw [hit, ht.2]⟩

theorem setInode_keeps {t : Fs} {i : Inode} (ht : TruncKeeps s ip t) (hi : i.inum = (t.itable ip).inum) :
    TruncKeeps s ip (t.setInode ip i) :=
  ⟨by rw [setInode_sb, ht.1], by rw [setInode_self, hi, ht.2]⟩

theorem itruncDirect_keeps {t t' : Fs} {k : ℕ} (ht : TruncKeeps s ip t)
    (h : itruncDirect ip t k = .ok t') : TruncKeeps s ip t' := by
  unfold itruncDirect at h
  dsimp only at h
  split_ifs at h
  · cases h; exact ht
  · obtain ⟨t₁, h₁, h⟩ := Except.bind_eq_ok.mp h
    cases h
    exact setInode_keeps (bfree_keeps ht h₁) rfl

theorem itruncIndirect_keeps {t t' : Fs} {ind j : ℕ} (ht : TruncKeeps s ip t)
    (h : itruncIndirect ind t j = .ok t') : TruncKeeps s ip t' := by
  unfold itruncIndirect at h
  dsimp only at h
  split_ifs at h
  · cases h; exact ht
  · exact bfree_keeps ht h

/-- `itrunc` ends with `iupdate`, so the inode's block is the last one it logs. -/
theorem itrunc_eq_ok (h : itrunc s ip = .ok s') :
    TruncKeeps s ip s' ∧ IBLOCK (s.itable ip).inum s.sb ∈ s'.logged := by
  unfold itrunc at h
  obtain ⟨s₁, h₁, h⟩ := Except.bind_eq_ok.mp h
  have k₁ : TruncKeeps s ip s₁ :=
    Except.foldlM_invariant (TruncKeeps s ip) (fun _ _ _ ht h => itruncDirect_keeps ht h) _ ⟨rfl, rfl⟩ h₁
  obtain ⟨s₂, h₂, h⟩ := Except.bind_eq_ok.mp h
  -- the indirect block, when there is one, is freed with its entries
  have k₂ : TruncKeeps s ip s₂ := by
    split_ifs at h₂
    · obtain ⟨s₃, h₃, h₂⟩ := Except.bind_eq_ok.mp h₂
      have k₃ := Except.foldlM_invariant (TruncKeeps s ip)
        (fun _ _ _ ht h => itruncIndirect_keeps ht h) _ k₁ h₃
      obtain ⟨s₄, h₄, h₂⟩ := Except.bind_eq_ok.mp h₂
      cases h₂
      exact setInode_keeps (bfree_keeps k₃ h₄) rfl
    · cases h₂; exact k₁
  obtain ⟨-, -, hlog⟩ := iupdate_eq_ok h
  refine ⟨iupdate_keeps (setInode_keeps k₂ (by rfl)) h, ?_⟩
  rw [hlog, setInode_self, setInode_sb, k₂.1, k₂.2]
  exact List.mem_concat_self

end Itrunc

/-- The last reference to an inode with no links: `iput` truncates it and writes it back
with type 0, so its inode block goes to the log of the operation that calls it. -/
theorem iput_logs_inode_block {s s' : Fs} {ip : Fin NINODE}
    (hlast : (s.itable ip).ref = 1 ∧ (s.itable ip).valid ∧ (s.itable ip).dinode.nlink = 0)
    (h : iput s ip = .ok s') : IBLOCK (s.itable ip).inum s.sb ∈ s'.logged := by
  unfold iput at h
  dsimp only at h
  rw [if_pos hlast] at h
  obtain ⟨s₂, h₂, h⟩ := Except.bind_eq_ok.mp h
  cases h
  obtain ⟨s₁, h₁, h₂⟩ := Except.bind_eq_ok.mp h₂
  obtain ⟨s₃, h₃, h₂⟩ := Except.bind_eq_ok.mp h₂
  cases h₂
  obtain ⟨⟨hsb, hinum⟩, -⟩ := itrunc_eq_ok h₁
  obtain ⟨-, -, hlog⟩ := iupdate_eq_ok h₃
  rw [setInode_logged, setInode_logged, hlog, setInode_self, setInode_sb, hsb, hinum]
  exact List.mem_concat_self

/-- Any other reference: `iput` only drops it, and logs nothing. -/
theorem iput_of_not_last {s : Fs} {ip : Fin NINODE}
    (h : ¬ ((s.itable ip).ref = 1 ∧ (s.itable ip).valid ∧ (s.itable ip).dinode.nlink = 0)) :
    iput s ip = .ok (s.setInode ip { s.itable ip with ref := (s.itable ip).ref - 1 }) := by
  unfold iput
  dsimp only
  rw [if_neg h]
  rfl

end Xv6
