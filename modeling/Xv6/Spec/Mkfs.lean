import Xv6.Spec.Path

/-! `mkfs.c`: the host program that writes the file-system image. The image file is byte
memory with its length beside it; block `b` is at `b * BSIZE`, and a sector read that
reaches past the end of the file stops `mkfs` as `rsect`'s `die("read")` does. `xint` and
`xshort` put values in RISC-V byte order, the little-endian order in which `leBytes` and
`Dinode.bytes` write them, so the model leaves them out.

An input file is its argument string, as bytes without the NUL, and its content; the
host's `open` and `read` of it do not fail. -/

namespace Xv6
namespace Mkfs

open ByteMem

def FSMAGIC : ℕ := 0x10203040

/-- `nmeta`: boot block, superblock, log, inode blocks and bitmap. -/
def nmeta : ℕ := 2 + LOGSIZE + (NINODES / IPB + 1) + (FSSIZE / (BSIZE * 8) + 1)

/-- The image file `fsfd` and the globals `freeinode` and `freeblock`. -/
structure Img where
  disk : ℕ → UInt8
  len : ℕ
  freeinode : ℕ
  freeblock : ℕ

/-- `wsect(sec, buf)`: `BSIZE` bytes at the sector, growing the file if it ends before. -/
def wsect (m : Img) (sec : ℕ) (buf : List UInt8) : Img :=
  { m with disk := writeBytes m.disk (sec * BSIZE) buf, len := max m.len ((sec + 1) * BSIZE) }

def rsect (m : Img) (sec : ℕ) : Except String (List UInt8) :=
  if (sec + 1) * BSIZE ≤ m.len then .ok (readBytes m.disk (sec * BSIZE) BSIZE) else .error "read"

def winode (m : Img) (inum : ℕ) (din : Dinode) : Except String Img := do
  let bn := IBLOCK inum mkfsSb
  let buf ← rsect m bn
  return wsect m bn (patch buf (inum % IPB * DINODESZ) din.bytes)

def rinode (m : Img) (inum : ℕ) : Except String Dinode := do
  let buf ← rsect m (IBLOCK inum mkfsSb)
  return readDinode (fun i => buf.getD i 0) (inum % IPB * DINODESZ)

def ialloc (m : Img) (type : ℤ) : Except String (Img × ℕ) := do
  let inum := m.freeinode
  let m ← winode { m with freeinode := inum + 1 } inum
    { type := type, major := 0, minor := 0, nlink := 1, size := 0, addrs := Vector.replicate _ 0 }
  return (m, inum)

/-- `balloc(used)`: a bitmap block with the bits of blocks `0 .. used - 1` set. -/
def balloc (m : Img) (used : ℕ) : Except String Img :=
  if used < BSIZE * 8 then
    let buf := (List.range used).foldl
      (fun buf i => buf.set (i / 8) (buf.getD (i / 8) 0 ||| 1 <<< (i % 8).toUInt8)) (List.replicate BSIZE 0)
    .ok (wsect m mkfsSb.bmapstart buf)
  else .error "assert: used < BSIZE*8"

/-- The disk block for block `fbn` of an inode being appended to, taken from `freeblock`
when the inode has none yet: a direct address, or an entry of the indirect block, which
is itself taken first if need be. -/
def blockFor (m : Img) (din : Dinode) (fbn : ℕ) : Except String (Img × Dinode × ℕ) :=
  if fbn < NDIRECT then
    let (m, din) := if din.addr fbn = 0
      then ({ m with freeblock := m.freeblock + 1 }, din.setAddr fbn m.freeblock) else (m, din)
    .ok (m, din, din.addr fbn)
  else do
    let (m, din) := if din.addr NDIRECT = 0
      then ({ m with freeblock := m.freeblock + 1 }, din.setAddr NDIRECT m.freeblock) else (m, din)
    let ind := din.addr NDIRECT
    let indirect ← rsect m ind
    let x := readWord (fun i => indirect.getD i 0) (4 * (fbn - NDIRECT)) 4
    if x = 0 then
      let indirect := patch indirect (4 * (fbn - NDIRECT)) (leBytes 4 m.freeblock)
      return (wsect { m with freeblock := m.freeblock + 1 } ind indirect, din, m.freeblock)
    else return (m, din, x)

/-- The loop of `iappend`: the bytes `p` still to append at `off`. Each round appends at
least one byte, so `p.length` rounds are enough. -/
def iappendLoop : ℕ → Img → Dinode → ℕ → List UInt8 → Except String (Img × Dinode × ℕ)
  | 0, m, din, off, _ => .ok (m, din, off)
  | fuel + 1, m, din, off, p =>
    if p = [] then .ok (m, din, off)
    else do
      let fbn := off / BSIZE
      if ¬ fbn < MAXFILE then throw "assert: fbn < MAXFILE"
      let (m, din, x) ← blockFor m din fbn
      let n1 := min p.length ((fbn + 1) * BSIZE - off)
      let buf ← rsect m x
      let m := wsect m x (patch buf (off - fbn * BSIZE) (p.take n1))
      iappendLoop fuel m din (off + n1) (p.drop n1)

def iappend (m : Img) (inum : ℕ) (p : List UInt8) : Except String Img := do
  let din ← rinode m inum
  let (m, din, off) ← iappendLoop p.length m din din.size p
  winode m inum { din with size := off }

/-- `while((cc = read(fd, buf, sizeof(buf))) > 0) iappend(inum, buf, cc)`. -/
def appendFile (inum : ℕ) : ℕ → Img → List UInt8 → Except String Img
  | 0, m, _ => .ok m
  | fuel + 1, m, content =>
    if content = [] then .ok m
    else do
      let m ← iappend m inum (content.take BSIZE)
      appendFile inum fuel m (content.drop BSIZE)

/-- The bytes of `"user/"`. -/
def userPrefix : List UInt8 := [117, 115, 101, 114, 47]

/-- The name an argument gets: without a leading `user/`, checked to hold no `/`, and
without a leading `_`. -/
def shortname (arg : List UInt8) : Except String (List UInt8) :=
  let s := if userPrefix.isPrefixOf arg then arg.drop 5 else arg
  if 47 ∈ s then .error "assert: no slash in shortname"
  else .ok (if s.head? = some 95 then s.drop 1 else s)

/-- One iteration of `main`'s loop over the input files: the zeroed `struct dirent` gets the
inode number and the name `strncpy`'d in, as `dirlink` writes it. -/
def addFile (rootino : ℕ) (m : Img) (file : List UInt8 × List UInt8) : Except String Img := do
  let name ← shortname file.1
  let (m, inum) ← ialloc m T_FILE
  let m ← iappend m rootino (direntBytes inum fun i => name.getD i 0)
  appendFile inum file.2.length m file.2

/-- The superblock's bytes: `magic` and the seven fields of `mkfsSb`, each a `uint`. -/
def sbBytes : List UInt8 :=
  [FSMAGIC, mkfsSb.size, mkfsSb.nblocks, mkfsSb.ninodes, mkfsSb.nlog, mkfsSb.logstart,
    mkfsSb.inodestart, mkfsSb.bmapstart].flatMap (leBytes 4)

/-- `main`: zero the image, write the superblock, make the root directory with `.` and
`..`, add each file, round the root's size up, and write the bitmap. -/
def mkfs (files : List (List UInt8 × List UInt8)) : Except String Img := do
  let m := (List.range FSSIZE).foldl (fun m i => wsect m i (List.replicate BSIZE 0))
    { disk := fun _ => 0, len := 0, freeinode := 1, freeblock := nmeta }
  let m := wsect m 1 (sbBytes ++ List.replicate (BSIZE - sbBytes.length) 0)
  let (m, rootino) ← ialloc m T_DIR
  if rootino ≠ ROOTINO then throw "assert: rootino == ROOTINO"
  let m ← iappend m rootino (direntBytes rootino dotName)
  let m ← iappend m rootino (direntBytes rootino dotdotName)
  let m ← files.foldlM (addFile rootino) m
  -- fix size of root inode dir
  let din ← rinode m rootino
  let off := (din.size / BSIZE + 1) * BSIZE
  let m ← winode m rootino { din with size := off }
  balloc m m.freeblock

end Mkfs
end Xv6
