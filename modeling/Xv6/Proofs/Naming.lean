import Xv6.Proofs.Footprint
import Xv6.Proofs.Mkfs

/-! The directory tree on disk, and what `sys_unlink` does to it. `sys_unlink` removes an
empty directory whatever references to it remain: a process whose working directory it is
keeps the inode, with `nlink = 0` and type `T_DIR`, and paths relative to it still reach
it. Entries made there are in no directory reachable from the root. A file created there
is held only by its open file; once closed, and the directory freed by the `iput` of the
process's next `chdir`, it is an allocated inode that no name and no reference reaches. A
`link` into it counts a link that no reachable directory holds. -/

namespace Xv6

open ByteMem

/-! ## The tree on disk -/

/-- Inode `inum` as the disk holds it. -/
def inodeAt (s : Fs) (inum : ℕ) : Dinode := readDinode s.disk (dinodeAddr s.sb inum)

/-- The disk block that holds block `bn` of an inode, as `bmap` finds it without allocating. -/
def blockAt (s : Fs) (d : Dinode) (bn : ℕ) : ℕ :=
  if bn < NDIRECT then d.addr bn else readWord s.disk (d.addr NDIRECT * BSIZE + 4 * (bn - NDIRECT)) 4

/-- The entries of directory `inum`: its content in `DIRENTSZ`-byte pieces. -/
def dirents (s : Fs) (inum : ℕ) : List (List UInt8) :=
  let d := inodeAt s inum
  (List.range (d.size / DIRENTSZ)).map fun k => (List.range DIRENTSZ).map fun i =>
    s.disk (blockAt s d ((k * DIRENTSZ + i) / BSIZE) * BSIZE + (k * DIRENTSZ + i) % BSIZE)

/-- The inodes reachable from the root through live entries of directories. -/
inductive Reach (s : Fs) : ℕ → Prop
  | root : Reach s ROOTINO
  | entry {d : ℕ} {de : List UInt8} : Reach s d → (inodeAt s d).type = T_DIR → de ∈ dirents s d →
      direntInum de ≠ 0 → Reach s (direntInum de)

/-- When every live entry of the root names the root or an inode that is not a directory,
the root is the only reachable directory. -/
theorem reach_of_root_entries {s : Fs}
    (h : ∀ de ∈ dirents s ROOTINO, direntInum de = 0 ∨ direntInum de = ROOTINO ∨
      (inodeAt s (direntInum de)).type ≠ T_DIR) {d : ℕ} (hd : Reach s d) :
    d = ROOTINO ∨ (inodeAt s d).type ≠ T_DIR := by
  induction hd with
  | root => exact .inl rfl
  | @entry d de _ hdir hde hlive ih =>
    -- the directory the entry is in can only be the root
    have hroot : d = ROOTINO := ih.resolve_right (not_not.mpr hdir)
    subst hroot
    exact (h de hde).resolve_left hlive

theorem reach_dir_root {s : Fs}
    (h : ∀ de ∈ dirents s ROOTINO, direntInum de = 0 ∨ direntInum de = ROOTINO ∨
      (inodeAt s (direntInum de)).type ≠ T_DIR) {d : ℕ} (hd : Reach s d) (hdir : (inodeAt s d).type = T_DIR) :
    d = ROOTINO :=
  (reach_of_root_entries h hd).resolve_right (not_not.mpr hdir)

/-! ## The image `mkfs` writes with no input files, mounted -/

/-- The root directory `mkfs` leaves with no input files (`Mkfs.mkfs_root`): `.` and `..` in
block `nmeta`, its size rounded up to the block. -/
def bootRoot : Dinode := { Mkfs.rootDinode 2 with size := (DIRENTSZ * 2 / BSIZE + 1) * BSIZE }

/-- Blocks `0 .. nmeta` in use, the root's inode, and the root's two entries. -/
def bootDisk : ℕ → UInt8 :=
  let m := writeBytes (fun _ => 0) (mkfsSb.bmapstart * BSIZE) [0xFF, 0xFF, 0xFF, 0xFF, 0xFF, 0x7F]
  let m := writeBytes m (dinodeAddr mkfsSb ROOTINO) bootRoot.bytes
  writeBytes m (Mkfs.nmeta * BSIZE) (direntBytes ROOTINO dotName ++ direntBytes ROOTINO dotdotName)

def emptyDinode : Dinode :=
  { type := 0, major := 0, minor := 0, nlink := 0, size := 0, addrs := Vector.replicate _ 0 }

/-- The process that makes the calls; its working directory is the root, in table slot 0,
which no call has read from disk yet. -/
def user : Fin NPROC := 1

def bootItable (k : Fin NINODE) : Inode :=
  if k = 0 then { inum := ROOTINO, ref := 1, valid := false, dinode := emptyDinode }
  else { inum := 0, ref := 0, valid := false, dinode := emptyDinode }

def bootSys : FsSys where
  fs := { sb := mkfsSb, disk := bootDisk, itable := bootItable, log := initLog, logged := [] }
  ftable := fun _ => { type := .none, ref := 0, ip := 0 }
  procs := fun q => if q = user then { idleProc with cwd := some 0 } else idleProc

/-- `"/d"`, `"/f"`, `"x"`, `"y"` and `"/"`. -/
def pathD : List UInt8 := [47, 100]
def pathF : List UInt8 := [47, 102]
def nameX : List UInt8 := [120]
def nameY : List UInt8 := [121]
def pathRoot : List UInt8 := [47]

/-- `mkdir("/d"); chdir("/d"); unlink("/d"); fd = open("x", O_CREATE|O_RDWR); close(fd);
chdir("/")`. -/
def orphanRun : List FsEvent :=
  [.mkdir user pathD, .chdir user pathD, .walk user, .walk user, .unlink user pathD,
    .open user nameX (O_CREATE ||| O_RDWR), .close user 0, .chdir user pathRoot, .walk user]

/-- `fd = open("/f", O_CREATE|O_RDWR); close(fd); mkdir("/d"); chdir("/d"); unlink("/d");
link("/f", "y")`. -/
def linkRun : List FsEvent :=
  [.open user pathF (O_CREATE ||| O_RDWR), .close user 0, .mkdir user pathD, .chdir user pathD,
    .walk user, .walk user, .unlink user pathD, .link user pathF nameY]

/-- What the claims about the tree read of a state: inode `inum`'s type and link count on
disk, the root's type and the inode numbers in its entries, and whether a table entry holds
`inum`. -/
def treeFacts (inum : ℕ) (s : FsSys) : ℤ × ℤ × ℤ × List ℕ × Bool :=
  ((inodeAt s.fs inum).type, (inodeAt s.fs inum).nlink, (inodeAt s.fs ROOTINO).type,
    (dirents s.fs ROOTINO).map direntInum,
    (List.finRange NINODE).any fun k => (s.fs.itable k).inum == inum && 0 < (s.fs.itable k).ref)

theorem root_entries_of {s : Fs} {l : List ℕ} (inums : List ℕ) (hl : (dirents s ROOTINO).map direntInum = l)
    (h : ∀ i ∈ l, i = 0 ∨ i ∈ inums) : ∀ de ∈ dirents s ROOTINO, direntInum de = 0 ∨ direntInum de ∈ inums :=
  fun _ hde => h _ (hl ▸ List.mem_map_of_mem hde)

theorem no_ref_of_facts {s : FsSys} {inum : ℕ}
    (h : ((List.finRange NINODE).any fun k => (s.fs.itable k).inum == inum && 0 < (s.fs.itable k).ref) = false)
    (k : Fin NINODE) (hk : (s.fs.itable k).inum = inum) : (s.fs.itable k).ref = 0 := by
  have := List.any_eq_false.mp h k (List.mem_finRange k)
  simpa [hk] using this

theorem unlinked_cwd_orphan :
    ∃ s, Run.Reachable fsNext bootSys s ∧ (inodeAt s.fs 3).type = T_FILE ∧ (inodeAt s.fs 3).nlink = 1 ∧
      (∀ d, Reach s.fs d → (inodeAt s.fs d).type = T_DIR → ∀ de ∈ dirents s.fs d, direntInum de ≠ 3) ∧
      ∀ k, (s.fs.itable k).inum = 3 → (s.fs.itable k).ref = 0 := by
  have hrun : (Run.run fsNext bootSys orphanRun).map (treeFacts 3) =
      some (T_FILE, 1, T_DIR, [1, 1] ++ List.replicate 62 0, false) := by decide +kernel
  obtain ⟨s, hs, hf⟩ := Option.map_eq_some_iff.mp hrun
  simp only [treeFacts, Prod.mk.injEq] at hf
  obtain ⟨htype, hnlink, -, hroot, hrefs⟩ := hf
  -- the root's live entries are `.` and `..`
  have hlive := root_entries_of [ROOTINO] hroot (by decide)
  refine ⟨s, Run.reachable_of_run hs, htype, hnlink, fun d hd hdir de hde => ?_, no_ref_of_facts hrefs⟩
  have hd : d = ROOTINO :=
    reach_dir_root (fun de hde => (hlive de hde).imp_right fun h => .inl (List.mem_singleton.mp h)) hd hdir
  subst hd
  rcases hlive de hde with h | h
  · rw [h]; decide
  · rw [List.mem_singleton.mp h]; decide

theorem unlinked_cwd_link :
    ∃ s, Run.Reachable fsNext bootSys s ∧ Reach s.fs 2 ∧ (inodeAt s.fs 2).nlink = 2 ∧
      (∀ d, Reach s.fs d → (inodeAt s.fs d).type = T_DIR → d = ROOTINO) ∧
      (dirents s.fs ROOTINO).countP (fun de => direntInum de = 2) = 1 := by
  have hrun : (Run.run fsNext bootSys linkRun).map (treeFacts 2) =
      some (T_FILE, 2, T_DIR, [1, 1, 2] ++ List.replicate 61 0, false) := by decide +kernel
  obtain ⟨s, hs, hf⟩ := Option.map_eq_some_iff.mp hrun
  simp only [treeFacts, Prod.mk.injEq] at hf
  obtain ⟨htype, hnlink, hrtype, hroot, -⟩ := hf
  -- the root's live entries are `.`, `..` and `f`
  have hlive := root_entries_of [ROOTINO, 2] hroot (by decide)
  have hreach : ∀ d, Reach s.fs d → (inodeAt s.fs d).type = T_DIR → d = ROOTINO := fun d =>
    reach_dir_root fun de hde => (hlive de hde).imp_right fun h => by
      rcases List.mem_pair.mp h with h | h
      · exact .inl h
      · exact .inr (by rw [h, htype]; decide)
  obtain ⟨de, hde, hde2⟩ : ∃ de ∈ dirents s.fs ROOTINO, direntInum de = 2 :=
    List.mem_map.mp (hroot ▸ (by decide : 2 ∈ [1, 1, 2] ++ List.replicate 61 0))
  refine ⟨s, Run.reachable_of_run hs, hde2 ▸ Reach.entry Reach.root hrtype hde (by rw [hde2]; decide), hnlink,
    hreach, ?_⟩
  have hcount := List.countP_map (p := fun i => decide (i = 2)) (f := direntInum) (l := dirents s.fs ROOTINO)
  rw [hroot] at hcount
  exact hcount.symm.trans (by decide)

end Xv6
