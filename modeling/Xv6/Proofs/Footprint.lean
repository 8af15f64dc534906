import Xv6.Spec.Sysfile
import Xv6.Lib.Run

/-! The log footprint of one operation. `begin_op` reserves `MAXOPBLOCKS` blocks per
operation, but nothing bounds what an operation writes. Each iteration of `namex`'s loop
ends with `iunlockput` of the directory it leaves; when that is the last reference to a
directory that was unlinked while another process held it, `iput` truncates and frees it
there, inside the transaction of whatever call is walking the path, and logs its inode
block and the bitmap block. A walk through such directories, each released by its other
holder while the walk is on it, logs one inode block per directory. What a process passes
to `log_write` is its own: no event of another process changes its transaction. -/

namespace Xv6

open ByteMem Fs

/-! ## One step of the walk -/

/-- An iteration of `namex`'s loop that leaves a directory whose last reference it holds
truncates it: the inode block goes to the log of the walking operation. -/
theorem namexStep_truncates {s s₁ s₂ s' : Fs} {ip next : Fin NINODE} {path name rest : List UInt8}
    {off : ℕ} {w : Walk}
    (hskip : skipelem path = some (name, rest))
    (hlock : ilock s ip = .ok s₁) (hdir : (s₁.itable ip).dinode.type = T_DIR)
    (hlook : dirlookup s₁ ip (fun j => name.getD j 0) = .ok (some (next, off), s₂))
    (hlast : (s₂.itable ip).ref = 1 ∧ (s₂.itable ip).valid ∧ (s₂.itable ip).dinode.nlink = 0)
    (h : namexStep s ip path false = .ok (w, s')) :
    w = .next next rest ∧ IBLOCK (s₂.itable ip).inum s₂.sb ∈ s'.logged := by
  have hunlock : iunlock s₂ ip = .ok s₂ := by
    rw [iunlock, if_neg (by omega)]
  unfold namexStep at h
  simp only [hskip, hlock, Except.ok_bind, hdir, ne_eq, not_true_eq_false, if_false,
    Bool.false_eq_true, false_and, hlook, iunlockput, hunlock] at h
  obtain ⟨s₃, h₃, h⟩ := Except.bind_eq_ok.mp h
  cases h
  exact ⟨rfl, iput_logs_inode_block hlast h₃⟩

/-! ## Each process's own transaction -/

namespace FsSys

variable {s : FsSys} {p q : Fin NPROC}

@[simp] theorem setProc_procs_self (x : FsProc) : (s.setProc p x).procs p = x := by
  simp [setProc]

theorem setProc_procs_other (x : FsProc) (h : q ≠ p) : (s.setProc p x).procs q = s.procs q := by
  simp [setProc, h]

@[simp] theorem setProc_fs (x : FsProc) : (s.setProc p x).fs = s.fs := rfl

@[simp] theorem record_procs_self (fs : Fs) :
    (s.record p fs).procs p = { s.procs p with txn := (s.procs p).txn ++ fs.logged } := by
  simp [record]

theorem record_procs_other (fs : Fs) (h : q ≠ p) : (s.record p fs).procs q = s.procs q := by
  simp [record, setProc_procs_other _ h]

theorem setProc_record_procs_other (fs : Fs) (x : FsProc) (h : q ≠ p) :
    ((s.record p fs).setProc p x).procs q = s.procs q := by
  rw [setProc_procs_other _ h, record_procs_other _ h]

theorem beginOp_procs_other {s' : FsSys} (hb : s.beginOp p = some s') (h : q ≠ p) :
    s'.procs q = s.procs q := by
  unfold beginOp at hb
  obtain ⟨l, -, rfl⟩ := Option.map_eq_some_iff.mp hb
  exact setProc_procs_other _ h

end FsSys

open FsSys

theorem chdirEnd_procs_other {s s' : FsSys} {p q : Fin NPROC} {fs : Fs} {ip : Option (Fin NINODE)}
    (hq : q ≠ p) (h : chdirEnd s p fs ip = .ok s') : s'.procs q = s.procs q := by
  unfold chdirEnd at h
  -- every way out ends the transaction, records `p`'s writes and changes `p` alone
  cases ip with
  | none =>
    obtain ⟨fs₁, -, h⟩ := Except.bind_eq_ok.mp h
    cases h
    exact setProc_record_procs_other _ _ hq
  | some ip =>
    obtain ⟨fs₁, -, h⟩ := Except.bind_eq_ok.mp h
    split_ifs at h
    · obtain ⟨fs₂, -, h⟩ := Except.bind_eq_ok.mp h
      obtain ⟨fs₃, -, h⟩ := Except.bind_eq_ok.mp h
      cases h
      exact setProc_record_procs_other _ _ hq
    · obtain ⟨fs₂, -, h⟩ := Except.bind_eq_ok.mp h
      obtain ⟨fs₃, -, h⟩ := Except.bind_eq_ok.mp h
      obtain ⟨fs₄, -, h⟩ := Except.bind_eq_ok.mp h
      cases h
      exact setProc_record_procs_other _ _ hq

theorem fileclose_procs_other {s s' : FsSys} {p q : Fin NPROC} {f : Fin NFILE} (hq : q ≠ p)
    (h : fileclose s p f = some (.ok s')) : s'.procs q = s.procs q := by
  unfold fileclose at h
  dsimp only at h
  split_ifs at h
  · cases h
  · cases h; rfl
  · -- the last reference to an inode file: `iput` in `p`'s own transaction
    obtain ⟨s₁, hb, h⟩ := Option.map_eq_some_iff.mp h
    obtain ⟨fs₁, -, h⟩ := Except.bind_eq_ok.mp h
    obtain ⟨fs₂, -, h⟩ := Except.bind_eq_ok.mp h
    cases h
    rw [record_procs_other _ hq, beginOp_procs_other hb hq]
  · cases h; rfl

theorem fsCall_procs_other {s s' : FsSys} {p q : Fin NPROC} {body : FsSys → Fin NINODE → Except String FsSys}
    (hbody : ∀ t cwd t', body t cwd = .ok t' → t'.procs q = t.procs q) (hq : q ≠ p)
    (h : fsCall s p body = some (.ok s')) : s'.procs q = s.procs q := by
  unfold fsCall at h
  split at h
  · obtain ⟨s₁, hb, h⟩ := Option.map_eq_some_iff.mp h
    obtain ⟨s₂, h₂, h⟩ := Except.bind_eq_ok.mp h
    obtain ⟨fs, -, h⟩ := Except.bind_eq_ok.mp h
    cases h
    rw [record_procs_other _ hq, hbody _ _ _ h₂, beginOp_procs_other hb hq]
  · cases h

theorem bind_fs_procs {s s' : FsSys} {x : Except String Fs} (h : (do let fs ← x; return { s with fs := fs }) = .ok s') :
    s'.procs = s.procs := by
  obtain ⟨fs, -, h⟩ := Except.bind_eq_ok.mp h
  cases h; rfl

theorem openSys_procs_other {s s' : FsSys} {p q : Fin NPROC} {cwd : Fin NINODE} {path : List UInt8}
    {omode : ℕ} (hq : q ≠ p) (h : openSys s p cwd path omode = .ok s') : s'.procs q = s.procs q := by
  unfold openSys at h
  obtain ⟨⟨ip, fs⟩, -, h⟩ := Except.bind_eq_ok.mp h
  cases ip with
  | none => cases h; rfl
  | some ip =>
    dsimp only at h
    split at h
    · exact congrFun (bind_fs_procs h) q
    · split at h
      · exact congrFun (bind_fs_procs h) q
      · split at h
        · obtain ⟨fs₁, -, h⟩ := Except.bind_eq_ok.mp h
          cases h; rfl
        · -- the descriptor goes into `p`'s table
          obtain ⟨fs₁, -, h⟩ := Except.bind_eq_ok.mp h
          obtain ⟨fs₂, -, h⟩ := Except.bind_eq_ok.mp h
          cases h
          exact setProc_procs_other _ hq

/-- The process an event belongs to. -/
def FsEvent.proc : FsEvent → Fin NPROC
  | .chdir p _ => p
  | .walk p => p
  | .close p _ => p
  | .open p _ _ => p
  | .mkdir p _ => p
  | .unlink p _ => p
  | .link p _ _ => p

/-- What an event of `p` leaves of another process `q`: everything, its transaction
included; a process's log writes are its own. -/
theorem fsStep_procs_other {s s' : FsSys} {e : FsEvent} {q : Fin NPROC} (hq : q ≠ e.proc)
    (h : fsStep s e = some (.ok s')) : s'.procs q = s.procs q := by
  cases e with
  | chdir p path =>
    simp only [FsEvent.proc] at hq
    simp only [fsStep] at h
    unfold chdirBegin at h
    split at h
    · obtain ⟨s₁, hb, h⟩ := Option.map_eq_some_iff.mp h
      obtain ⟨⟨ip, fs⟩, -, h⟩ := Except.bind_eq_ok.mp h
      cases h
      rw [setProc_record_procs_other _ _ hq, beginOp_procs_other hb hq]
    · cases h
  | walk p =>
    simp only [FsEvent.proc] at hq
    simp only [fsStep] at h
    unfold chdirWalk at h
    split at h
    · cases h
    · obtain ⟨⟨w, fs⟩, -, h⟩ := Except.bind_eq_ok.mp (Option.some.inj h)
      cases w with
      | next ip path =>
        cases h
        exact setProc_record_procs_other _ _ hq
      | done ip name => exact chdirEnd_procs_other hq h
  | close p fd =>
    simp only [FsEvent.proc] at hq
    simp only [fsStep] at h
    unfold sysClose at h
    split_ifs at h with hfd
    · split at h
      · cases h; rfl
      · rw [← setProc_procs_other (s := s) (p := p) _ hq]
        exact fileclose_procs_other hq h
    · cases h; rfl
  | «open» p path omode => exact fsCall_procs_other (fun _ _ _ h => openSys_procs_other hq h) hq h
  | mkdir p path =>
    refine fsCall_procs_other (fun t cwd t' h => ?_) hq h
    obtain ⟨⟨ip, fs⟩, -, h⟩ := Except.bind_eq_ok.mp h
    exact congrFun (bind_fs_procs h) q
  | unlink p path =>
    refine fsCall_procs_other (fun t cwd t' h => ?_) hq h
    obtain ⟨⟨r, fs⟩, -, h⟩ := Except.bind_eq_ok.mp h
    cases h; rfl
  | link p old new =>
    refine fsCall_procs_other (fun t cwd t' h => ?_) hq h
    obtain ⟨⟨r, fs⟩, -, h⟩ := Except.bind_eq_ok.mp h
    cases h; rfl

theorem fsStep_of_fsNext {s s' : FsSys} {e : FsEvent} (h : fsNext s e = some s') : fsStep s e = some (.ok s') := by
  unfold fsNext at h
  split at h
  · next heq => cases h; exact heq
  · cases h

/-! ## A chain of unlinked directories

Ten directories `D 0`, ..., `D 9`, inodes `16 j + 17`, so one in each inode block from 33
to 42; each has one data block holding `.` and `..`, and `D (j + 1)` is the parent of `D j`
(the root that of `D 9`). They were made as nested directories, the walking process `cd`'d
into `D 0` and the holding process opened the other nine, and then all ten were unlinked
from the bottom up: each has `nlink = 0`, type `T_DIR` and one reference left, the walker's
working directory or one of the holder's files. The walker calls `chdir` on `..` ten times
over, and before each step of its walk the holder closes the file on the directory the walk
has just entered. -/

def deadInum (j : ℕ) : ℕ := 16 * j + 17
def deadBlock (j : ℕ) : ℕ := 100 + j
def deadParent (j : ℕ) : ℕ := if j < 9 then deadInum (j + 1) else ROOTINO

/-- A directory with `.` and `..` in data block `b`. -/
def dirDinode (nlink : ℤ) (b : ℕ) : Dinode :=
  { type := T_DIR, major := 0, minor := 0, nlink := nlink, size := 2 * DIRENTSZ,
    addrs := (Vector.replicate (NDIRECT + 1) 0).set 0 b }

/-- Blocks below 200 in use; the root's inode; each `D j`'s inode and entries. -/
def chainDisk : ℕ → UInt8 :=
  let m := fill (fun _ => 0) (mkfsSb.bmapstart * BSIZE) 25 0xFF
  let m := writeBytes m (dinodeAddr mkfsSb ROOTINO) (dirDinode 1 99).bytes
  (List.range 10).foldl (fun m j =>
    writeBytes (writeBytes m (dinodeAddr mkfsSb (deadInum j)) (dirDinode 0 (deadBlock j)).bytes)
      (deadBlock j * BSIZE) (direntBytes (deadInum j) dotName ++ direntBytes (deadParent j) dotdotName)) m

def rootSlot : Fin NINODE := 10

/-- Slot `j` holds `D j`, slot 10 the root (the working directory of `init` and of the holder). -/
def chainItable (k : Fin NINODE) : Inode :=
  if k.val < 10 then { inum := deadInum k.val, ref := 1, valid := true, dinode := dirDinode 0 (deadBlock k.val) }
  else if k = rootSlot then { inum := ROOTINO, ref := 2, valid := true, dinode := dirDinode 1 99 }
  else { inum := 0, ref := 0, valid := false, dinode := dirDinode 0 0 }

def chainFs : Fs := { sb := mkfsSb, disk := chainDisk, itable := chainItable, log := initLog, logged := [] }

def walker : Fin NPROC := 1
def holder : Fin NPROC := 2

/-- File `f < 9` is the holder's open file on `D (f + 1)`. -/
def chainFile (f : Fin NFILE) : File :=
  if f.val < 9 then { type := .inode, ref := 1, ip := Fin.ofNat NINODE (f.val + 1) }
  else { type := .none, ref := 0, ip := 0 }

def idleProc : FsProc := { cwd := none, ofile := fun _ => none, walking := none, txn := [] }

def chainProcs (q : Fin NPROC) : FsProc :=
  if q = 0 then { idleProc with cwd := some rootSlot }
  else if q = walker then { idleProc with cwd := some 0 }
  else if q = holder then
    { idleProc with cwd := some rootSlot, ofile := fun fd => if fd.val < 9 then some (Fin.ofNat NFILE fd.val) else none }
  else idleProc

def chainSys : FsSys := { fs := chainFs, ftable := chainFile, procs := chainProcs }

/-- `"../../../../../../../../../.."`. -/
def upPath : List UInt8 := (List.replicate 9 [46, 46, 47]).flatten ++ [46, 46]

/-- The walker's `chdir(upPath)`: the start of the walk and its step out of `D 0`, then for
each of `D 1`, ..., `D 9` the holder's `close` and the walker's step out of it, then the end
of the call. -/
def chainRun : List FsEvent :=
  [.chdir walker upPath, .walk walker] ++ (List.range 9).flatMap (fun k => [.close holder k, .walk walker]) ++
    [.walk walker]

/-! ## Runs of the walk -/

/-- A step of `p`'s path walk that leaves a directory it holds the last reference to adds
that directory's inode block to `p`'s transaction. -/
theorem chdirWalk_truncates {s s' : FsSys} {p : Fin NPROC} {s₁ s₂ : Fs} {ip next : Fin NINODE}
    {path name rest : List UInt8} {off : ℕ}
    (hw : (s.procs p).walking = some (ip, path)) (hskip : skipelem path = some (name, rest))
    (hlock : ilock s.fs ip = .ok s₁) (hdir : (s₁.itable ip).dinode.type = T_DIR)
    (hlook : dirlookup s₁ ip (fun j => name.getD j 0) = .ok (some (next, off), s₂))
    (hlast : (s₂.itable ip).ref = 1 ∧ (s₂.itable ip).valid ∧ (s₂.itable ip).dinode.nlink = 0)
    (h : chdirWalk s p = some (.ok s')) :
    (s'.procs p).walking = some (next, rest) ∧ IBLOCK (s₂.itable ip).inum s₂.sb ∈ (s'.procs p).txn := by
  unfold chdirWalk at h
  rw [hw] at h
  obtain ⟨⟨w, fs⟩, hstep, h⟩ := Except.bind_eq_ok.mp (Option.some.inj h)
  obtain ⟨rfl, hin⟩ := namexStep_truncates hskip hlock hdir hlook hlast hstep
  cases h
  simp only [setProc_procs_self, record_procs_self, true_and]
  exact List.mem_append_right _ hin

/-- The walker's step out of `D 1` once the holder has closed its file on it. -/
theorem chdirWalk_truncates_chain :
    ∃ s s₁ s₂ s', Run.run fsNext chainSys (chainRun.take 3) = some s ∧
      (s.procs walker).walking = some (1, upPath.drop 3) ∧
      skipelem (upPath.drop 3) = some ([46, 46, 0], upPath.drop 6) ∧
      ilock s.fs 1 = .ok s₁ ∧ (s₁.itable 1).dinode.type = T_DIR ∧
      dirlookup s₁ 1 (fun j => [46, 46, 0].getD j 0) = .ok (some (2, DIRENTSZ), s₂) ∧
      ((s₂.itable 1).ref = 1 ∧ (s₂.itable 1).valid ∧ (s₂.itable 1).dinode.nlink = 0) ∧
      chdirWalk s walker = some (.ok s') ∧
      (s'.procs walker).walking = some (2, upPath.drop 6) ∧ IBLOCK (s₂.itable 1).inum s₂.sb ∈ (s'.procs walker).txn := by
  obtain ⟨s', h', -⟩ := Run.exists_of_run_map (p := fun _ => true)
    (show (Run.run fsNext chainSys (chainRun.take 4)).map (fun _ => true) = some true by decide +kernel)
  rw [show chainRun.take 4 = chainRun.take 3 ++ [.walk walker] by rfl] at h'
  obtain ⟨s, hs, hs'⟩ := Run.run_concat_eq_some.mp h'
  obtain ⟨s₀, hs₀, hp⟩ := Run.exists_of_run_map
    (show (Run.run fsNext chainSys (chainRun.take 3)).map (fun s =>
      (s.procs walker).walking == some (1, upPath.drop 3) &&
        (ilock s.fs 1).toOption.map (fun s₁ => (s₁.itable 1).dinode.type == T_DIR &&
          (dirlookup s₁ 1 (fun j => [46, 46, 0].getD j 0)).toOption.map (fun r => r.1 == some (2, DIRENTSZ) &&
            (r.2.itable 1).ref == 1 && (r.2.itable 1).valid && (r.2.itable 1).dinode.nlink == 0) == some true) ==
          some true) = some true by decide +kernel)
  rw [hs₀, Option.some.injEq] at hs
  subst hs
  simp only [Bool.and_eq_true, beq_iff_eq] at hp
  obtain ⟨hw, hlock⟩ := hp
  obtain ⟨s₁, hs₁, hp₁⟩ := Except.exists_of_toOption_map hlock
  simp only [Bool.and_eq_true, beq_iff_eq] at hp₁
  obtain ⟨hdir, hlook⟩ := hp₁
  obtain ⟨⟨r, s₂⟩, hs₂, hp₂⟩ := Except.exists_of_toOption_map hlook
  simp only [Bool.and_eq_true, beq_iff_eq] at hp₂
  obtain ⟨⟨⟨hr, href⟩, hvalid⟩, hnlink⟩ := hp₂
  subst hr
  have hskip : skipelem (upPath.drop 3) = some ([46, 46, 0], upPath.drop 6) := by decide
  have hwalk : chdirWalk s₀ walker = some (.ok s') := fsStep_of_fsNext hs'
  exact ⟨s₀, s₁, s₂, s', hs₀, hw, hskip, hs₁, hdir, hs₂, ⟨href, hvalid, hnlink⟩, hwalk,
    chdirWalk_truncates hw hskip hs₁ hdir hs₂ ⟨href, hvalid, hnlink⟩ hwalk⟩

/-- The walker's `chdir` reaches the root and ends its transaction, having passed to
`log_write` the bitmap block and the ten inode blocks of `D 0`, ..., `D 9`: eleven distinct
blocks, more than `MAXOPBLOCKS`. -/
theorem chdir_logs_eleven_blocks :
    (Run.run fsNext chainSys chainRun).map (fun s =>
        ((s.procs walker).walking, (s.procs walker).cwd, (s.procs walker).txn.toFinset)) =
      some (none, some rootSlot,
        insert (BBLOCK (deadBlock 0) mkfsSb) ((Finset.range 10).image fun j => IBLOCK (deadInum j) mkfsSb)) ∧
    MAXOPBLOCKS <
      (insert (BBLOCK (deadBlock 0) mkfsSb) ((Finset.range 10).image fun j => IBLOCK (deadInum j) mkfsSb)).card := by
  constructor <;> decide +kernel

end Xv6
