import Xv6.Proofs.UserMem
import Xv6.Proofs.Mkfs

/-! `writei` from user memory. `either_copyin` copies into the buffer's data page by page, so
a copy that faults on a later page has already changed the cached block; `writei` then
releases the buffer without `log_write`. The change is in the cache and not in the
transaction: the commit does not write it, and a read after the buffer is recycled sees the
old bytes. -/

namespace Xv6

open ByteMem Fs

/-- A `writei` whose first copy stores `bs` and then faults, on a block the inode already
has: the bytes go into the cached block and the call ends with `iupdate`. -/
theorem writeiFrom_fault {s : Fs} {copy : ℕ → ℕ → Except String (ℤ × List UInt8)} {ip : Fin NINODE}
    {src off n addr : ℕ} {bs : List UInt8}
    (hoff : off ≤ (s.itable ip).dinode.size) (hn : n ≠ 0) (hmax : off + n ≤ MAXFILE * BSIZE)
    (hbmap : bmap s ip (off / BSIZE) = .ok (addr, s)) (haddr : addr ≠ 0)
    (hcopy : copy src (min n (BSIZE - off % BSIZE)) = .ok (-1, bs)) :
    writeiFrom s copy ip src off n = do
      let s' ← iupdate { s with disk := writeBytes s.disk (addr * BSIZE + off % BSIZE) bs } ip
      return (0, s') := by
  have hwrap : ¬(off + n) % 2 ^ 32 < off := by
    have : off + n < 2 ^ 32 := by simp only [MAXFILE, NDIRECT, NINDIRECT, BSIZE] at hmax; omega
    rw [Nat.mod_eq_of_lt this]
    omega
  have hloop : writeiFromLoop copy ip n s off src n =
      .ok (off, { s with disk := writeBytes s.disk (addr * BSIZE + off % BSIZE) bs }) := by
    obtain ⟨k, rfl⟩ := Nat.exists_eq_succ_of_ne_zero hn
    simp [writeiFromLoop, hbmap, haddr, hcopy]
  simp only [writeiFrom, not_or.mpr ⟨not_lt.mpr hoff, hwrap⟩, not_lt.mpr hmax, if_false, hloop, Except.ok_bind,
    Nat.sub_self, Nat.cast_zero]
  rw [if_neg (not_lt.mpr hoff)]

theorem dinodeAddr_mem (sb : Superblock) (inum : ℕ) :
    IBLOCK inum sb * BSIZE ≤ dinodeAddr sb inum ∧ dinodeAddr sb inum + DINODESZ ≤ (IBLOCK inum sb + 1) * BSIZE := by
  have : inum % IPB < IPB := Nat.mod_lt _ (by decide)
  simp only [dinodeAddr, IPB, DINODESZ, NDIRECT, BSIZE] at this ⊢
  omega

/-- A `writei` from user memory whose first copy stores `bs` in a block of the file and then
faults returns `0`, leaves `bs` in the cached block, and passes only the inode's block to
`log_write`: the data block joins the transaction only if it was in it already. -/
theorem writei_fault_unlogged (s : Fs) (copy : ℕ → ℕ → Except String (ℤ × List UInt8)) (ip : Fin NINODE)
    (src off n addr : ℕ) (bs : List UInt8)
    (hoff : off ≤ (s.itable ip).dinode.size) (hn : n ≠ 0) (hmax : off + n ≤ MAXFILE * BSIZE)
    (hbmap : bmap s ip (off / BSIZE) = .ok (addr, s)) (haddr : addr ≠ 0)
    (hcopy : copy src (min n (BSIZE - off % BSIZE)) = .ok (-1, bs)) (hbs : off % BSIZE + bs.length ≤ BSIZE)
    (hino : addr ≠ IBLOCK (s.itable ip).inum s.sb)
    (hroom : s.log.lh.length < LOGSIZE ∧ s.log.lh.length < s.log.size - 1 ∧ 1 ≤ s.log.outstanding) :
    ∃ s', writeiFrom s copy ip src off n = .ok (0, s') ∧
      readBytes s'.disk (addr * BSIZE + off % BSIZE) bs.length = bs ∧
      (addr ∈ s'.log.lh ↔ addr ∈ s.log.lh) ∧ s'.logged = s.logged ++ [IBLOCK (s.itable ip).inum s.sb] := by
  rw [writeiFrom_fault hoff hn hmax hbmap haddr hcopy]
  simp only [iupdate, Fs.logWrite]
  rw [Log.logWrite_of_room _ hroom]
  refine ⟨_, rfl, ?_, ?_, rfl⟩
  · -- `iupdate` writes inside the inode block, away from the data block
    obtain ⟨h1, h2⟩ := dinodeAddr_mem s.sb (s.itable ip).inum
    have hlen := length_bytes (s.itable ip).dinode
    have hdisj : dinodeAddr s.sb (s.itable ip).inum + (s.itable ip).dinode.bytes.length ≤ addr * BSIZE + off % BSIZE ∨
        addr * BSIZE + off % BSIZE + bs.length ≤ dinodeAddr s.sb (s.itable ip).inum := by
      rw [hlen]
      simp only [BSIZE] at *
      omega
    simp only
    rw [readBytes_writeBytes_of_disjoint hdisj, readBytes_writeBytes]
  · split_ifs with hb
    · rfl
    · simp [hino]

theorem zero_lt_addrs : 0 < NDIRECT + 1 := Nat.succ_pos NDIRECT

/-- A file of two bytes `xx` in block 100, open in slot 0, inside a transaction. -/
def xxFile : Dinode :=
  { type := T_FILE, major := 0, minor := 0, nlink := 1, size := 2,
    addrs := (Vector.replicate (NDIRECT + 1) 0).set 0 100 zero_lt_addrs }

def xxFs : Fs where
  sb := mkfsSb
  disk := writeBytes (fun _ => 0) (100 * BSIZE) [120, 120]
  itable := fun k => if k = 0 then { inum := 2, ref := 1, valid := true, dinode := xxFile }
    else { inum := 0, ref := 0, valid := false, dinode := xxFile }
  log := { initLog with outstanding := 1 }
  logged := []

/-- The child's memory: one user page at virtual address `0`, nothing mapped at `0x1000`. -/
def childPhys : Phys := (twoProcs (childProc .running (Vector.replicate 32 0))).phys

/-- `write(fd, (char *) 0xffe, 4)` on the file from the child: the chunk of four bytes
crosses into the unmapped page, `copyin` stores the two bytes before it and fails. Block 100
now holds two zero bytes in the cache, and the transaction does not hold block 100. -/
theorem writei_fault_unlogged_xx :
    ∃ s', writeiFrom xxFs (copyin childPhys childRoot) 0 0xffe 0 4 = .ok (0, s') ∧
      readBytes xxFs.disk (100 * BSIZE) 2 = [120, 120] ∧ readBytes s'.disk (100 * BSIZE) 2 = [0, 0] ∧
      100 ∉ s'.log.lh := by
  have hcopy : copyin childPhys childRoot 0xffe (min 4 (BSIZE - 0 % BSIZE)) = .ok (-1, [0, 0]) := by
    decide +kernel
  obtain ⟨s', hw, hbytes, hlh, -⟩ := writei_fault_unlogged xxFs (copyin childPhys childRoot) 0 0xffe 0 4 100 [0, 0]
    (by decide) (by decide) (by decide) rfl (by decide) hcopy (by decide) (by decide) (by decide)
  refine ⟨s', hw, by decide, hbytes, ?_⟩
  rw [hlh]
  decide

end Xv6
