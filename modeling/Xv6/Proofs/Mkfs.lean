import Mathlib.Data.List.GetD
import Xv6.Spec.Mkfs

/-! What the kernel reads from the image `mkfs` writes. The `struct dinode` format first:
`readDinode` reads back what `Dinode.bytes` wrote, and a store outside an inode's
`DINODESZ` bytes does not change it. -/

namespace Xv6

open ByteMem

/-! ## The dinode format -/

/-- The values the fields of a `struct dinode` can hold: `short`s and `uint`s. -/
structure Dinode.Fits (d : Dinode) : Prop where
  type : -2 ^ 15 ≤ d.type ∧ d.type < 2 ^ 15
  major : -2 ^ 15 ≤ d.major ∧ d.major < 2 ^ 15
  minor : -2 ^ 15 ≤ d.minor ∧ d.minor < 2 ^ 15
  nlink : -2 ^ 15 ≤ d.nlink ∧ d.nlink < 2 ^ 15
  size : d.size < 2 ^ 32
  addrs : ∀ j (h : j < NDIRECT + 1), d.addrs[j] < 2 ^ 32

@[simp] theorem length_shortBytes (x : ℤ) : (shortBytes x).length = 2 := by simp [shortBytes]

theorem length_bytes (d : Dinode) : d.bytes.length = DINODESZ := by
  simp only [Dinode.bytes, List.length_append, length_shortBytes, length_leBytes, length_flatMap_leBytes,
    Vector.length_toList]
  rfl

theorem Dinode.addr_eq (d : Dinode) {k : ℕ} (hk : k < NDIRECT + 1) : d.addr k = d.addrs[k] := by
  simp [Dinode.addr, List.getD_eq_getElem?_getD, hk]

theorem getD_bytes (d : Dinode) (k : ℕ) :
    d.bytes.getD k 0 =
      if k < 2 then (shortBytes d.type).getD k 0
      else if k < 4 then (shortBytes d.major).getD (k - 2) 0
      else if k < 6 then (shortBytes d.minor).getD (k - 4) 0
      else if k < 8 then (shortBytes d.nlink).getD (k - 6) 0
      else if k < 12 then (leBytes 4 d.size).getD (k - 8) 0
      else (d.addrs.toList.flatMap (leBytes 4)).getD (k - 12) 0 := by
  simp only [Dinode.bytes]
  split_ifs <;>
    simp (disch := simp; omega) only [List.getD_append, List.getD_append_right, List.length_append,
      length_shortBytes, length_leBytes]

theorem wrap_shortBytes {x : ℤ} (hx : -2 ^ 15 ≤ x ∧ x < 2 ^ 15) :
    wrap 16 (((x % 2 ^ 16).toNat % 256 ^ 2 : ℕ) : ℤ) = x := by
  have h0 : 0 ≤ x % 2 ^ 16 := Int.emod_nonneg _ (by norm_num)
  have h1 : x % 2 ^ 16 < 2 ^ 16 := Int.emod_lt_of_pos _ (by norm_num)
  have hcast : (((x % 2 ^ 16).toNat % 256 ^ 2 : ℕ) : ℤ) = x % 2 ^ 16 := by
    rw [Nat.mod_eq_of_lt (by omega), Int.toNat_of_nonneg h0]
  rw [hcast, wrap]
  omega

theorem readDinode_bytes {m : ℕ → UInt8} {a : ℕ} {d : Dinode} (hd : d.Fits) :
    readDinode (writeBytes m a d.bytes) a = d := by
  have field : ∀ off w v, off + w ≤ DINODESZ →
      (∀ i < w, d.bytes.getD (off + i) 0 = UInt8.ofNat (v / 256 ^ i)) →
      readWord (writeBytes m a d.bytes) (a + off) w = v % 256 ^ w :=
    fun off w v hw h => readWord_writeBytes (by rw [length_bytes]; exact hw) h
  have short : ∀ off (x : ℤ), off + 2 ≤ DINODESZ → -2 ^ 15 ≤ x ∧ x < 2 ^ 15 →
      (∀ i < 2, d.bytes.getD (off + i) 0 = (shortBytes x).getD i 0) →
      readShort (writeBytes m a d.bytes) (a + off) = x := fun off x hw hx h => by
    rw [readShort, field off 2 _ hw fun i hi => by rw [h i hi, shortBytes, getD_leBytes hi],
      wrap_shortBytes hx]
  obtain ⟨type, major, minor, nlink, size, addrs⟩ := d
  simp only [readDinode, Dinode.mk.injEq]
  refine ⟨short 0 _ (by decide) hd.type fun i hi => ?_, short 2 _ (by decide) hd.major fun i hi => ?_,
    short 4 _ (by decide) hd.minor fun i hi => ?_, short 6 _ (by decide) hd.nlink fun i hi => ?_, ?_, ?_⟩
  · rw [getD_bytes, if_pos (by omega), Nat.zero_add]
  · rw [getD_bytes, if_neg (by omega), if_pos (by omega), Nat.add_sub_cancel_left]
  · rw [getD_bytes, if_neg (by omega), if_neg (by omega), if_pos (by omega), Nat.add_sub_cancel_left]
  · rw [getD_bytes, if_neg (by omega), if_neg (by omega), if_neg (by omega), if_pos (by omega),
      Nat.add_sub_cancel_left]
  · rw [field 8 4 size (by decide) fun i hi => by
      rw [getD_bytes, if_neg (by omega), if_neg (by omega), if_neg (by omega), if_neg (by omega),
        if_pos (by omega), Nat.add_sub_cancel_left, getD_leBytes hi]]
    exact Nat.mod_eq_of_lt hd.size
  · refine Vector.ext fun j hj => ?_
    rw [Vector.getElem_ofFn, Nat.add_assoc, field (12 + 4 * j) 4 addrs[j] (by unfold NDIRECT at hj; decide +revert) fun i hi => ?_]
    · exact Nat.mod_eq_of_lt (hd.addrs j hj)
    · rw [getD_bytes, if_neg (by omega), if_neg (by omega), if_neg (by omega), if_neg (by omega),
        if_neg (by omega), show 12 + 4 * j + i - 12 = 4 * j + i by omega, getD_flatMap_leBytes hi,
        ← Dinode.addr, Dinode.addr_eq _ hj, getD_leBytes hi]

theorem readDinode_congr {m m' : ℕ → UInt8} {a a' : ℕ} (h : ∀ i < DINODESZ, m (a + i) = m' (a' + i)) :
    readDinode m a = readDinode m' a' := by
  have hw : ∀ off w, off + w ≤ DINODESZ → readWord m (a + off) w = readWord m' (a' + off) w :=
    fun off w hle => readWord_congr fun i hi => by
      rw [Nat.add_assoc, Nat.add_assoc]
      exact h _ (by omega)
  have h0 : readWord m a 2 = readWord m' a' 2 := hw 0 2 (by decide)
  simp only [readDinode, readShort, h0, hw 2 2 (by decide), hw 4 2 (by decide), hw 6 2 (by decide),
    hw 8 4 (by decide), Nat.add_assoc a 12, Nat.add_assoc a' 12]
  congr 2
  funext j
  exact hw _ 4 (by have := j.isLt; simp only [DINODESZ, NDIRECT] at this ⊢; omega)

theorem readDinode_writeBytes_of_disjoint {m : ℕ → UInt8} {a a' : ℕ} {bs : List UInt8}
    (h : a + DINODESZ ≤ a' ∨ a' + bs.length ≤ a) : readDinode (writeBytes m a' bs) a = readDinode m a :=
  readDinode_congr fun i hi => by
    rcases h with h | h
    · exact writeBytes_of_lt (by omega)
    · exact writeBytes_of_le (by omega)

theorem Dinode.addr_setAddr (d : Dinode) {k : ℕ} (hk : k < NDIRECT + 1) (v : ℕ) :
    (d.setAddr k v).addr k = v := by
  simp [Dinode.setAddr, Dinode.addr_eq _ hk, hk]

/-! ## The kernel's side -/

theorem balloc_fresh {s s' : Fs} {a : ℕ} (h : balloc s = .ok (a, s')) :
    a = 0 ∨ s.disk (bitAddr s.sb a) &&& bitMask a = 0 := by
  unfold balloc at h
  split at h
  · cases h
    exact .inl rfl
  · rename_i x hx
    obtain ⟨s₁, -, h⟩ := Except.bind_eq_ok.mp h
    obtain ⟨s₂, -, h⟩ := Except.bind_eq_ok.mp h
    cases h
    exact .inr (by simpa using List.find?_some hx)

/-- `bmap` of a direct block the inode does not have allocates one: what it returns is a
block that was free, now the inode's. -/
theorem bmap_of_addr_zero {s s' : Fs} {ip : Fin NINODE} {bn a : ℕ} (hbn : bn < NDIRECT)
    (h0 : (s.itable ip).dinode.addr bn = 0) (h : bmap s ip bn = .ok (a, s')) :
    a = 0 ∨ s.disk (bitAddr s.sb a) &&& bitMask a = 0 ∧ (s'.itable ip).dinode.addr bn = a := by
  unfold bmap at h
  rw [if_pos hbn] at h
  simp only [h0, ne_eq, not_true_eq_false, if_false] at h
  obtain ⟨⟨a₁, s₁⟩, hb, h⟩ := Except.bind_eq_ok.mp h
  split at h
  · cases h
    exact .inl rfl
  · cases h
    refine (balloc_fresh hb).imp id fun hfree => ⟨hfree, ?_⟩
    rw [Fs.setInode_self]
    exact Dinode.addr_setAddr _ (by omega) _

theorem ilock_of_invalid {s : Fs} {ip : Fin NINODE} (href : 1 ≤ (s.itable ip).ref)
    (hv : (s.itable ip).valid = false) (ht : (readDinode s.disk (dinodeAddr s.sb (s.itable ip).inum)).type ≠ 0) :
    ilock s ip = .ok (s.setInode ip
      { s.itable ip with valid := true, dinode := readDinode s.disk (dinodeAddr s.sb (s.itable ip).inum) }) := by
  simp only [ilock, hv, Nat.not_lt.mpr href, if_false, Bool.false_eq_true, ht]

/-! ## Sectors and inodes of the image -/

namespace Mkfs

variable {m : Img} {sec inum : ℕ}

theorem rsect_ok (h : (sec + 1) * BSIZE ≤ m.len) :
    rsect m sec = .ok (readBytes m.disk (sec * BSIZE) BSIZE) :=
  if_pos h

theorem wsect_len (h : (sec + 1) * BSIZE ≤ m.len) (buf : List UInt8) : (wsect m sec buf).len = m.len :=
  max_eq_left h

theorem dinodeAddr_mkfsSb (inum : ℕ) :
    dinodeAddr mkfsSb inum = mkfsSb.inodestart * BSIZE + DINODESZ * inum := by
  have := Nat.div_add_mod inum IPB
  simp only [dinodeAddr, IBLOCK, IPB, DINODESZ, BSIZE, NDIRECT] at this ⊢
  omega

theorem slot_le (inum : ℕ) : inum % IPB * DINODESZ + DINODESZ ≤ BSIZE := by
  have := Nat.mod_lt inum (show 0 < IPB by decide)
  simp only [IPB, DINODESZ, BSIZE, NDIRECT] at this ⊢
  omega

theorem rinode_eq (h : (IBLOCK inum mkfsSb + 1) * BSIZE ≤ m.len) :
    rinode m inum = .ok (readDinode m.disk (dinodeAddr mkfsSb inum)) := by
  simp only [rinode, rsect_ok h, Except.ok_bind, Except.pure_eq_ok, Except.ok.injEq]
  exact readDinode_congr fun i hi => by
    rw [getD_readBytes (by have := slot_le inum; omega), dinodeAddr, Nat.add_assoc]

theorem winode_eq (h : (IBLOCK inum mkfsSb + 1) * BSIZE ≤ m.len) (din : Dinode) :
    winode m inum din = .ok { m with disk := writeBytes m.disk (dinodeAddr mkfsSb inum) din.bytes } := by
  simp only [winode, rsect_ok h, Except.ok_bind, Except.pure_eq_ok, Except.ok.injEq, wsect,
    writeBytes_patch_readBytes (show _ + din.bytes.length ≤ BSIZE by rw [length_bytes]; exact slot_le inum),
    max_eq_left h]
  rfl

theorem ialloc_eq (h : (IBLOCK m.freeinode mkfsSb + 1) * BSIZE ≤ m.len) (type : ℤ) :
    ialloc m type = .ok ({ m with
        freeinode := m.freeinode + 1
        disk := writeBytes m.disk (dinodeAddr mkfsSb m.freeinode) (Dinode.bytes
          { type := type, major := 0, minor := 0, nlink := 1, size := 0, addrs := Vector.replicate _ 0 }) },
      m.freeinode) := by
  simp only [ialloc, winode_eq (m := { m with freeinode := m.freeinode + 1 }) h, Except.ok_bind,
    Except.pure_eq_ok]

theorem iappendLoop_nil (fuel : ℕ) (din : Dinode) (off : ℕ) :
    iappendLoop fuel m din off [] = .ok (m, din, off) := by
  cases fuel <;> rfl

/-! ## The root directory while `mkfs` fills it -/

theorem nmeta_eq : nmeta = 46 := rfl

/-- The addresses of a directory of `n` bytes that `iappend` laid out from block `nmeta`
on, when no other inode took a block. -/
def rootAddrs (n : ℕ) : Vector ℕ (NDIRECT + 1) :=
  Vector.ofFn fun k => if k.val * BSIZE < n then nmeta + k.val else 0

/-- The root directory's inode once it holds `j` entries. -/
def rootDinode (j : ℕ) : Dinode :=
  { type := T_DIR, major := 0, minor := 0, nlink := 1, size := DIRENTSZ * j,
    addrs := rootAddrs (DIRENTSZ * j) }

/-- The blocks that `j` entries take. -/
def rootBlocks (j : ℕ) : ℕ := (DIRENTSZ * j + BSIZE - 1) / BSIZE

/-- The image while `main` adds entries to the root and no other inode has content: the
file has all `FSSIZE` sectors, and only the root's blocks were taken. -/
structure RootInv (m : Img) (j : ℕ) : Prop where
  len : m.len = FSSIZE * BSIZE
  freeblock : m.freeblock = nmeta + rootBlocks j
  root : readDinode m.disk (dinodeAddr mkfsSb ROOTINO) = rootDinode j

@[simp] theorem rootDinode_addrs (j : ℕ) : (rootDinode j).addrs = rootAddrs (DIRENTSZ * j) := rfl

theorem rootAddrs_getElem (n : ℕ) {k : ℕ} (hk : k < NDIRECT + 1) :
    (rootAddrs n)[k] = if k * BSIZE < n then nmeta + k else 0 :=
  Vector.getElem_ofFn hk

theorem rootFits {n size : ℕ} (h : size < 2 ^ 32) :
    Dinode.Fits { type := T_DIR, major := 0, minor := 0, nlink := 1, size := size, addrs := rootAddrs n } where
  type := by norm_num [T_DIR]
  major := by norm_num
  minor := by norm_num
  nlink := by norm_num
  size := h
  addrs j hj := by
    rw [rootAddrs_getElem n hj]
    split_ifs
    · simp only [nmeta_eq, NDIRECT] at hj ⊢; omega
    · decide

theorem rootDinode_fits {j : ℕ} (h : DIRENTSZ * j < 2 ^ 32) : (rootDinode j).Fits := rootFits h

/-- An entry appended at `DIRENTSZ * j` lies in block `DIRENTSZ * j / BSIZE`, which is the
root's last block or, at a block boundary, a new one. -/
theorem rootAddrs_succ {j : ℕ} (hf : DIRENTSZ * j / BSIZE < NDIRECT + 1) :
    rootAddrs (DIRENTSZ * (j + 1)) =
      (rootAddrs (DIRENTSZ * j)).set (DIRENTSZ * j / BSIZE) (nmeta + DIRENTSZ * j / BSIZE) hf := by
  refine Vector.ext fun k hk => ?_
  rw [Vector.getElem_set, rootAddrs_getElem _ hk, rootAddrs_getElem _ hk]
  split_ifs <;> simp only [DIRENTSZ, DIRSIZ, BSIZE] at * <;> omega

theorem rootBlocks_succ (j : ℕ) :
    rootBlocks (j + 1) = if DIRENTSZ * j % BSIZE = 0 then DIRENTSZ * j / BSIZE + 1 else rootBlocks j := by
  split_ifs <;> simp only [rootBlocks, DIRENTSZ, DIRSIZ, BSIZE] at * <;> omega

section Append

variable {j : ℕ} (hj : DIRENTSZ * (j + 1) ≤ NDIRECT * BSIZE)
include hj

theorem fbn_lt : DIRENTSZ * j / BSIZE < NDIRECT := by
  simp only [DIRENTSZ, DIRSIZ, BSIZE, NDIRECT] at hj ⊢
  omega

theorem root_addr_fbn :
    (rootDinode j).addr (DIRENTSZ * j / BSIZE) =
      if DIRENTSZ * j % BSIZE = 0 then 0 else nmeta + DIRENTSZ * j / BSIZE := by
  have hf : DIRENTSZ * j / BSIZE < NDIRECT + 1 := by have := fbn_lt hj; omega
  rw [Dinode.addr_eq _ hf, rootDinode, rootAddrs_getElem _ hf]
  split_ifs <;> simp only [DIRENTSZ, DIRSIZ, BSIZE] at * <;> omega

/-- `iappend`'s choice of block for entry `j` of the root: block `nmeta + fbn`, taken from
`freeblock` when the entry starts a block. -/
theorem blockFor_root (hi : RootInv m j) :
    blockFor m (rootDinode j) (DIRENTSZ * j / BSIZE) =
      .ok ({ m with freeblock := nmeta + rootBlocks (j + 1) },
        { rootDinode j with addrs := rootAddrs (DIRENTSZ * (j + 1)) }, nmeta + DIRENTSZ * j / BSIZE) := by
  have hf := fbn_lt hj
  have hf' : DIRENTSZ * j / BSIZE < NDIRECT + 1 := by omega
  rw [blockFor, if_pos hf, root_addr_fbn hj, rootBlocks_succ]
  by_cases h0 : DIRENTSZ * j % BSIZE = 0
  · -- a new block: `din.addrs[fbn] = xint(freeblock++)`
    have hfree : m.freeblock = nmeta + DIRENTSZ * j / BSIZE := by
      rw [hi.freeblock, rootBlocks]
      simp only [DIRENTSZ, DIRSIZ, BSIZE] at h0 ⊢
      omega
    have haddr : (rootAddrs (DIRENTSZ * (j + 1)))[DIRENTSZ * j / BSIZE] = nmeta + DIRENTSZ * j / BSIZE := by
      rw [rootAddrs_getElem _ hf', if_pos (by simp only [DIRENTSZ, DIRSIZ, BSIZE] at *; omega)]
    simp only [if_pos h0, if_true, Dinode.setAddr, dif_pos hf', hfree, rootDinode_addrs,
      ← rootAddrs_succ hf', Dinode.addr_eq _ hf', haddr, Nat.add_assoc]
  · -- the entry goes to the root's last block, which it already has
    have hsame : rootAddrs (DIRENTSZ * (j + 1)) = rootAddrs (DIRENTSZ * j) := Vector.ext fun k hk => by
      rw [rootAddrs_getElem _ hk, rootAddrs_getElem _ hk]
      split_ifs <;> simp only [DIRENTSZ, DIRSIZ, BSIZE] at * <;> omega
    have hpos : nmeta + DIRENTSZ * j / BSIZE ≠ 0 := by simp [nmeta_eq]
    simp only [if_neg h0, if_neg hpos, hsame, ← hi.freeblock, root_addr_fbn hj]
    rfl

/-- An entry appended to the root takes one round of `iappend`'s loop: it ends inside the
block it starts in. -/
theorem iappendLoop_root (hi : RootInv m j) {bs : List UInt8} (hbs : bs.length = DIRENTSZ) (fuel : ℕ) :
    ∃ m', iappendLoop (fuel + 1) m (rootDinode j) (DIRENTSZ * j) bs =
        .ok (m', { rootDinode j with addrs := rootAddrs (DIRENTSZ * (j + 1)) }, DIRENTSZ * (j + 1)) ∧
      m'.len = m.len ∧ m'.freeblock = nmeta + rootBlocks (j + 1) ∧ m'.freeinode = m.freeinode := by
  have hf := fbn_lt hj
  have hne : bs ≠ [] := fun h => by simp [h, DIRENTSZ, DIRSIZ] at hbs
  have hmax : DIRENTSZ * j / BSIZE < MAXFILE := by unfold MAXFILE; omega
  have hx : (nmeta + DIRENTSZ * j / BSIZE + 1) * BSIZE ≤ m.len := by
    rw [hi.len, nmeta_eq]
    simp only [NDIRECT, BSIZE, FSSIZE] at hf ⊢
    omega
  have hn1 : min bs.length ((DIRENTSZ * j / BSIZE + 1) * BSIZE - DIRENTSZ * j) = DIRENTSZ := by
    rw [hbs]
    simp only [DIRENTSZ, DIRSIZ, BSIZE]
    omega
  have hdrop : bs.drop DIRENTSZ = [] := List.drop_eq_nil_of_le hbs.le
  have hr := rsect_ok (m := { m with freeblock := nmeta + rootBlocks (j + 1) }) hx
  simp only [iappendLoop, if_neg hne, hmax, not_true_eq_false, if_false, blockFor_root hj hi,
    Except.ok_bind, hr, hn1, hdrop, iappendLoop_nil, Nat.mul_succ]
  exact ⟨_, rfl, wsect_len (m := { m with freeblock := nmeta + rootBlocks (j + 1) }) hx _, rfl, rfl⟩

theorem RootInv.iappend (hi : RootInv m j) {bs : List UInt8} (hbs : bs.length = DIRENTSZ) :
    ∃ m', Mkfs.iappend m ROOTINO bs = .ok m' ∧ RootInv m' (j + 1) ∧ m'.freeinode = m.freeinode := by
  have hroot : (IBLOCK ROOTINO mkfsSb + 1) * BSIZE ≤ m.len := by rw [hi.len]; decide
  obtain ⟨m₁, hloop, hlen, hfree, hino⟩ := iappendLoop_root hj hi hbs (DIRENTSZ - 1)
  have hloop' : iappendLoop bs.length m (rootDinode j) (rootDinode j).size bs =
      .ok (m₁, { rootDinode j with addrs := rootAddrs (DIRENTSZ * (j + 1)) }, DIRENTSZ * (j + 1)) := by
    rw [hbs]
    exact hloop
  have hsz : DIRENTSZ * (j + 1) < 2 ^ 32 := lt_of_le_of_lt hj (by norm_num [NDIRECT, BSIZE])
  have hfits := rootDinode_fits hsz
  have hrd : readDinode (writeBytes m₁.disk (dinodeAddr mkfsSb ROOTINO) (rootDinode (j + 1)).bytes)
      (dinodeAddr mkfsSb ROOTINO) = rootDinode (j + 1) := readDinode_bytes hfits
  have hinv : RootInv { m₁ with disk := writeBytes m₁.disk (dinodeAddr mkfsSb ROOTINO) (rootDinode (j + 1)).bytes }
      (j + 1) := RootInv.mk (hlen.trans hi.len) hfree (by dsimp only; exact hrd)
  refine ⟨_, ?_, hinv, hino⟩
  have hroot₁ : (IBLOCK ROOTINO mkfsSb + 1) * BSIZE ≤ m₁.len := by rw [hlen]; exact hroot
  simp only [Mkfs.iappend, rinode_eq hroot, hi.root, Except.ok_bind, hloop']
  rw [winode_eq hroot₁]
  rfl

end Append

theorem RootInv.ialloc (hi : RootInv m j) (hfree : m.freeinode = j) (h2 : 2 ≤ j)
    (hj : DIRENTSZ * (j + 1) ≤ NDIRECT * BSIZE) (type : ℤ) :
    ∃ m', Mkfs.ialloc m type = .ok (m', j) ∧ RootInv m' j ∧ m'.freeinode = j + 1 := by
  have hb : (IBLOCK m.freeinode mkfsSb + 1) * BSIZE ≤ m.len := by
    rw [hi.len, hfree, IBLOCK]
    simp only [DIRENTSZ, DIRSIZ, NDIRECT, BSIZE, IPB, DINODESZ, FSSIZE, mkfsSb, LOGSIZE, MAXOPBLOCKS] at hj ⊢
    omega
  have hslot : dinodeAddr mkfsSb ROOTINO + DINODESZ ≤ dinodeAddr mkfsSb j := by
    rw [dinodeAddr_mkfsSb, dinodeAddr_mkfsSb, ROOTINO]
    simp only [DINODESZ, NDIRECT]
    omega
  rw [ialloc_eq hb, hfree]
  refine ⟨_, rfl, ⟨hi.len, hi.freeblock, ?_⟩, rfl⟩
  dsimp only
  rw [readDinode_writeBytes_of_disjoint (.inl hslot), hi.root]

theorem length_direntBytes (inum : ℕ) (name : ℕ → UInt8) : (direntBytes inum name).length = DIRENTSZ := by
  simp [direntBytes, DIRENTSZ]

theorem foldl_wsect_zero (n fi fb : ℕ) :
    (List.range n).foldl (fun m i => wsect m i (List.replicate BSIZE 0))
        { disk := fun _ => 0, len := 0, freeinode := fi, freeblock := fb } =
      { disk := fun _ => 0, len := n * BSIZE, freeinode := fi, freeblock := fb } := by
  induction n with
  | zero => rfl
  | succ n ih =>
    rw [List.range_succ, List.foldl_append, ih, List.foldl_cons, List.foldl_nil, wsect,
      max_eq_right (Nat.mul_le_mul_right _ (Nat.le_succ n))]
    congr 1
    funext x
    simp only [writeBytes, List.getD_eq_getElem?_getD, List.getElem?_replicate]
    split_ifs <;> rfl

theorem ialloc_root (hl : m.len = FSSIZE * BSIZE) (hi : m.freeinode = ROOTINO) (hb : m.freeblock = nmeta) :
    ∃ m', ialloc m T_DIR = .ok (m', ROOTINO) ∧ RootInv m' 0 ∧ m'.freeinode = ROOTINO + 1 := by
  have hd : ({ type := T_DIR, major := 0, minor := 0, nlink := 1, size := 0,
                addrs := Vector.replicate _ 0 } : Dinode) = rootDinode 0 := by
    simp only [rootDinode, Dinode.mk.injEq, true_and]
    exact ⟨rfl, Vector.ext fun k hk => by rw [rootAddrs_getElem _ hk, if_neg (by omega)]; simp⟩
  rw [ialloc_eq (by rw [hl, hi]; decide), hi]
  refine ⟨_, rfl, ⟨hl, by rw [hb]; rfl, ?_⟩, rfl⟩
  dsimp only
  rw [hd]
  exact readDinode_bytes (rootDinode_fits (by decide))

theorem RootInv.addFile (hi : RootInv m j) (hfree : m.freeinode = j) (h2 : 2 ≤ j)
    (hj : DIRENTSZ * (j + 1) ≤ NDIRECT * BSIZE) {arg name : List UInt8} (hname : shortname arg = .ok name) :
    ∃ m', Mkfs.addFile ROOTINO m (arg, []) = .ok m' ∧ RootInv m' (j + 1) ∧ m'.freeinode = j + 1 := by
  obtain ⟨m₁, h₁, hi₁, hf₁⟩ := hi.ialloc hfree h2 hj T_FILE
  obtain ⟨m₂, h₂, hi₂, hf₂⟩ := hi₁.iappend hj (length_direntBytes j fun i => name.getD i 0)
  refine ⟨m₂, ?_, hi₂, hf₂.trans hf₁⟩
  simp only [Mkfs.addFile, hname, h₁, h₂, Except.ok_bind]
  rfl

theorem RootInv.foldlM_addFile :
    ∀ (names : List (List UInt8)) {m : Img} {j : ℕ}, RootInv m j → m.freeinode = j → 2 ≤ j →
      DIRENTSZ * (j + names.length) ≤ NDIRECT * BSIZE → (∀ a ∈ names, ∃ name, shortname a = .ok name) →
      ∃ m', (names.map fun a => (a, [])).foldlM (Mkfs.addFile ROOTINO) m = .ok m' ∧
        RootInv m' (j + names.length)
  | [], m, _, hi, _, _, _, _ => ⟨m, rfl, hi⟩
  | a :: names, m, j, hi, hfree, h2, hj, hnames => by
    obtain ⟨name, hname⟩ := hnames a List.mem_cons_self
    obtain ⟨m₁, h₁, hi₁, hf₁⟩ := hi.addFile hfree h2
      (le_trans (Nat.mul_le_mul_left _ (by simp)) hj) hname
    obtain ⟨m', h', hi'⟩ := RootInv.foldlM_addFile names hi₁ hf₁ (by omega)
      (by simpa [Nat.add_assoc, Nat.add_comm 1] using hj) fun b hb => hnames b (List.mem_cons_of_mem a hb)
    refine ⟨m', ?_, by simpa [Nat.add_assoc, Nat.add_comm 1] using hi'⟩
    rw [List.map_cons, List.foldlM_cons, h₁, Except.ok_bind, h']

theorem balloc_eq {used : ℕ} (h : used < BSIZE * 8) :
    ∃ buf : List UInt8, balloc m used = .ok (wsect m mkfsSb.bmapstart buf) := ⟨_, if_pos h⟩

/-- `mkfs` on host files with no content succeeds, and leaves a root inode whose blocks
hold the entries and whose size is rounded past them to the next block boundary. -/
theorem mkfs_root (names : List (List UInt8)) (hnames : ∀ a ∈ names, ∃ name, shortname a = .ok name)
    (hfit : DIRENTSZ * (names.length + 2) ≤ NDIRECT * BSIZE) :
    ∃ img, mkfs (names.map fun a => (a, [])) = .ok img ∧
      readDinode img.disk (dinodeAddr mkfsSb ROOTINO) =
        { rootDinode (names.length + 2) with size := (DIRENTSZ * (names.length + 2) / BSIZE + 1) * BSIZE } := by
  obtain ⟨m₁, h₁, hi₁, hf₁⟩ := ialloc_root (m := wsect
    { disk := fun _ => 0, len := FSSIZE * BSIZE, freeinode := 1, freeblock := nmeta } 1
    (sbBytes ++ List.replicate (BSIZE - sbBytes.length) 0)) (wsect_len (by decide) _) rfl rfl
  obtain ⟨m₂, h₂, hi₂, hf₂⟩ := hi₁.iappend (by decide) (length_direntBytes ROOTINO dotName)
  obtain ⟨m₃, h₃, hi₃, hf₃⟩ := hi₂.iappend (by decide) (length_direntBytes ROOTINO dotdotName)
  obtain ⟨m₄, h₄, hi₄⟩ := RootInv.foldlM_addFile names hi₃ (hf₃.trans (hf₂.trans hf₁)) le_rfl
    (by rw [Nat.add_comm]; exact hfit) hnames
  rw [show 0 + 1 + 1 + names.length = names.length + 2 by omega] at hi₄
  -- the size fix and the bitmap write
  have hl₄ : (IBLOCK ROOTINO mkfsSb + 1) * BSIZE ≤ m₄.len := by rw [hi₄.len]; decide
  have hused : m₄.freeblock < BSIZE * 8 := by
    rw [hi₄.freeblock, rootBlocks, nmeta_eq]
    simp only [DIRENTSZ, DIRSIZ, NDIRECT, BSIZE] at hfit ⊢
    omega
  set D : Dinode :=
    { rootDinode (names.length + 2) with size := (DIRENTSZ * (names.length + 2) / BSIZE + 1) * BSIZE }
  obtain ⟨buf, hb⟩ :=
    balloc_eq (m := { m₄ with disk := writeBytes m₄.disk (dinodeAddr mkfsSb ROOTINO) D.bytes }) hused
  refine ⟨wsect { m₄ with disk := writeBytes m₄.disk (dinodeAddr mkfsSb ROOTINO) D.bytes } mkfsSb.bmapstart buf,
    ?_, ?_⟩
  · simp only [mkfs, foldl_wsect_zero, h₁, Except.ok_bind, ne_eq, not_true_eq_false, if_false, h₂, h₃, h₄,
      rinode_eq hl₄, hi₄.root, winode_eq hl₄]
    exact hb
  · have hslot : dinodeAddr mkfsSb ROOTINO + DINODESZ ≤ mkfsSb.bmapstart * BSIZE := by decide
    dsimp only [wsect]
    rw [readDinode_writeBytes_of_disjoint (.inl hslot)]
    exact readDinode_bytes (rootFits (by simp only [DIRENTSZ, DIRSIZ, NDIRECT, BSIZE] at hfit ⊢; omega))

theorem mkfs_root_uncovered (names : List (List UInt8)) (hnames : ∀ a ∈ names, ∃ name, shortname a = .ok name)
    (hfit : DIRENTSZ * (names.length + 2) < NDIRECT * BSIZE)
    (hblock : DIRENTSZ * (names.length + 2) % BSIZE = 0) :
    ∃ img, mkfs (names.map fun a => (a, [])) = .ok img ∧
      (readDinode img.disk (dinodeAddr mkfsSb ROOTINO)).size = DIRENTSZ * (names.length + 2) + BSIZE ∧
      (readDinode img.disk (dinodeAddr mkfsSb ROOTINO)).addr (DIRENTSZ * (names.length + 2) / BSIZE) = 0 ∧
      ∀ (s : Fs) (ip : Fin NINODE), s.sb = mkfsSb → s.disk = img.disk → (s.itable ip).inum = ROOTINO →
        1 ≤ (s.itable ip).ref → (s.itable ip).valid = false →
        ∃ s₁, ilock s ip = .ok s₁ ∧ (s₁.itable ip).dinode = readDinode img.disk (dinodeAddr mkfsSb ROOTINO) ∧
          ∀ a s₂, bmap s₁ ip (DIRENTSZ * (names.length + 2) / BSIZE) = .ok (a, s₂) →
            a = 0 ∨ s₁.disk (bitAddr s₁.sb a) &&& bitMask a = 0 ∧
              (s₂.itable ip).dinode.addr (DIRENTSZ * (names.length + 2) / BSIZE) = a := by
  obtain ⟨img, h, hroot⟩ := mkfs_root names hnames hfit.le
  have hk : DIRENTSZ * (names.length + 2) / BSIZE < NDIRECT := by
    simp only [DIRENTSZ, DIRSIZ, NDIRECT, BSIZE] at hfit ⊢
    omega
  have haddr : (readDinode img.disk (dinodeAddr mkfsSb ROOTINO)).addr (DIRENTSZ * (names.length + 2) / BSIZE) = 0 := by
    rw [hroot, Dinode.addr_eq _ (by omega)]
    refine (rootAddrs_getElem _ (by omega)).trans (if_neg ?_)
    simp only [DIRENTSZ, DIRSIZ, BSIZE] at hblock ⊢
    omega
  refine ⟨img, h, ?_, haddr, fun s ip hsb hdisk hino href hv => ?_⟩
  · rw [hroot]
    simp only [DIRENTSZ, DIRSIZ, BSIZE] at hblock ⊢
    omega
  · have hd : readDinode s.disk (dinodeAddr s.sb (s.itable ip).inum) =
        readDinode img.disk (dinodeAddr mkfsSb ROOTINO) := by
      rw [hsb, hdisk, hino]
    refine ⟨_, ilock_of_invalid href hv (by rw [hd, hroot]; show T_DIR ≠ 0; decide), by rw [Fs.setInode_self, hd],
      fun a s₂ hb => bmap_of_addr_zero hk ?_ hb⟩
    rw [Fs.setInode_self, hd]
    exact haddr

theorem mkfs_root_uncovered_sixtytwo :
    ∃ img, mkfs ((List.replicate 62 [97]).map fun a => (a, [])) = .ok img ∧
      (readDinode img.disk (dinodeAddr mkfsSb ROOTINO)).size = DIRENTSZ * ((List.replicate 62 [97]).length + 2) + BSIZE ∧
      (readDinode img.disk (dinodeAddr mkfsSb ROOTINO)).addr
        (DIRENTSZ * ((List.replicate 62 [97]).length + 2) / BSIZE) = 0 ∧
      ∀ (s : Fs) (ip : Fin NINODE), s.sb = mkfsSb → s.disk = img.disk → (s.itable ip).inum = ROOTINO →
        1 ≤ (s.itable ip).ref → (s.itable ip).valid = false →
        ∃ s₁, ilock s ip = .ok s₁ ∧ (s₁.itable ip).dinode = readDinode img.disk (dinodeAddr mkfsSb ROOTINO) ∧
          ∀ a s₂, bmap s₁ ip (DIRENTSZ * ((List.replicate 62 [97]).length + 2) / BSIZE) = .ok (a, s₂) →
            a = 0 ∨ s₁.disk (bitAddr s₁.sb a) &&& bitMask a = 0 ∧
              (s₂.itable ip).dinode.addr (DIRENTSZ * ((List.replicate 62 [97]).length + 2) / BSIZE) = a :=
  mkfs_root_uncovered _ (fun a ha => ⟨[97], by rw [List.eq_of_mem_replicate ha]; rfl⟩) (by decide) (by decide)

end Mkfs

end Xv6
