import Xv6.Proofs.WriteFault

/-! `readi` after `writei`. The content of an inode is what its block map points at: byte
`o` lies in block `o / BSIZE` of the file at offset `o % BSIZE`. For a file whose blocks are
its own (marked in the bitmap, in the data area, distinct, apart from its indirect block)
and cover its size, a `writei` of `n` bytes at `off ≤ size` that writes them all leaves the
size at `max size (off + n)` and the content changed in `[off, off + n)` only, and `readi`
reads the content back: the blocks `bmap` allocates were free, so the file's other blocks,
the indirect entries and the bits of its blocks survive every round. -/

namespace Xv6

open ByteMem

/-! ## The content of an inode -/

/-- The disk block holding block `bn` of inode `ip`, as `bmap` finds it without allocating;
`0` for none. -/
def blockOf (s : Fs) (ip : Fin NINODE) (bn : ℕ) : ℕ :=
  if bn < NDIRECT then (s.itable ip).dinode.addr bn
  else if (s.itable ip).dinode.addr NDIRECT = 0 then 0
  else readWord s.disk ((s.itable ip).dinode.addr NDIRECT * BSIZE + 4 * (bn - NDIRECT)) 4

/-- Byte `o` of the inode's content. -/
def byteAt (s : Fs) (ip : Fin NINODE) (o : ℕ) : UInt8 :=
  s.disk (blockOf s ip (o / BSIZE) * BSIZE + o % BSIZE)

/-- Block `b`'s bit is set in the bitmap. -/
def Fs.Marked (s : Fs) (b : ℕ) : Prop := s.disk (bitAddr s.sb b) &&& bitMask b ≠ 0

instance (s : Fs) (b : ℕ) : Decidable (s.Marked b) := inferInstanceAs (Decidable (_ ≠ _))

/-- The first block after the bitmap. -/
def dataStart (sb : Superblock) : ℕ := sb.bmapstart + sb.size / BPB + 1

/-- The blocks of inode `ip` are its own: the metadata blocks and the inode's blocks are
marked in the bitmap; its blocks lie in the data area, are distinct, and differ from its
indirect block; and its inode block comes before the bitmap. -/
structure Owned (s : Fs) (ip : Fin NINODE) : Prop where
  layout : dataStart s.sb ≤ s.sb.size ∧ s.sb.size ≤ 2 ^ 32
  metaMarked : ∀ x < dataStart s.sb, s.Marked x
  inode : IBLOCK (s.itable ip).inum s.sb < s.sb.bmapstart
  ind : (s.itable ip).dinode.addr NDIRECT ≠ 0 → s.Marked ((s.itable ip).dinode.addr NDIRECT) ∧
    dataStart s.sb ≤ (s.itable ip).dinode.addr NDIRECT ∧ (s.itable ip).dinode.addr NDIRECT < s.sb.size
  data : ∀ bn < MAXFILE, blockOf s ip bn ≠ 0 → s.Marked (blockOf s ip bn) ∧ dataStart s.sb ≤ blockOf s ip bn ∧
    blockOf s ip bn < s.sb.size ∧ blockOf s ip bn ≠ (s.itable ip).dinode.addr NDIRECT
  inj : ∀ bn < MAXFILE, ∀ bn' < MAXFILE, blockOf s ip bn ≠ 0 → blockOf s ip bn = blockOf s ip bn' → bn = bn'

/-- The blocks of the first `e` bytes are allocated. -/
def Covers (s : Fs) (ip : Fin NINODE) (e : ℕ) : Prop := ∀ bn < MAXFILE, bn * BSIZE < e → blockOf s ip bn ≠ 0

/-- A file as `writei` and `readi` expect it. -/
structure FileOk (s : Fs) (ip : Fin NINODE) : Prop where
  owned : Owned s ip
  covers : Covers s ip (s.itable ip).dinode.size
  size_le : (s.itable ip).dinode.size ≤ MAXFILE * BSIZE

/-! ## Bits -/

theorem bitMask_ne_zero (b : ℕ) : bitMask b ≠ 0 := by
  have : b % BPB % 8 < 8 := Nat.mod_lt _ (by norm_num)
  unfold bitMask
  interval_cases b % BPB % 8 <;> decide

theorem or_and_ne_zero {v w m : UInt8} (h : v &&& m ≠ 0) : (v ||| w) &&& m ≠ 0 := by
  intro h'
  apply h
  have : (v ||| w) &&& m = (v &&& m) ||| (w &&& m) := by
    rw [← UInt8.toBitVec_inj]
    simp [BitVec.and_or_distrib_right]
  rw [this, UInt8.or_eq_zero_iff] at h'
  exact h'.1

theorem or_self_and_ne_zero {v m : UInt8} (hm : m ≠ 0) : (v ||| m) &&& m ≠ 0 := by
  have : (v ||| m) &&& m = m := by
    rw [← UInt8.toBitVec_inj]
    ext i
    simp only [UInt8.toBitVec_and, UInt8.toBitVec_or, BitVec.getElem_and, BitVec.getElem_or]
    cases v.toBitVec[i] <;> cases m.toBitVec[i] <;> rfl
  rw [this]
  exact hm

theorem bitAddr_lt {sb : Superblock} {x : ℕ} (hx : x < sb.size) : bitAddr sb x < dataStart sb * BSIZE := by
  have h1 : x % BPB / 8 < BSIZE := by simp only [BPB, BSIZE]; omega
  have h2 : x / BPB ≤ sb.size / BPB := Nat.div_le_div_right hx.le
  simp only [bitAddr, BBLOCK, dataStart] at *
  nlinarith

theorem Dinode.addr_setAddr_of_ne (d : Dinode) {k j : ℕ} (hjk : j ≠ k) (v : ℕ) :
    (d.setAddr k v).addr j = d.addr j := by
  unfold Dinode.setAddr Dinode.addr
  split_ifs with hk
  · simp [Vector.toList_set, List.getD_eq_getElem?_getD, Ne.symm hjk]
  · rfl

/-! ## Frames -/

/-- `t` differs from `s` only before the data area, and keeps every bit `s` has set. -/
structure MetaOnly (s t : Fs) : Prop where
  sb : t.sb = s.sb
  itable : t.itable = s.itable
  disk : ∀ y, dataStart s.sb * BSIZE ≤ y → t.disk y = s.disk y
  marks : ∀ y, s.Marked y → t.Marked y

/-- `t` differs from `s` only inside block `c` of the data area, which is not the indirect
block of inode `ip`. -/
structure InBlock (s t : Fs) (ip : Fin NINODE) (c : ℕ) : Prop where
  sb : t.sb = s.sb
  itable : t.itable = s.itable
  disk : ∀ y, y / BSIZE ≠ c → t.disk y = s.disk y
  data : dataStart s.sb ≤ c
  ind : c ≠ (s.itable ip).dinode.addr NDIRECT

/-- `t` differs from `s` only inside block `c` of the data area, which is none of the blocks
of inode `ip`. -/
structure Outside (s t : Fs) (ip : Fin NINODE) (c : ℕ) : Prop extends InBlock s t ip c where
  own : ∀ bn < MAXFILE, blockOf s ip bn ≠ c

section Frame

variable {s t : Fs} {ip : Fin NINODE} {c bn o : ℕ}

theorem blockAddr_div (b : ℕ) {r : ℕ} (hr : r < BSIZE) : (b * BSIZE + r) / BSIZE = b := by
  rw [Nat.add_comm, Nat.add_mul_div_right _ _ (by decide), Nat.div_eq_of_lt hr, Nat.zero_add]

theorem div_lt_MAXFILE (h : o < MAXFILE * BSIZE) : o / BSIZE < MAXFILE :=
  Nat.div_lt_of_lt_mul (by rwa [Nat.mul_comm] at h)

theorem sub_NDIRECT_lt (hbn : bn < MAXFILE) : bn - NDIRECT < NINDIRECT := by
  simp only [MAXFILE, NINDIRECT, NDIRECT, BSIZE] at *
  omega

theorem entry_le (hbn : bn < MAXFILE) : 4 * (bn - NDIRECT) + 4 ≤ BSIZE := by
  simp only [MAXFILE, NINDIRECT, NDIRECT, BSIZE] at *
  omega

theorem entry_div {ind : ℕ} (hbn : bn < MAXFILE) {i : ℕ} (hi : i < 4) :
    (ind * BSIZE + 4 * (bn - NDIRECT) + i) / BSIZE = ind := by
  rw [Nat.add_assoc]
  exact blockAddr_div ind (by have := entry_le hbn; omega)

theorem blockOf_congr (hi : t.itable ip = s.itable ip)
    (hd : (s.itable ip).dinode.addr NDIRECT ≠ 0 →
      ∀ y, y / BSIZE = (s.itable ip).dinode.addr NDIRECT → t.disk y = s.disk y) (hbn : bn < MAXFILE) :
    blockOf t ip bn = blockOf s ip bn := by
  unfold blockOf
  rw [hi]
  split_ifs with h1 h2
  · rfl
  · rfl
  · exact readWord_congr fun i hi' => hd h2 _ (entry_div hbn hi')

namespace MetaOnly

variable (h : MetaOnly s t) (ho : Owned s ip)
include h ho

theorem blockOf_eq (hbn : bn < MAXFILE) : blockOf t ip bn = blockOf s ip bn :=
  blockOf_congr (by rw [h.itable]) (fun hind y hy => h.disk y (by
    have := (ho.ind hind).2.1
    have : dataStart s.sb * BSIZE ≤ (s.itable ip).dinode.addr NDIRECT * BSIZE := Nat.mul_le_mul_right _ this
    have := Nat.div_mul_le_self y BSIZE
    rw [hy] at this
    omega)) hbn

theorem byteAt_eq (hbn : o / BSIZE < MAXFILE) (hb : blockOf s ip (o / BSIZE) ≠ 0) : byteAt t ip o = byteAt s ip o := by
  unfold byteAt
  rw [h.blockOf_eq ho hbn]
  refine h.disk _ ?_
  have := Nat.mul_le_mul_right BSIZE (ho.data _ hbn hb).2.1
  omega

theorem owned : Owned t ip := by
  have hi : t.itable ip = s.itable ip := by rw [h.itable]
  refine ⟨h.sb ▸ ho.layout, fun x hx => h.marks x (ho.metaMarked x (h.sb ▸ hx)), h.sb ▸ hi ▸ ho.inode,
    fun hind => ?_, fun bn hbn hb => ?_, fun bn hbn bn' hbn' hb he => ?_⟩
  · rw [hi] at hind ⊢
    obtain ⟨hm, hd, hs⟩ := ho.ind hind
    exact ⟨h.marks _ hm, h.sb ▸ hd, h.sb ▸ hs⟩
  · rw [h.blockOf_eq ho hbn] at hb ⊢
    obtain ⟨hm, hd, hs, hne⟩ := ho.data bn hbn hb
    exact ⟨h.marks _ hm, h.sb ▸ hd, h.sb ▸ hs, hi ▸ hne⟩
  · rw [h.blockOf_eq ho hbn, h.blockOf_eq ho hbn'] at *
    exact ho.inj bn hbn bn' hbn' hb he

end MetaOnly

namespace InBlock

variable (h : InBlock s t ip c)
include h

theorem blockOf_eq (hbn : bn < MAXFILE) : blockOf t ip bn = blockOf s ip bn :=
  blockOf_congr (by rw [h.itable]) (fun _ y hy => h.disk y (hy ▸ Ne.symm h.ind)) hbn

theorem byteAt_eq (hbn : o / BSIZE < MAXFILE) (hc : blockOf s ip (o / BSIZE) ≠ c) : byteAt t ip o = byteAt s ip o := by
  unfold byteAt
  rw [h.blockOf_eq hbn]
  refine h.disk _ ?_
  rw [blockAddr_div _ (Nat.mod_lt o (by decide))]
  exact hc

theorem marked_iff {y : ℕ} (hy : y < s.sb.size) : t.Marked y ↔ s.Marked y := by
  have hlt := bitAddr_lt hy
  have : dataStart s.sb * BSIZE ≤ c * BSIZE := Nat.mul_le_mul_right _ h.data
  have hne : bitAddr s.sb y / BSIZE ≠ c := by
    intro he
    have := Nat.div_mul_le_self (bitAddr s.sb y) BSIZE
    rw [he] at this
    omega
  unfold Fs.Marked
  rw [h.sb, h.disk _ hne]

theorem owned (ho : Owned s ip) : Owned t ip := by
  have hi : t.itable ip = s.itable ip := by rw [h.itable]
  have hsize : ∀ x, x < dataStart s.sb → x < s.sb.size := fun x hx => lt_of_lt_of_le hx ho.layout.1
  refine ⟨h.sb ▸ ho.layout, fun x hx => ?_, h.sb ▸ hi ▸ ho.inode, fun hind => ?_, fun bn hbn hb => ?_,
    fun bn hbn bn' hbn' hb he => ?_⟩
  · rw [h.sb] at hx
    exact (h.marked_iff (hsize x hx)).mpr (ho.metaMarked x hx)
  · rw [hi] at hind ⊢
    obtain ⟨hm, hd, hs⟩ := ho.ind hind
    exact ⟨(h.marked_iff hs).mpr hm, h.sb ▸ hd, h.sb ▸ hs⟩
  · rw [h.blockOf_eq hbn] at hb ⊢
    obtain ⟨hm, hd, hs, hne⟩ := ho.data bn hbn hb
    exact ⟨(h.marked_iff hs).mpr hm, h.sb ▸ hd, h.sb ▸ hs, hi ▸ hne⟩
  · rw [h.blockOf_eq hbn, h.blockOf_eq hbn'] at *
    exact ho.inj bn hbn bn' hbn' hb he

end InBlock

theorem Outside.byteAt_eq (h : Outside s t ip c) (hbn : o / BSIZE < MAXFILE) : byteAt t ip o = byteAt s ip o :=
  h.toInBlock.byteAt_eq hbn (h.own _ hbn)

end Frame

/-! ## Allocation -/

section Alloc

variable {s s' : Fs} {ip : Fin NINODE} {x : ℕ}

theorem logWrite_frame {b : ℕ} (h : s.logWrite b = .ok s') : s'.disk = s.disk ∧ s'.sb = s.sb ∧ s'.itable = s.itable := by
  obtain ⟨l, -, rfl⟩ := Fs.logWrite_eq_ok h
  exact ⟨rfl, rfl, rfl⟩

theorem setBit_metaOnly (hx : x < s.sb.size) :
    MetaOnly s { s with disk := writeBytes s.disk (bitAddr s.sb x) [s.disk (bitAddr s.sb x) ||| bitMask x] } ∧
      Fs.Marked { s with disk := writeBytes s.disk (bitAddr s.sb x) [s.disk (bitAddr s.sb x) ||| bitMask x] } x := by
  have hlt := bitAddr_lt hx
  have hbyte : ∀ y, writeBytes s.disk (bitAddr s.sb x) [s.disk (bitAddr s.sb x) ||| bitMask x] y =
      if y = bitAddr s.sb x then s.disk (bitAddr s.sb x) ||| bitMask x else s.disk y := by
    intro y
    by_cases he : y = bitAddr s.sb x
    · subst he
      simp [writeBytes]
    · simp only [writeBytes, List.length_singleton, if_neg he]
      split_ifs with h1 h2
      · rfl
      · omega
      · rfl
  refine ⟨⟨rfl, rfl, fun y hy => by dsimp only; rw [hbyte, if_neg (by omega)], fun y hy => ?_⟩, ?_⟩
  · unfold Fs.Marked at hy ⊢
    simp only [hbyte]
    split_ifs with he
    · rw [← he]
      exact or_and_ne_zero hy
    · exact hy
  · unfold Fs.Marked
    simp only [hbyte, if_true]
    exact or_self_and_ne_zero (bitMask_ne_zero x)

/-- What `balloc` handing out block `x` leaves: `x` lies in the data area, its bit was clear
and is set, and the block is zeroed; the superblock, the inode table, the bits that were set
and the file's blocks and bytes are as they were. -/
structure BallocPost (s s' : Fs) (ip : Fin NINODE) (x : ℕ) : Prop where
  data : dataStart s.sb ≤ x
  lt : x < s.sb.size
  clear : ¬s.Marked x
  marked : s'.Marked x
  zero : ∀ j < BSIZE, s'.disk (x * BSIZE + j) = 0
  sb : s'.sb = s.sb
  itable : s'.itable = s.itable
  marks : ∀ y < s.sb.size, s.Marked y → s'.Marked y
  blocks : ∀ b < MAXFILE, blockOf s' ip b = blockOf s ip b
  bytes : ∀ o, o / BSIZE < MAXFILE → blockOf s ip (o / BSIZE) ≠ 0 → byteAt s' ip o = byteAt s ip o

/-- `balloc` hands out no block and changes nothing, or a block of the data area whose bit
was clear: it sets the bit, which keeps the other bits, and zeroes the block, which is none
of the file's. -/
theorem balloc_cases (ho : Owned s ip) (h : balloc s = .ok (x, s')) : (x = 0 ∧ s' = s) ∨ BallocPost s s' ip x := by
  unfold balloc at h
  split at h
  · cases h
    exact .inl ⟨rfl, rfl⟩
  next y hy =>
    obtain ⟨u, hu, h⟩ := Except.bind_eq_ok.mp h
    obtain ⟨v, hv, h⟩ := Except.bind_eq_ok.mp h
    cases h
    have hxs : x < s.sb.size := List.mem_range.mp (List.mem_of_find?_eq_some hy)
    have hclear : ¬s.Marked x := by simpa [Fs.Marked] using List.find?_some hy
    unfold bzero at hv
    obtain ⟨hud, husb, huit⟩ := logWrite_frame hu
    obtain ⟨hvd, hvsb, hvit⟩ := logWrite_frame hv
    obtain ⟨hmeta, hset⟩ := setBit_metaOnly hxs
    have hm : MetaOnly s u := by
      obtain ⟨h1, h2, h3, h4⟩ := hmeta
      refine ⟨husb.trans h1, huit.trans h2, fun z hz => (congrFun hud z).trans (h3 z hz), fun z hz => ?_⟩
      unfold Fs.Marked
      rw [hud, husb]
      exact h4 z hz
    have hdata : dataStart s.sb ≤ x := Nat.le_of_not_lt fun hlt => hclear (ho.metaMarked x hlt)
    have hpos : x ≠ 0 := Nat.ne_of_gt (lt_of_lt_of_le (by simp [dataStart]) hdata)
    have hout : Outside u s' ip x := by
      refine ⟨⟨hvsb, hvit, fun z hz => ?_, hm.sb ▸ hdata, ?_⟩, fun bn hbn he => ?_⟩
      · rw [hvd]
        simp only [fill]
        split_ifs with h1 h2
        · rfl
        · exfalso
          apply hz
          simp only [BSIZE] at *
          omega
        · rfl
      · intro he
        rw [hm.itable] at he
        exact hclear (he ▸ (ho.ind (he ▸ hpos)).1)
      · rw [hm.blockOf_eq ho hbn] at he
        exact hclear (he ▸ (ho.data bn hbn (he ▸ hpos)).1)
    refine .inr ⟨hdata, hxs, hclear, ?_, fun j hj => ?_, hout.sb.trans hm.sb, hout.itable.trans hm.itable,
      fun z hz h => (hout.marked_iff (hm.sb ▸ hz)).mpr (hm.marks z h),
      fun b hb => (hout.blockOf_eq hb).trans (hm.blockOf_eq ho hb),
      fun o ho' hb => (hout.byteAt_eq ho').trans (hm.byteAt_eq ho ho' hb)⟩
    · apply (hout.marked_iff (hm.sb ▸ hxs)).mpr
      unfold Fs.Marked
      rw [hud, husb]
      exact hset
    · rw [hvd]
      simp only [fill]
      rw [if_neg (by omega), if_pos (by omega)]

/-- The file's blocks stay its own when block `bn` alone changes, to a block that was free,
and the indirect block stays or becomes a block that was free. -/
theorem Owned.grow {t : Fs} {bn : ℕ} (ho : Owned s ip) (hsb : t.sb = s.sb)
    (hinum : (t.itable ip).inum = (s.itable ip).inum) (hmarks : ∀ y < s.sb.size, s.Marked y → t.Marked y)
    (hind : (t.itable ip).dinode.addr NDIRECT ≠ 0 → t.Marked ((t.itable ip).dinode.addr NDIRECT) ∧
      dataStart s.sb ≤ (t.itable ip).dinode.addr NDIRECT ∧ (t.itable ip).dinode.addr NDIRECT < s.sb.size ∧
      ((t.itable ip).dinode.addr NDIRECT = (s.itable ip).dinode.addr NDIRECT ∨
        ¬s.Marked ((t.itable ip).dinode.addr NDIRECT)))
    (hother : ∀ bn' < MAXFILE, bn' ≠ bn → blockOf t ip bn' = blockOf s ip bn')
    (hnew : blockOf t ip bn = blockOf s ip bn ∨ (t.Marked (blockOf t ip bn) ∧ dataStart s.sb ≤ blockOf t ip bn ∧
      blockOf t ip bn < s.sb.size ∧ ¬s.Marked (blockOf t ip bn) ∧
      blockOf t ip bn ≠ (t.itable ip).dinode.addr NDIRECT)) : Owned t ip := by
  have hcase : ∀ b < MAXFILE, blockOf t ip b = blockOf s ip b ∨ (b = bn ∧ t.Marked (blockOf t ip b) ∧
      dataStart s.sb ≤ blockOf t ip b ∧ blockOf t ip b < s.sb.size ∧ ¬s.Marked (blockOf t ip b) ∧
      blockOf t ip b ≠ (t.itable ip).dinode.addr NDIRECT) := by
    intro b hb
    by_cases hbb : b = bn
    · subst hbb
      exact hnew.imp id fun h => ⟨rfl, h⟩
    · exact .inl (hother b hb hbb)
  refine ⟨hsb ▸ ho.layout, fun x hx => hmarks x (lt_of_lt_of_le (hsb ▸ hx) ho.layout.1) (ho.metaMarked x (hsb ▸ hx)),
    hsb ▸ hinum ▸ ho.inode,
    fun h => hsb ▸ ⟨(hind h).1, (hind h).2.1, (hind h).2.2.1⟩, fun b hb h0 => ?_, fun b hb b' hb' h0 he => ?_⟩
  · rcases hcase b hb with he | ⟨-, hm, hd, hs, -, hne⟩
    · rw [he] at h0 ⊢
      obtain ⟨hm, hd, hs, hne⟩ := ho.data b hb h0
      refine ⟨hmarks _ hs hm, hsb ▸ hd, hsb ▸ hs, fun heq => ?_⟩
      have hi := hind (heq ▸ h0)
      rcases hi.2.2.2 with hi' | hi'
      · exact hne (heq.trans hi')
      · exact hi' (heq ▸ hm)
    · exact ⟨hm, hsb ▸ hd, hsb ▸ hs, hne⟩
  · rcases hcase b hb with e1 | ⟨rfl, -, -, -, hf1, -⟩ <;> rcases hcase b' hb' with e2 | ⟨rfl, -, -, -, hf2, -⟩
    · rw [e1, e2] at he
      exact ho.inj b hb b' hb' (e1 ▸ h0) he
    · rw [e1] at he h0
      exact absurd (he ▸ (ho.data b hb h0).1) hf2
    · rw [e2] at he
      exact absurd (he ▸ (ho.data b' hb' (he ▸ h0)).1) hf1
    · rfl

end Alloc

/-! ## `bmap` -/

/-- What `bmap s ip bn` returning `(a, s')` leaves: the file's blocks are its own, its size,
inode number and the superblock are as in `s`, `a` is `0` or block `bn` of the file, a block
the file had comes back with nothing changed, and the file's other blocks and their bytes
are as they were. -/
structure BmapPost (s s' : Fs) (ip : Fin NINODE) (bn a : ℕ) : Prop where
  owned : Owned s' ip
  sb : s'.sb = s.sb
  size : (s'.itable ip).dinode.size = (s.itable ip).dinode.size
  inum : (s'.itable ip).inum = (s.itable ip).inum
  block : a = 0 ∨ blockOf s' ip bn = a
  had : blockOf s ip bn ≠ 0 → a = blockOf s ip bn ∧ s' = s
  other : ∀ bn' < MAXFILE, bn' ≠ bn → blockOf s' ip bn' = blockOf s ip bn'
  bytes : ∀ o, o / BSIZE < MAXFILE → o / BSIZE ≠ bn → blockOf s ip (o / BSIZE) ≠ 0 → byteAt s' ip o = byteAt s ip o

section Bmap

variable {s s' t : Fs} {ip : Fin NINODE} {bn a x : ℕ}

theorem BmapPost.hit (ho : Owned s ip) : BmapPost s s ip bn (blockOf s ip bn) :=
  ⟨ho, rfl, rfl, rfl, .inr rfl, fun _ => ⟨rfl, rfl⟩, fun _ _ _ => rfl, fun _ _ _ _ => rfl⟩

theorem BmapPost.miss (ho : Owned s ip) (h0 : blockOf s ip bn = 0) : BmapPost s s ip bn 0 :=
  ⟨ho, rfl, rfl, rfl, .inl rfl, fun h => absurd h0 h, fun _ _ _ => rfl, fun _ _ _ _ => rfl⟩

theorem blockOf_setDirect {k v : ℕ} (hk : k < NDIRECT) (b : ℕ) :
    blockOf (t.setInode ip { t.itable ip with dinode := (t.itable ip).dinode.setAddr k v }) ip b =
      if b = k then v else blockOf t ip b := by
  have hne : NDIRECT ≠ k := Nat.ne_of_gt hk
  unfold blockOf
  simp only [Fs.setInode_self]
  by_cases hb : b < NDIRECT
  · rw [if_pos hb, if_pos hb]
    by_cases hbk : b = k
    · subst hbk
      rw [if_pos rfl, Dinode.addr_setAddr _ (by omega)]
    · rw [if_neg hbk, Dinode.addr_setAddr_of_ne _ hbk]
  · have hbk : b ≠ k := fun e => hb (e ▸ hk)
    rw [if_neg hb, if_neg hb, if_neg hbk, Dinode.addr_setAddr_of_ne _ hne]
    rfl

theorem byteAt_setInode {i : Inode} {o : ℕ}
    (hb : blockOf (t.setInode ip i) ip (o / BSIZE) = blockOf t ip (o / BSIZE)) :
    byteAt (t.setInode ip i) ip o = byteAt t ip o := by
  unfold byteAt
  rw [hb]
  rfl

theorem BmapPost.direct (ho : Owned s ip) (hk : bn < NDIRECT) (h0 : blockOf s ip bn = 0)
    (h : balloc s = .ok (x, t)) (hx : x ≠ 0) :
    BmapPost s (t.setInode ip { t.itable ip with dinode := (t.itable ip).dinode.setAddr bn x }) ip bn x := by
  obtain ⟨rfl, -⟩ | hb := balloc_cases ho h
  · exact absurd rfl hx
  have hit : t.itable ip = s.itable ip := by rw [hb.itable]
  have hind : (s.itable ip).dinode.addr NDIRECT ≠ x := fun he => hb.clear (he ▸ (ho.ind (he ▸ hx)).1)
  refine ⟨?_, by simp [hb.sb], by simp [hit, Dinode.setAddr], by simp [hit], .inr ?_, fun h => absurd h0 h,
    fun b hb' hne => ?_, fun o ho' hne hb' => ?_⟩
  · have hi_eq : ((t.setInode ip { t.itable ip with dinode := (t.itable ip).dinode.setAddr bn x }).itable ip).dinode.addr
        NDIRECT = (s.itable ip).dinode.addr NDIRECT := by
      simp [hit, Dinode.addr_setAddr_of_ne _ (Nat.ne_of_gt hk)]
    refine ho.grow (by simp [hb.sb]) (by simp [hit]) hb.marks (fun hi => ?_)
      (fun b hb' hne => by rw [blockOf_setDirect hk, if_neg hne, hb.blocks b hb']) (.inr ?_)
    · rw [hi_eq] at hi ⊢
      obtain ⟨hmi, hdi, hsi⟩ := ho.ind hi
      exact ⟨hb.marks _ hsi hmi, hdi, hsi, .inl rfl⟩
    · rw [blockOf_setDirect hk, if_pos rfl, hi_eq]
      exact ⟨hb.marked, hb.data, hb.lt, hb.clear, Ne.symm hind⟩
  · rw [blockOf_setDirect hk, if_pos rfl]
  · rw [blockOf_setDirect hk, if_neg hne, hb.blocks b hb']
  · rw [byteAt_setInode (by rw [blockOf_setDirect hk, if_neg hne]), hb.bytes o ho' hb']

theorem BmapPost.trans (h1 : BmapPost s t ip bn 0) (h0 : blockOf s ip bn = 0) (h2 : BmapPost t s' ip bn a) : BmapPost s s' ip bn a := by
  refine ⟨h2.owned, h2.sb.trans h1.sb, h2.size.trans h1.size, h2.inum.trans h1.inum, h2.block,
    fun h => absurd h0 h, fun b hb hne => (h2.other b hb hne).trans (h1.other b hb hne), fun o ho hne hb => ?_⟩
  rw [h2.bytes o ho hne (by rwa [h1.other _ ho hne]), h1.bytes o ho hne hb]

/-- The indirect block `bmapIndirect` allocates: a zeroed block, so the file's indirect
blocks are still none. -/
theorem BmapPost.newInd (ho : Owned s ip) (hind : (s.itable ip).dinode.addr NDIRECT = 0) (hbn : NDIRECT ≤ bn)
    (hbn' : bn < MAXFILE) (h : balloc s = .ok (x, t)) (hx : x ≠ 0) :
    BmapPost s (t.setInode ip { t.itable ip with dinode := (t.itable ip).dinode.setAddr NDIRECT x }) ip bn 0 ∧
      blockOf (t.setInode ip { t.itable ip with dinode := (t.itable ip).dinode.setAddr NDIRECT x }) ip bn = 0 := by
  obtain ⟨rfl, -⟩ | hb := balloc_cases ho h
  · exact absurd rfl hx
  set t' := t.setInode ip { t.itable ip with dinode := (t.itable ip).dinode.setAddr NDIRECT x }
  have hit : t.itable ip = s.itable ip := by rw [hb.itable]
  have hi' : (t'.itable ip).dinode.addr NDIRECT = x := by
    simp only [t', Fs.setInode_self]
    exact Dinode.addr_setAddr _ (by omega) _
  -- the old file has no indirect block, the new one an empty one
  have hblk : ∀ b < MAXFILE, blockOf t' ip b = blockOf s ip b := by
    intro b hb'
    by_cases hd : b < NDIRECT
    · simp only [blockOf, if_pos hd, t', Fs.setInode_self, hit, Dinode.addr_setAddr_of_ne _ (Nat.ne_of_lt hd)]
    · have hw : readWord t.disk (x * BSIZE + 4 * (b - NDIRECT)) 4 = 0 := by
        rw [show (0 : ℕ) = 0 % 256 ^ 4 from rfl]
        refine readWord_of_bytes fun i hi => ?_
        rw [Nat.add_assoc, hb.zero _ (by have := entry_le hb'; omega)]
        simp
      simp only [blockOf, if_neg hd, hind, hi', hx, if_false, if_true]
      exact hw
  have hs0 : blockOf s ip bn = 0 := by simp [blockOf, show ¬bn < NDIRECT by omega, hind]
  refine ⟨⟨?_, by simp [t', hb.sb], by simp [t', hit, Dinode.setAddr], by simp [t', hit], .inl rfl,
    fun h => absurd hs0 h, fun b hb' _ => hblk b hb', fun o ho' _ hb' => ?_⟩, (hblk bn hbn').trans hs0⟩
  · exact ho.grow (by simp [t', hb.sb]) (by simp [t', hit]) hb.marks
      (fun _ => by rw [hi']; exact ⟨hb.marked, hb.data, hb.lt, .inr hb.clear⟩) (fun b hb' _ => hblk b hb')
      (.inl (hblk bn hbn'))
  · rw [byteAt_setInode ((hblk _ ho').trans (hb.blocks _ ho').symm), hb.bytes o ho' hb']

theorem BmapPost.entry (ho : Owned s ip) (hind : (s.itable ip).dinode.addr NDIRECT ≠ 0) (hbn : NDIRECT ≤ bn)
    (hbn' : bn < MAXFILE) (h0 : blockOf s ip bn = 0) (h : balloc s = .ok (x, t)) (hx : x ≠ 0)
    (hl : { t with disk := writeWord t.disk ((s.itable ip).dinode.addr NDIRECT * BSIZE + 4 * (bn - NDIRECT)) 4 x }.logWrite
      ((s.itable ip).dinode.addr NDIRECT) = .ok s') :
    BmapPost s s' ip bn x := by
  obtain ⟨rfl, -⟩ | hb := balloc_cases ho h
  · exact absurd rfl hx
  obtain ⟨hd', hsb', hit'⟩ := logWrite_frame hl
  simp only at hd' hsb' hit'
  obtain ⟨hmi, hdi, hsi⟩ := ho.ind hind
  have hN := entry_le hbn'
  have hdi' : dataStart s.sb * BSIZE ≤ (s.itable ip).dinode.addr NDIRECT * BSIZE := Nat.mul_le_mul_right _ hdi
  -- the entry write stays inside the indirect block
  have hbelow : ∀ y < dataStart s.sb * BSIZE, s'.disk y = t.disk y := fun y hy => by
    rw [hd']
    exact writeWord_of_not_mem (.inl (by omega))
  have hoff : ∀ c r, c ≠ (s.itable ip).dinode.addr NDIRECT → r < BSIZE → s'.disk (c * BSIZE + r) = t.disk (c * BSIZE + r) := by
    intro c r hc hr
    rw [hd']
    refine writeWord_of_not_mem ?_
    simp only [BSIZE] at hr hN ⊢
    omega
  have hblk : ∀ b < MAXFILE, blockOf s' ip b = if b = bn then x else blockOf s ip b := by
    intro b hb'
    by_cases hbd : b < NDIRECT
    · rw [if_neg (by omega), ← hb.blocks b hb']
      simp only [blockOf, if_pos hbd, hit']
    · rw [← hb.blocks b hb']
      simp only [blockOf, if_neg hbd, hit', hb.itable, if_neg hind, hd']
      split_ifs with hbb
      · subst hbb
        rw [readWord_writeWord]
        exact Nat.mod_eq_of_lt (lt_of_lt_of_le hb.lt ho.layout.2)
      · refine readWord_congr fun i hi => writeWord_of_not_mem ?_
        have := entry_le hb'
        omega
  have hmt : ∀ y < s.sb.size, t.Marked y → s'.Marked y := fun y hy ht => by
    unfold Fs.Marked at ht ⊢
    rw [hsb'.trans hb.sb, hbelow _ (bitAddr_lt hy)]
    rwa [hb.sb] at ht
  have hsame : ∀ y < s.sb.size, s.Marked y → s'.Marked y := fun y hy h => hmt y hy (hb.marks y hy h)
  have hind' : (s'.itable ip).dinode.addr NDIRECT = (s.itable ip).dinode.addr NDIRECT := by rw [hit', hb.itable]
  refine ⟨?_, hsb'.trans hb.sb, by rw [hit', hb.itable], by rw [hit', hb.itable],
    .inr (by rw [hblk bn hbn', if_pos rfl]), fun h => absurd h0 h, fun b hb' hne => by rw [hblk b hb', if_neg hne],
    fun o ho' hne hb' => ?_⟩
  · refine ho.grow (hsb'.trans hb.sb) (by rw [hit', hb.itable]) hsame (fun _ => ?_)
      (fun b hb' hne => by rw [hblk b hb', if_neg hne]) (.inr ?_)
    · rw [hind']
      exact ⟨hsame _ hsi hmi, hdi, hsi, .inl rfl⟩
    · rw [hblk bn hbn', if_pos rfl, hind']
      exact ⟨hmt x hb.lt hb.marked, hb.data, hb.lt, hb.clear, fun he => hb.clear (he ▸ hmi)⟩
  · have hc := (ho.data _ ho' hb').2.2.2
    have hts : byteAt s' ip o = byteAt t ip o := by
      unfold byteAt
      rw [hblk _ ho', if_neg hne, hoff _ _ hc (Nat.mod_lt _ (by decide)), hb.blocks _ ho']
    rw [hts, hb.bytes o ho' hb']

theorem balloc_zero (ho : Owned s ip) (h : balloc s = .ok (0, t)) : t = s := by
  rcases balloc_cases ho h with ⟨-, rfl⟩ | hb
  · rfl
  · exact absurd hb.data (by simp [dataStart])

theorem bmapIndirect_post (ho : Owned s ip) (hbn : NDIRECT ≤ bn) (hbn' : bn < MAXFILE)
    (h : bmapIndirect s ip (bn - NDIRECT) = .ok (a, s')) : BmapPost s s' ip bn a := by
  have hd : ¬bn < NDIRECT := Nat.not_lt.mpr hbn
  unfold bmapIndirect at h
  rw [Except.bind_eq_ok] at h
  obtain ⟨⟨ind, sA⟩, hA, h⟩ := h
  dsimp only at h
  have hbs : (s.itable ip).dinode.addr NDIRECT = 0 → blockOf s ip bn = 0 := fun h => by simp [blockOf, hd, h]
  -- the first half: the indirect block, allocated if need be
  have hA' : (ind = 0 ∧ sA = s ∧ blockOf s ip bn = 0) ∨
      (ind ≠ 0 ∧ (sA.itable ip).dinode.addr NDIRECT = ind ∧ Owned sA ip ∧
        (sA = s ∨ BmapPost s sA ip bn 0 ∧ blockOf s ip bn = 0)) := by
    split_ifs at hA with hind
    · cases hA
      exact .inr ⟨hind, rfl, ho, .inl rfl⟩
    · obtain ⟨⟨a1, s1⟩, hb1, hA⟩ := Except.bind_eq_ok.mp hA
      simp only [pure, Except.pure, Except.ok.injEq, Prod.mk.injEq] at hA
      obtain ⟨rfl, rfl⟩ := hA
      have hind0 : (s.itable ip).dinode.addr NDIRECT = 0 := by simpa using hind
      by_cases ha1 : a1 = 0
      · subst ha1
        rw [if_pos rfl, balloc_zero ho hb1]
        exact .inl ⟨rfl, rfl, hbs hind0⟩
      · rw [if_neg ha1]
        obtain ⟨hpA, -⟩ := BmapPost.newInd ho hind0 hbn hbn' hb1 ha1
        refine .inr ⟨ha1, ?_, hpA.owned, .inr ⟨hpA, hbs hind0⟩⟩
        simp only [Fs.setInode_self]
        exact Dinode.addr_setAddr _ (by omega) _
  rcases hA' with ⟨rfl, rfl, h0⟩ | ⟨hind, hiA, hoA, hrel⟩
  · rw [if_pos rfl] at h
    cases h
    exact BmapPost.miss ho h0
  -- the second half: the entry of the block in the indirect block
  have hpost : BmapPost sA s' ip bn a := by
    have hbl : blockOf sA ip bn = readWord sA.disk (ind * BSIZE + 4 * (bn - NDIRECT)) 4 := by
      simp [blockOf, hd, hiA, hind]
    simp only [if_neg hind] at h
    split_ifs at h with he
    · cases h
      rw [← hbl]
      exact BmapPost.hit hoA
    · obtain ⟨⟨x, sB⟩, hbal, h⟩ := Except.bind_eq_ok.mp h
      have h0 : blockOf sA ip bn = 0 := by rw [hbl]; simpa using he
      split_ifs at h with hx
      · cases h
        subst hx
        rw [balloc_zero hoA hbal]
        exact BmapPost.miss hoA h0
      · obtain ⟨s'', hl, h⟩ := Except.bind_eq_ok.mp h
        cases h
        rw [← hiA] at hl
        exact BmapPost.entry hoA (hiA ▸ hind) hbn hbn' h0 hbal hx hl
  rcases hrel with rfl | ⟨hpA, h0⟩
  · exact hpost
  · exact hpA.trans h0 hpost

theorem bmap_post (ho : Owned s ip) (hbn : bn < MAXFILE) (h : bmap s ip bn = .ok (a, s')) :
    BmapPost s s' ip bn a := by
  unfold bmap at h
  by_cases hd : bn < NDIRECT
  · have hb : blockOf s ip bn = (s.itable ip).dinode.addr bn := by simp [blockOf, hd]
    rw [if_pos hd] at h
    dsimp only at h
    split_ifs at h with ha
    · cases h
      rw [← hb]
      exact BmapPost.hit ho
    · obtain ⟨⟨x, t⟩, hbal, h⟩ := Except.bind_eq_ok.mp h
      have h0 : blockOf s ip bn = 0 := by rw [hb]; simpa using ha
      split_ifs at h with hx
      · cases h
        subst hx
        rw [balloc_zero ho hbal]
        exact BmapPost.miss ho h0
      · cases h
        exact BmapPost.direct ho hd h0 hbal hx
  · rw [if_neg hd, if_pos (sub_NDIRECT_lt hbn)] at h
    exact bmapIndirect_post ho (Nat.le_of_not_lt hd) hbn h

end Bmap

/-! ## `readi` -/

section Read

variable {s : Fs} {ip : Fin NINODE} {bn off n : ℕ}

theorem same_block {i : ℕ} (h : off % BSIZE + i < BSIZE) :
    (off + i) / BSIZE = off / BSIZE ∧ (off + i) % BSIZE = off % BSIZE + i := by
  simp only [BSIZE] at *
  omega

theorem bmap_of_ne (hbn : bn < MAXFILE) (hb : blockOf s ip bn ≠ 0) : bmap s ip bn = .ok (blockOf s ip bn, s) := by
  unfold bmap
  by_cases hd : bn < NDIRECT
  · have he : blockOf s ip bn = (s.itable ip).dinode.addr bn := by simp [blockOf, hd]
    rw [he] at hb ⊢
    simp [hd, hb]
  · have hind : (s.itable ip).dinode.addr NDIRECT ≠ 0 := fun h => hb (by simp [blockOf, hd, h])
    have he : blockOf s ip bn = readWord s.disk ((s.itable ip).dinode.addr NDIRECT * BSIZE + 4 * (bn - NDIRECT)) 4 := by
      simp [blockOf, hd, hind]
    rw [he] at hb ⊢
    rw [if_neg hd, if_pos (sub_NDIRECT_lt hbn)]
    simp [bmapIndirect, hind, hb]

theorem readBytes_block {m : ℕ} (hm : off % BSIZE + m ≤ BSIZE) :
    readBytes s.disk (blockOf s ip (off / BSIZE) * BSIZE + off % BSIZE) m = (List.range' off m).map (byteAt s ip) := by
  apply List.ext_getElem (by simp)
  intro i hi _
  simp only [length_readBytes] at hi
  obtain ⟨hdiv, hmod⟩ := same_block (show off % BSIZE + i < BSIZE by omega)
  simp [readBytes, byteAt, hdiv, hmod, Nat.add_assoc]

theorem readiLoop_eq (fuel : ℕ) (hc : Covers s ip (off + n)) (hle : off + n ≤ MAXFILE * BSIZE) (hf : n ≤ fuel)
    (acc : List UInt8) : readiLoop ip fuel s off n acc = .ok (acc ++ (List.range' off n).map (byteAt s ip), s) := by
  induction fuel generalizing off n acc with
  | zero =>
    obtain rfl : n = 0 := Nat.le_zero.mp hf
    simp [readiLoop]
  | succ fuel ih =>
    by_cases hn : n = 0
    · subst hn
      simp [readiLoop]
    have hpos : 0 < BSIZE - off % BSIZE := Nat.sub_pos_of_lt (Nat.mod_lt _ (by decide))
    have hbn : off / BSIZE < MAXFILE := div_lt_MAXFILE (by omega)
    have hb : blockOf s ip (off / BSIZE) ≠ 0 := hc _ hbn (by have := Nat.div_mul_le_self off BSIZE; omega)
    have hm : off % BSIZE + min n (BSIZE - off % BSIZE) ≤ BSIZE := by omega
    -- the rest of the range, from the end of this block on
    have hrest := @ih (off + min n (BSIZE - off % BSIZE)) (n - min n (BSIZE - off % BSIZE))
      (by rwa [Nat.add_assoc, Nat.add_sub_cancel' (Nat.min_le_left _ _)]) (by omega) (by omega)
      (acc ++ readBytes s.disk (blockOf s ip (off / BSIZE) * BSIZE + off % BSIZE) (min n (BSIZE - off % BSIZE)))
    rw [readiLoop, if_neg hn, bmap_of_ne hbn hb]
    simp only [bind, Except.bind, if_neg hb]
    rw [hrest, readBytes_block hm, List.append_assoc, ← List.map_append, List.range'_append_1,
      Nat.add_sub_cancel' (Nat.min_le_left _ _)]

/-- `readi` on a file whose blocks cover its size reads the file's bytes from `o` on: none
past the end, and no more than the file holds. -/
theorem readi_eq {o k : ℕ} (hf : FileOk s ip) (hk : o + k < 2 ^ 32) :
    readi s ip o k = .ok ((if (s.itable ip).dinode.size < o then [] else
      (List.range' o (min k ((s.itable ip).dinode.size - o))).map (byteAt s ip)), s) := by
  unfold readi
  have hwrap : ¬(o + k) % 2 ^ 32 < o := by rw [Nat.mod_eq_of_lt hk]; omega
  by_cases ho : (s.itable ip).dinode.size < o
  · simp [ho]
  · have hmin : (if (s.itable ip).dinode.size < o + k then (s.itable ip).dinode.size - o else k) =
        min k ((s.itable ip).dinode.size - o) := by split_ifs <;> omega
    have hle : o + min k ((s.itable ip).dinode.size - o) ≤ (s.itable ip).dinode.size := by omega
    simp only [ho, hwrap, or_self, if_false, hmin]
    rw [readiLoop_eq _ (fun bn hbn h => hf.covers bn hbn (by omega)) (hle.trans hf.size_le) le_rfl]
    rfl

end Read

/-! ## `writei` -/

/-- What the loop of `writei` from `t` at `cur`, with `r` still to write, leaves when it
stops at `off'`: the file's blocks are its own, the blocks of the first `max e off'` bytes
are allocated when those of the first `e` were, and below `max e off'` the bytes in
`[cur, off')` are `r`'s and the others are as they were. -/
structure WritePost (t t' : Fs) (ip : Fin NINODE) (e cur : ℕ) (r : List UInt8) (off' : ℕ) : Prop where
  owned : Owned t' ip
  sb : t'.sb = t.sb
  size : (t'.itable ip).dinode.size = (t.itable ip).dinode.size
  inum : (t'.itable ip).inum = (t.itable ip).inum
  range : cur ≤ off' ∧ off' ≤ cur + r.length
  covers : Covers t' ip (max e off')
  bytes : ∀ o < max e off', byteAt t' ip o = if cur ≤ o ∧ o < off' then r.getD (o - cur) 0 else byteAt t ip o

section Write

variable {s s' t tb t1 t' : Fs} {ip : Fin NINODE} {e cur off' a : ℕ} {r : List UInt8}

theorem writeBytes_block {m : ℕ → UInt8} {a c x : ℕ} {bs : List UInt8} :
    writeBytes m (a * BSIZE + c) bs (a * BSIZE + x) =
      if c ≤ x ∧ x < c + bs.length then bs.getD (x - c) 0 else m (a * BSIZE + x) := by
  unfold writeBytes
  by_cases h1 : x < c
  · rw [if_pos (by omega), if_neg (by omega)]
  · rw [if_neg (by omega), Nat.add_sub_add_left]
    by_cases h2 : x < c + bs.length
    · rw [if_pos (by omega), if_pos ⟨Nat.le_of_not_lt h1, h2⟩]
    · rw [if_neg (by omega), if_neg (by omega)]

theorem offset_in_block {o m : ℕ} (hq : o / BSIZE = cur / BSIZE) :
    (cur % BSIZE ≤ o % BSIZE ∧ o % BSIZE < cur % BSIZE + m ↔ cur ≤ o ∧ o < cur + m) ∧
      o % BSIZE - cur % BSIZE = o - cur := by
  simp only [BSIZE] at *
  omega

theorem div_eq_of_round {o m : ℕ} (hm : cur % BSIZE + m ≤ BSIZE) (h1 : cur ≤ o) (h2 : o < cur + m) :
    o / BSIZE = cur / BSIZE := by
  simp only [BSIZE] at *
  omega

theorem WritePost.refl (ho : Owned t ip) (hc : Covers t ip e) (hce : cur ≤ e) : WritePost t t ip e cur r cur := by
  refine ⟨ho, rfl, rfl, rfl, ⟨le_rfl, Nat.le_add_right _ _⟩, by rwa [max_eq_left hce], fun o _ => ?_⟩
  rw [if_neg (by omega)]

theorem BmapPost.covers {bn : ℕ} (hp : BmapPost t tb ip bn a) (hc : Covers t ip e) (he : e ≤ MAXFILE * BSIZE) :
    Covers tb ip e ∧ ∀ o < e, byteAt tb ip o = byteAt t ip o := by
  by_cases hbe : bn < MAXFILE ∧ bn * BSIZE < e
  · obtain ⟨-, rfl⟩ := hp.had (hc bn hbe.1 hbe.2)
    exact ⟨hc, fun _ _ => rfl⟩
  refine ⟨fun b hb hbe' => ?_, fun o ho => ?_⟩
  · have hne : b ≠ bn := fun h => hbe ⟨h ▸ hb, h ▸ hbe'⟩
    rw [hp.other b hb hne]
    exact hc b hb hbe'
  · have hdiv := Nat.div_mul_le_self o BSIZE
    have hq : o / BSIZE < MAXFILE := div_lt_MAXFILE (by omega)
    exact hp.bytes o hq (fun h => hbe ⟨h ▸ hq, h ▸ by omega⟩) (hc _ hq (by omega))

theorem WritePost.stop (hp : BmapPost t tb ip (cur / BSIZE) 0) (hc : Covers t ip e) (hce : cur ≤ e)
    (he : e ≤ MAXFILE * BSIZE) : WritePost t tb ip e cur r cur := by
  obtain ⟨hcov, hbyt⟩ := hp.covers hc he
  refine ⟨hp.owned, hp.sb, hp.size, hp.inum, ⟨le_rfl, Nat.le_add_right _ _⟩, by rwa [max_eq_left hce], fun o ho => ?_⟩
  rw [max_eq_left hce] at ho
  rw [if_neg (by omega), hbyt o ho]

/-- One round of the loop of `writei`: `bmap` finds block `a` for the block of `cur`, and
the round stores the first `m` bytes of `r` there, up to the end of the block. -/
theorem WritePost.round (hc : Covers t ip e) (hce : cur ≤ e) (he : e ≤ MAXFILE * BSIZE)
    (hbn : cur / BSIZE < MAXFILE) (hp : BmapPost t tb ip (cur / BSIZE) a) (ha : a ≠ 0) {m : ℕ}
    (hm : m = min r.length (BSIZE - cur % BSIZE))
    (hl : { tb with disk := writeBytes tb.disk (a * BSIZE + cur % BSIZE) (r.take m) }.logWrite a = .ok t1) :
    WritePost t t1 ip e cur r (cur + m) := by
  obtain ⟨hcov, hbyt⟩ := hp.covers hc he
  have hblk : blockOf tb ip (cur / BSIZE) = a := hp.block.resolve_left ha
  have hmB : cur % BSIZE + m ≤ BSIZE := by have := Nat.mod_lt cur (show 0 < BSIZE by decide); omega
  have hlen : (r.take m).length = m := List.length_take_of_le (by omega)
  obtain ⟨hd, hsb, hit⟩ := logWrite_frame hl
  dsimp only at hd hsb hit
  obtain ⟨-, hdata, -, hind⟩ := hp.owned.data _ hbn (hblk ▸ ha)
  rw [hblk] at hdata hind
  have hin : InBlock tb t1 ip a := by
    refine ⟨hsb, hit, fun y hy => ?_, hdata, hind⟩
    rw [hd]
    unfold writeBytes
    split_ifs with h1 h2
    · rfl
    · exfalso
      apply hy
      simp only [BSIZE] at *
      omega
    · rfl
  have hq : ∀ o < max e (cur + m), o / BSIZE < MAXFILE := fun o ho => by
    simp only [MAXFILE, NINDIRECT, NDIRECT, BSIZE] at *
    omega
  refine ⟨hin.owned hp.owned, hsb.trans hp.sb, by rw [hit, hp.size], by rw [hit, hp.inum], ⟨by omega, by omega⟩,
    fun b hb hbe => ?_, fun o ho => ?_⟩
  · rw [hin.blockOf_eq hb]
    by_cases hbe' : b * BSIZE < e
    · exact hcov b hb hbe'
    · have : b = cur / BSIZE := by simp only [BSIZE] at *; omega
      rw [this, hblk]
      exact ha
  · by_cases hob : o / BSIZE = cur / BSIZE
    · obtain ⟨hiff, hsub⟩ := offset_in_block (m := m) hob
      have hat : byteAt t1 ip o = writeBytes tb.disk (a * BSIZE + cur % BSIZE) (r.take m) (a * BSIZE + o % BSIZE) := by
        rw [← hd]
        unfold byteAt
        rw [hin.blockOf_eq (hq o ho), hob, hblk]
      rw [hat, writeBytes_block, hlen]
      by_cases hw : cur ≤ o ∧ o < cur + m
      · rw [if_pos (hiff.mpr hw), if_pos hw, hsub, List.getD_eq_getElem?_getD, List.getD_eq_getElem?_getD,
          List.getElem?_take_of_lt (by omega)]
      · rw [if_neg (fun h => hw (hiff.mp h)), if_neg hw, ← hbyt o (by omega)]
        unfold byteAt
        rw [hob, hblk]
    · have hne : blockOf tb ip (o / BSIZE) ≠ a := fun h =>
        hob (hp.owned.inj _ (hq o ho) _ hbn (h ▸ ha) (h.trans hblk.symm))
      have hw : ¬(cur ≤ o ∧ o < cur + m) := fun h => hob (div_eq_of_round hmB h.1 h.2)
      rw [hin.byteAt_eq (hq o ho) hne, if_neg hw, hbyt o (by omega)]

theorem WritePost.trans {k : ℕ} (h1 : WritePost t t1 ip e cur r (cur + k))
    (h2 : WritePost t1 t' ip (max e (cur + k)) (cur + k) (r.drop k) off') : WritePost t t' ip e cur r off' := by
  have hk := h1.range.2
  have hk' := h2.range
  have hmax : max (max e (cur + k)) off' = max e off' := by omega
  refine ⟨h2.owned, h2.sb.trans h1.sb, h2.size.trans h1.size, h2.inum.trans h1.inum, ⟨by omega, ?_⟩,
    hmax ▸ h2.covers, fun o ho => ?_⟩
  · simp only [List.length_drop] at hk'
    omega
  · rw [h2.bytes o (hmax ▸ ho)]
    by_cases hw : cur + k ≤ o ∧ o < off'
    · rw [if_pos hw, if_pos ⟨by omega, hw.2⟩, List.getD_eq_getElem?_getD, List.getD_eq_getElem?_getD,
        List.getElem?_drop]
      congr 2
      omega
    · rw [if_neg hw, h1.bytes o (by omega)]
      by_cases hw' : cur ≤ o ∧ o < cur + k
      · rw [if_pos hw', if_pos ⟨hw'.1, by omega⟩]
      · rw [if_neg hw', if_neg (by omega)]

/-- The loop of `writei`, from any state whose blocks are the file's own: each round is
`WritePost.round`, the last `WritePost.stop` or `WritePost.refl`. -/
theorem writeiLoop_post (fuel : ℕ) (ho : Owned t ip) (hc : Covers t ip e) (hce : cur ≤ e)
    (he : e ≤ MAXFILE * BSIZE) (hend : cur + r.length ≤ MAXFILE * BSIZE)
    (h : writeiLoop ip fuel t cur r = .ok (off', t')) : WritePost t t' ip e cur r off' := by
  induction fuel generalizing t cur r e with
  | zero =>
    cases h
    exact .refl ho hc hce
  | succ fuel ih =>
    by_cases hr : r = []
    · rw [writeiLoop, if_pos hr] at h
      cases h
      exact .refl ho hc hce
    rw [writeiLoop, if_neg hr, Except.bind_eq_ok] at h
    obtain ⟨⟨a, tb⟩, hb, h⟩ := h
    have hr1 : 0 < r.length := List.length_pos_of_ne_nil hr
    have hbn : cur / BSIZE < MAXFILE := div_lt_MAXFILE (by omega)
    have hp := bmap_post ho hbn hb
    dsimp only at h
    split_ifs at h with ha
    · cases h
      exact .stop (ha ▸ hp) hc hce he
    rw [Except.bind_eq_ok] at h
    obtain ⟨t1, hl, h⟩ := h
    have h1 := WritePost.round hc hce he hbn hp ha rfl hl
    have hm : min r.length (BSIZE - cur % BSIZE) ≤ r.length := Nat.min_le_left _ _
    exact h1.trans (ih h1.owned h1.covers (le_max_right _ _) (max_le he (h1.range.2.trans hend))
      (by rw [List.length_drop]; omega) h)

theorem blockOf_setSize (t : Fs) (v b : ℕ) :
    blockOf (t.setInode ip { t.itable ip with dinode := { (t.itable ip).dinode with size := v } }) ip b =
      blockOf t ip b := by
  simp only [blockOf, Fs.setInode_self]
  rfl

theorem Owned.setSize (ho : Owned t ip) (v : ℕ) :
    Owned (t.setInode ip { t.itable ip with dinode := { (t.itable ip).dinode with size := v } }) ip := by
  refine ⟨ho.layout, ho.metaMarked, by simpa using ho.inode, fun h => ?_, fun b hb h => ?_, fun b hb b' hb' h he => ?_⟩
  · rw [Fs.setInode_self] at h ⊢
    exact ho.ind h
  · rw [blockOf_setSize] at h ⊢
    rw [Fs.setInode_self]
    exact ho.data b hb h
  · rw [blockOf_setSize, blockOf_setSize] at *
    exact ho.inj b hb b' hb' h he

theorem iupdate_metaOnly (ho : Owned t ip) (h : iupdate t ip = .ok t') : MetaOnly t t' := by
  unfold iupdate at h
  obtain ⟨hd, hsb, hit⟩ := logWrite_frame h
  dsimp only at hd hsb hit
  obtain ⟨-, h2⟩ := dinodeAddr_mem t.sb (t.itable ip).inum
  have hlen := length_bytes (t.itable ip).dinode
  have hpast : ∀ y, t.sb.bmapstart * BSIZE ≤ y →
      dinodeAddr t.sb (t.itable ip).inum + (t.itable ip).dinode.bytes.length ≤ y := fun y hy => by
    have := Nat.mul_le_mul_right BSIZE (show IBLOCK (t.itable ip).inum t.sb + 1 ≤ t.sb.bmapstart from ho.inode)
    rw [hlen]
    omega
  refine ⟨hsb, hit, fun y hy => ?_, fun y hy => ?_⟩
  · rw [hd]
    exact writeBytes_of_le (hpast y (le_trans (Nat.mul_le_mul_right _
      ((Nat.le_add_right _ _).trans (Nat.le_add_right _ _))) hy))
  · unfold Fs.Marked at hy ⊢
    rw [hd, hsb, writeBytes_of_le (hpast _ ?_)]
    · exact hy
    · calc t.sb.bmapstart * BSIZE ≤ BBLOCK y t.sb * BSIZE := Nat.mul_le_mul_right _ (Nat.le_add_left _ _)
        _ ≤ bitAddr t.sb y := Nat.le_add_right _ _

/-- A `writei` that writes `n` bytes of `src` at `off` leaves a file as `writei` and
`readi` expect it, of size `max size (off + n)`, with the first `n` bytes of `src` in
`[off, off + n)` and the old bytes elsewhere. -/
theorem writei_post_count {src : List UInt8} {off n : ℕ} (hf : FileOk s ip)
    (h : writei s ip src off = .ok ((n : ℤ), s')) :
    n ≤ src.length ∧ FileOk s' ip ∧ (s'.itable ip).dinode.size = max (s.itable ip).dinode.size (off + n) ∧
      ∀ o < (s'.itable ip).dinode.size,
        byteAt s' ip o = if off ≤ o ∧ o < off + n then src.getD (o - off) 0 else byteAt s ip o := by
  unfold writei at h
  split_ifs at h with h1 h2
  · simp only [Except.ok.injEq, Prod.mk.injEq] at h
    omega
  · simp only [Except.ok.injEq, Prod.mk.injEq] at h
    omega
  rw [Except.bind_eq_ok] at h
  obtain ⟨⟨off', t⟩, hl, h⟩ := h
  dsimp only at h
  rw [Except.bind_eq_ok] at h
  obtain ⟨t3, hu, h⟩ := h
  simp only [pure, Except.pure, Except.ok.injEq, Prod.mk.injEq] at h
  obtain ⟨hr, hs'⟩ := h
  subst t3
  have hw := writeiLoop_post _ hf.owned hf.covers (by omega) hf.size_le (by omega) hl
  have hoff : off' = off + n := by have := hw.range; omega
  have hn : n ≤ src.length := by have := hw.range; omega
  subst hoff
  have hts := hw.size
  -- the size update before `iupdate`
  generalize ht2 : (if (t.itable ip).dinode.size < off + n then
    t.setInode ip { t.itable ip with dinode := { (t.itable ip).dinode with size := off + n } } else t) = t2
    at hu
  have h2' : Owned t2 ip ∧ (t2.itable ip).dinode.size = max (s.itable ip).dinode.size (off + n) ∧
      ∀ b, blockOf t2 ip b = blockOf t ip b := by
    subst ht2
    split_ifs with hlt
    · refine ⟨hw.owned.setSize _, ?_, blockOf_setSize t _⟩
      simp only [Fs.setInode_self]
      omega
    · exact ⟨hw.owned, by omega, fun _ => rfl⟩
  obtain ⟨ho2, hsize, hblk⟩ := h2'
  have hmo := iupdate_metaOnly ho2 hu
  have hsz : (s'.itable ip).dinode.size = max (s.itable ip).dinode.size (off + n) := by
    rw [hmo.itable, hsize]
  have hsle := hf.size_le
  have hcov : Covers s' ip (s'.itable ip).dinode.size := fun b hb hbe => by
    rw [hmo.blockOf_eq ho2 hb, hblk]
    exact hw.covers b hb (by omega)
  refine ⟨hn, ⟨hmo.owned ho2, hcov, by omega⟩, hsz, fun o ho => ?_⟩
  have hq : o / BSIZE < MAXFILE := div_lt_MAXFILE (by omega)
  have hb : blockOf t2 ip (o / BSIZE) ≠ 0 := by
    rw [← hmo.blockOf_eq ho2 hq]
    exact hcov _ hq (by have := Nat.div_mul_le_self o BSIZE; omega)
  have hat : byteAt t2 ip o = byteAt t ip o := by
    unfold byteAt
    rw [hblk]
    subst ht2
    split_ifs <;> rfl
  rw [hmo.byteAt_eq ho2 hq hb, hat, hw.bytes o (by omega)]

theorem writei_post {src : List UInt8} {off : ℕ} (hf : FileOk s ip)
    (h : writei s ip src off = .ok ((src.length : ℤ), s')) :
    FileOk s' ip ∧ (s'.itable ip).dinode.size = max (s.itable ip).dinode.size (off + src.length) ∧
      ∀ o < (s'.itable ip).dinode.size,
        byteAt s' ip o = if off ≤ o ∧ o < off + src.length then src.getD (o - off) 0 else byteAt s ip o :=
  (writei_post_count hf h).2

/-- `writei` and `readi` on a file whose blocks are its own and cover its size. `writei`
refuses a write that starts past the end, wraps around `2 ^ 32` or passes `MAXFILE` blocks,
and changes nothing then. A `readi` of `k` bytes at `o` with `o + k < 2 ^ 32` reads none
past the end and otherwise `min k (size - o)` bytes of the file. After a `writei` that writes
all `n` bytes of `src` at `off`, the size is `max size (off + n)`, and such a `readi` reads
the old bytes with those in `[off, off + n)` replaced by `src`. -/
theorem writei_readi (hf : FileOk s ip) (src : List UInt8) (off : ℕ) :
    ((s.itable ip).dinode.size < off ∨ (off + src.length) % 2 ^ 32 < off ∨ MAXFILE * BSIZE < off + src.length →
      writei s ip src off = .ok (-1, s)) ∧
    (∀ o k, o + k < 2 ^ 32 → readi s ip o k = .ok ((if (s.itable ip).dinode.size < o then [] else
      (List.range' o (min k ((s.itable ip).dinode.size - o))).map (byteAt s ip)), s)) ∧
    ∀ s', writei s ip src off = .ok (src.length, s') →
      (s'.itable ip).dinode.size = max (s.itable ip).dinode.size (off + src.length) ∧
      ∀ o k, o + k < 2 ^ 32 → readi s' ip o k = .ok ((if (s'.itable ip).dinode.size < o then [] else
        (List.range' o (min k ((s'.itable ip).dinode.size - o))).map fun x =>
          if off ≤ x ∧ x < off + src.length then src.getD (x - off) 0 else byteAt s ip x), s') := by
  refine ⟨fun h => ?_, fun o k hk => readi_eq hf hk, fun s' hw => ?_⟩
  · unfold writei
    rcases h with h | h | h
    · rw [if_pos (.inl h)]
    · rw [if_pos (.inr h)]
    · split_ifs <;> rfl
  obtain ⟨hf', hsz, hbytes⟩ := writei_post hf hw
  refine ⟨hsz, fun o k hk => ?_⟩
  rw [readi_eq hf' hk]
  split_ifs with ho
  · rfl
  · congr 2
    refine List.map_congr_left fun x hx => hbytes x ?_
    rw [List.mem_range'_1] at hx
    omega

/-! ## When `writei` returns

`log_write` panics once the transaction is full, and `balloc` hands out block `0` on a full
disk. With room in the log, and a block for the write that the file has or `bmap` can
allocate, a `writei` within one block writes all of it. -/

/-- The log has room for `k` more `log_write`s inside an FS operation, each of a block new to
the transaction at worst. -/
def Fs.Room (s : Fs) (k : ℕ) : Prop :=
  s.log.lh.length + k ≤ LOGSIZE ∧ s.log.lh.length + k < s.log.size ∧ 1 ≤ s.log.outstanding

instance (s : Fs) (k : ℕ) : Decidable (s.Room k) := inferInstanceAs (Decidable (_ ∧ _))

section Progress

variable {s t : Fs} {ip : Fin NINODE} {k : ℕ}

theorem Fs.Room.mono {j : ℕ} (h : s.Room k) (hj : j ≤ k) : s.Room j :=
  ⟨by have := h.1; omega, by have := h.2.1; omega, h.2.2⟩

/-- With room for one more, `log_write` goes through, leaves room for one less and changes
nothing but the log. -/
theorem Fs.Room.logWrite (h : s.Room (k + 1)) (b : ℕ) :
    ∃ t, s.logWrite b = .ok t ∧ t.Room k ∧ t.disk = s.disk ∧ t.sb = s.sb ∧ t.itable = s.itable := by
  have hl := Log.logWrite_of_room b ⟨by have := h.1; omega, by have := h.2.1; omega, h.2.2⟩
  set l' := if b ∈ s.log.lh then s.log else { s.log with lh := s.log.lh ++ [b] } with hl'
  -- the transaction grows by at most the one block
  have hlen : l'.lh.length ≤ s.log.lh.length + 1 ∧ l'.size = s.log.size ∧ l'.outstanding = s.log.outstanding := by
    rw [hl']
    split_ifs <;> simp
  refine ⟨{ s with log := l', logged := s.logged ++ [b] }, ?_, ⟨?_, ?_, ?_⟩, rfl, rfl, rfl⟩
  · rw [Fs.logWrite, hl]
    rfl
  · have := h.1
    dsimp only
    omega
  · have := h.2.1
    dsimp only
    omega
  · exact hlen.2.2 ▸ h.2.2

/-- With a free block and room for two `log_write`s, `balloc` hands out a block: the first
free one, which lies past the metadata blocks and so is not `0`. -/
theorem balloc_ok (ho : Owned s ip) (hfree : ∃ x < s.sb.size, ¬s.Marked x) (h : s.Room (k + 2)) :
    ∃ x t, balloc s = .ok (x, t) ∧ x ≠ 0 ∧ t.Room k := by
  obtain ⟨y, hy, hyfree⟩ := hfree
  obtain ⟨x, hx⟩ : ∃ x, (List.range s.sb.size).find?
      (fun x => s.disk (bitAddr s.sb x) &&& bitMask x == 0) = some x := by
    rcases hfind : (List.range s.sb.size).find? (fun x => s.disk (bitAddr s.sb x) &&& bitMask x == 0)
      with _ | x
    · have hy' := List.find?_eq_none.mp hfind y (List.mem_range.mpr hy)
      simp only [beq_iff_eq] at hy'
      exact absurd hy' hyfree
    · exact ⟨x, rfl⟩
  have hclear : ¬s.Marked x := by simpa [Fs.Marked] using List.find?_some hx
  have hx0 : x ≠ 0 := fun h0 => hclear (ho.metaMarked x (by rw [h0]; simp [dataStart]))
  -- the bitmap block, then the zeroed block
  obtain ⟨u, hu, hru, -⟩ := Fs.Room.logWrite
    (s := { s with disk := writeBytes s.disk (bitAddr s.sb x) [s.disk (bitAddr s.sb x) ||| bitMask x] })
    h (BBLOCK x s.sb)
  obtain ⟨v, hv, hrv, -⟩ := Fs.Room.logWrite (s := { u with disk := fill u.disk (x * BSIZE) BSIZE 0 }) hru x
  refine ⟨x, v, ?_, hx0, hrv⟩
  rw [balloc, hx]
  simp only [hu, Except.ok_bind, bzero, hv]
  rfl

/-- With room for two `log_write`s, `bmap` of a block the file has, or of a direct block it
lacks while some block is free, returns a block. -/
theorem bmap_ok {bn : ℕ} (ho : Owned s ip) (hbn : bn < MAXFILE)
    (hb : blockOf s ip bn ≠ 0 ∨ bn < NDIRECT ∧ ∃ x < s.sb.size, ¬s.Marked x) (h : s.Room (k + 2)) :
    ∃ a t, bmap s ip bn = .ok (a, t) ∧ a ≠ 0 ∧ t.Room k := by
  by_cases hhas : blockOf s ip bn ≠ 0
  · exact ⟨_, s, bmap_of_ne hbn hhas, hhas, h.mono (by omega)⟩
  obtain ⟨hd, hfree⟩ := hb.resolve_left hhas
  have haddr : (s.itable ip).dinode.addr bn = 0 := by simpa [blockOf, hd] using hhas
  obtain ⟨x, t, hbal, hx, ht⟩ := balloc_ok ho hfree h
  refine ⟨x, t.setInode ip { t.itable ip with dinode := (t.itable ip).dinode.setAddr bn x }, ?_, hx, ht⟩
  simp [bmap, hd, haddr, hbal, hx]

theorem writeiLoop_nil (fuel : ℕ) (t : Fs) (off : ℕ) : writeiLoop ip fuel t off [] = .ok (off, t) := by
  cases fuel <;> rfl

/-- A `writei` of `src` within one block at `off ≤ size` writes all of it when `bmap`
returns a block for it and leaves room for the two `log_write`s that follow, of the data
block and of the inode. -/
theorem writei_ok {src : List UInt8} {off a : ℕ} (hoff : off ≤ (s.itable ip).dinode.size) (hsrc : src ≠ [])
    (hblk : off % BSIZE + src.length ≤ BSIZE) (hmax : off + src.length ≤ MAXFILE * BSIZE)
    (hb : bmap s ip (off / BSIZE) = .ok (a, t)) (ha : a ≠ 0) (ht : t.Room 2) :
    ∃ s', writei s ip src off = .ok (src.length, s') := by
  have hm : min src.length (BSIZE - off % BSIZE) = src.length := by omega
  obtain ⟨t₁, hw, ht₁, -⟩ := Fs.Room.logWrite
    (s := { t with disk := writeBytes t.disk (a * BSIZE + off % BSIZE) (src.take src.length) }) ht a
  -- one round of the loop writes all of `src`
  have hloop : writeiLoop ip src.length s off src = .ok (off + src.length, t₁) := by
    obtain ⟨n, hn⟩ : ∃ n, src.length = n + 1 :=
      ⟨src.length - 1, by have := List.length_pos_of_ne_nil hsrc; omega⟩
    rw [hn, writeiLoop, if_neg hsrc]
    simp only [hb, Except.ok_bind, if_neg ha, ← hn, hm, hw, List.drop_length, writeiLoop_nil]
  -- then the size, and `iupdate`
  set t₂ := if (t₁.itable ip).dinode.size < off + src.length then
      t₁.setInode ip { t₁.itable ip with dinode := { (t₁.itable ip).dinode with size := off + src.length } }
    else t₁ with ht₂
  have hr₂ : t₂.Room 1 := by
    rw [ht₂]
    split_ifs <;> exact ht₁
  obtain ⟨t₃, hu, -⟩ := Fs.Room.logWrite
    (s := { t₂ with disk := writeBytes t₂.disk (dinodeAddr t₂.sb (t₂.itable ip).inum) (t₂.itable ip).dinode.bytes })
    hr₂ (IBLOCK (t₂.itable ip).inum t₂.sb)
  have hwrap : ¬((s.itable ip).dinode.size < off ∨ (off + src.length) % 2 ^ 32 < off) := by
    simp only [MAXFILE, NDIRECT, NINDIRECT, BSIZE] at hmax
    rw [Nat.mod_eq_of_lt (by omega)]
    omega
  have hu' : iupdate t₂ ip = .ok t₃ := hu
  refine ⟨t₃, ?_⟩
  rw [writei, if_neg hwrap, if_neg (by omega)]
  simp only [hloop, Except.ok_bind, ← ht₂, hu', Nat.add_sub_cancel_left]
  rfl

end Progress

/-- The file of `writei_fault_unlogged_xx` on a disk whose bitmap marks the blocks before the
data area and block 100. -/
def rwFs : Fs := { xxFs with disk := writeBytes xxFs.disk (45 * BSIZE) [255, 255, 255, 255, 255, 255, 0, 0, 0, 0, 0, 0, 255] }

theorem blockOf_rwFs (bn : ℕ) : blockOf rwFs 0 bn = if bn = 0 then 100 else 0 := by
  unfold blockOf
  by_cases hd : bn < NDIRECT
  · rw [if_pos hd]
    simp only [NDIRECT] at hd
    interval_cases bn <;> rfl
  · have h0 : (rwFs.itable 0).dinode.addr NDIRECT = 0 := rfl
    rw [if_neg hd, if_pos h0, if_neg (by rintro rfl; exact hd (by decide))]

theorem rwFs_fileOk : FileOk rwFs 0 := by
  refine ⟨⟨by decide, by decide, by decide, fun h => absurd rfl h, fun bn _ h => ?_, fun bn _ bn' _ h he => ?_⟩,
    fun bn _ hbn => ?_, by decide⟩
  · rw [blockOf_rwFs] at h ⊢
    split_ifs at h ⊢
    · decide
    · exact absurd rfl h
  · rw [blockOf_rwFs, blockOf_rwFs] at *
    split_ifs at h he <;> simp_all
  · have h2 : (rwFs.itable 0).dinode.size = 2 := rfl
    have : bn = 0 := by simp only [BSIZE, h2] at hbn; omega
    rw [blockOf_rwFs, if_pos this]
    decide

theorem rwFs_write : ∃ s', writei rwFs 0 [7, 8, 9] 1 = .ok (3, s') := by
  obtain ⟨⟨n, s'⟩, hw, hn⟩ := Except.exists_of_toOption_map
    (show (writei rwFs 0 [7, 8, 9] 1).toOption.map Prod.fst = some 3 by decide)
  cases hn
  exact ⟨s', hw⟩

/-- `write` of three bytes at offset `1` of the two-byte file `xx`: reading four bytes from
the start gives the first old byte and the three new ones. -/
theorem writei_readi_xx :
    FileOk rwFs 0 ∧ ∃ s', writei rwFs 0 [7, 8, 9] 1 = .ok (3, s') ∧ readi s' 0 0 4 = .ok ([120, 7, 8, 9], s') := by
  obtain ⟨s', hw⟩ := rwFs_write
  obtain ⟨-, -, h⟩ := writei_readi rwFs_fileOk [7, 8, 9] 1
  obtain ⟨hsz, hr⟩ := h s' hw
  refine ⟨rwFs_fileOk, s', hw, ?_⟩
  rw [hr 0 4 (by norm_num), hsz]
  refine congrArg (fun l => Except.ok (l, s')) ?_
  decide

/-- After that write, a `readi` of `2 ^ 32 - 1` bytes at `1` reads nothing, although the file
holds three bytes from `1` on: `1 + (2 ^ 32 - 1)` wraps around to `0`, and `readi` takes the
range for one that overflows. -/
theorem readi_wrap_xx : ∃ s', writei rwFs 0 [7, 8, 9] 1 = .ok (3, s') ∧ (s'.itable 0).dinode.size = 4 ∧
    readi s' 0 1 (2 ^ 32 - 1) = .ok ([], s') := by
  obtain ⟨s', hw⟩ := rwFs_write
  refine ⟨s', hw, (writei_post rwFs_fileOk hw).2.1, ?_⟩
  unfold readi
  rw [if_pos (.inr (by norm_num))]

end Write

end Xv6
