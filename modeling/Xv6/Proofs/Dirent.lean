import Xv6.Proofs.Mkfs
import Xv6.Proofs.ReadWrite

/-! Directory entries: `dirlookup` and `dirlink`. A directory whose blocks are its own and
whose size is a multiple of `DIRENTSZ` is a list of 16-byte entries, and `readi` reads them
back without changing the state, so the two scans of `fs.c` are searches of that list:
`dirlookup` for the first live entry whose name `namecmp` finds equal, `dirlink` for the
first cleared one. `dirlink` then writes its entry there, or at the end; an entry never
straddles a block, so `writei` writes all of it or none. `de.inum` is a `ushort`: the
entry holds `inum % 2 ^ 16`. -/

namespace Xv6

open ByteMem

/-- Entry `k` of directory `dp`: the bytes at `[k * DIRENTSZ, (k + 1) * DIRENTSZ)`. -/
def entryAt (s : Fs) (dp : Fin NINODE) (k : ℕ) : List UInt8 :=
  (List.range' (k * DIRENTSZ) DIRENTSZ).map (byteAt s dp)

/-- The entries of directory `dp`, cleared ones included. -/
def entries (s : Fs) (dp : Fin NINODE) : List (List UInt8) :=
  (List.range ((s.itable dp).dinode.size / DIRENTSZ)).map (entryAt s dp)

/-- `dirlookup`'s test: a live entry whose name `namecmp` finds equal to `name`. -/
def entryIs (name : ℕ → UInt8) (de : List UInt8) : Bool :=
  direntInum de != 0 && namecmp name (direntName de) == 0

/-- `es` with `de` at index `k`, which may be its end. -/
def putAt (es : List (List UInt8)) (k : ℕ) (de : List UInt8) : List (List UInt8) :=
  es.take k ++ de :: es.drop (k + 1)

/-! ## Names and inode numbers -/

theorem strncmp_congr {p p' : ℕ → UInt8} (q : ℕ → UInt8) (n : ℕ) (h : ∀ j < n, p' j = p j) :
    strncmp p' q n = strncmp p q n := by
  induction n generalizing p p' q with
  | zero => rfl
  | succ n ih =>
    have h0 : p' 0 = p 0 := h 0 (Nat.zero_lt_succ n)
    rw [strncmp, strncmp, h0, ih _ fun j hj => h (j + 1) (by omega)]

theorem strncmp_strncpy (t : ℕ → UInt8) (n : ℕ) : strncmp t (fun j => (strncpy t n).getD j 0) n = 0 := by
  induction n generalizing t with
  | zero => rfl
  | succ n ih =>
    by_cases h0 : t 0 = 0
    · simp [strncmp, strncpy, h0]
    · have hshift : (fun i => (strncpy t (n + 1)).getD (i + 1) 0) = fun i => (strncpy (fun i => t (i + 1)) n).getD i 0 := by
        funext i
        rw [strncpy, if_neg h0, List.getD_cons_succ]
      rw [strncmp, if_pos ⟨h0, by simp [strncpy, h0]⟩, hshift, ih]

theorem entryIs_congr {name name' : ℕ → UInt8} (h : ∀ j < DIRSIZ, name' j = name j) (de : List UInt8) :
    entryIs name' de = entryIs name de := by
  simp only [entryIs, namecmp, strncmp_congr _ _ h]

theorem direntInum_direntBytes (inum : ℕ) (name : ℕ → UInt8) :
    direntInum (direntBytes inum name) = inum % 2 ^ 16 := by
  have h0 : (direntBytes inum name).getD 0 0 = UInt8.ofNat inum := by
    rw [direntBytes, List.getD_append _ _ _ _ (by simp), getD_leBytes (by decide)]
    simp
  have h1 : (direntBytes inum name).getD 1 0 = UInt8.ofNat (inum / 256) := by
    rw [direntBytes, List.getD_append _ _ _ _ (by simp), getD_leBytes (by decide)]
    simp
  rw [direntInum, h0, h1, UInt8.toNat_ofNat', UInt8.toNat_ofNat']
  omega

theorem direntName_direntBytes (inum : ℕ) (name : ℕ → UInt8) :
    direntName (direntBytes inum name) = fun j => (strncpy name DIRSIZ).getD j 0 := by
  funext j
  simp [direntName, direntBytes, List.getD_eq_getElem?_getD, List.getElem?_append_right]

/-- The entry `dirlink` writes is the one `dirlookup` looks for, when its `inum` fits in
16 bits. -/
theorem entryIs_direntBytes (name : ℕ → UInt8) {inum : ℕ} (h0 : 0 < inum) (h16 : inum < 2 ^ 16) :
    entryIs name (direntBytes inum name) = true := by
  simp only [entryIs, direntInum_direntBytes, Nat.mod_eq_of_lt h16, direntName_direntBytes, namecmp,
    strncmp_strncpy]
  simp
  omega

/-! ## The write path keeps every inode's type -/

section Types

variable {s s' : Fs} {ip : Fin NINODE}

/-- `s'` holds every inode of `s` with its type. -/
def TypesKept (s s' : Fs) : Prop := ∀ k, (s'.itable k).dinode.type = (s.itable k).dinode.type

theorem TypesKept.trans {t : Fs} (h₁ : TypesKept s t) (h₂ : TypesKept t s') : TypesKept s s' :=
  fun k => (h₂ k).trans (h₁ k)

theorem TypesKept.of_itable (h : s'.itable = s.itable) : TypesKept s s' := fun k => by rw [h]

theorem TypesKept.setInode {i : Inode} (hi : i.dinode.type = (s.itable ip).dinode.type) :
    TypesKept s (s.setInode ip i) := fun k => by
  by_cases hk : k = ip
  · subst hk
    simp [hi]
  · simp [Fs.setInode, Function.update_of_ne hk]

theorem logWrite_typesKept {t : Fs} {b : ℕ} (h : t.logWrite b = .ok s') (ht : t.itable = s.itable) :
    TypesKept s s' :=
  .of_itable ((logWrite_frame h).2.2.trans ht)

theorem balloc_typesKept {x : ℕ} (h : balloc s = .ok (x, s')) : TypesKept s s' := by
  unfold balloc at h
  split at h
  · cases h
    exact .of_itable rfl
  · obtain ⟨u, hu, h⟩ := Except.bind_eq_ok.mp h
    obtain ⟨v, hv, h⟩ := Except.bind_eq_ok.mp h
    cases h
    unfold bzero at hv
    exact (logWrite_typesKept hu rfl).trans (logWrite_typesKept hv rfl)

theorem bmapIndirect_typesKept {bn a : ℕ} (h : bmapIndirect s ip bn = .ok (a, s')) : TypesKept s s' := by
  unfold bmapIndirect at h
  obtain ⟨⟨ind, t⟩, ht, h⟩ := Except.bind_eq_ok.mp h
  -- the indirect block, allocated if it was missing
  have hst : TypesKept s t := by
    split_ifs at ht
    · cases ht
      exact .of_itable rfl
    · obtain ⟨⟨b, u⟩, hb, ht⟩ := Except.bind_eq_ok.mp ht
      cases ht
      split_ifs
      · exact balloc_typesKept hb
      · exact (balloc_typesKept hb).trans (.setInode rfl)
  dsimp only at h
  split_ifs at h
  · cases h
    exact hst
  · cases h
    exact hst
  · obtain ⟨⟨b, u⟩, hb, h⟩ := Except.bind_eq_ok.mp h
    dsimp only at h
    split_ifs at h
    · cases h
      exact hst.trans (balloc_typesKept hb)
    · obtain ⟨v, hv, h⟩ := Except.bind_eq_ok.mp h
      cases h
      exact hst.trans ((balloc_typesKept hb).trans (logWrite_typesKept hv rfl))

theorem bmap_typesKept {bn a : ℕ} (h : bmap s ip bn = .ok (a, s')) : TypesKept s s' := by
  unfold bmap at h
  dsimp only at h
  split_ifs at h
  · cases h
    exact .of_itable rfl
  · obtain ⟨⟨b, u⟩, hb, h⟩ := Except.bind_eq_ok.mp h
    dsimp only at h
    split_ifs at h <;> cases h
    · exact balloc_typesKept hb
    · exact (balloc_typesKept hb).trans (.setInode rfl)
  · exact bmapIndirect_typesKept h

theorem writeiLoop_typesKept {fuel off off' : ℕ} {src : List UInt8}
    (h : writeiLoop ip fuel s off src = .ok (off', s')) : TypesKept s s' := by
  induction fuel generalizing s off src with
  | zero =>
    cases h
    exact .of_itable rfl
  | succ fuel ih =>
    rw [writeiLoop] at h
    split_ifs at h
    · cases h
      exact .of_itable rfl
    obtain ⟨⟨a, t⟩, ha, h⟩ := Except.bind_eq_ok.mp h
    dsimp only at h
    split_ifs at h
    · cases h
      exact bmap_typesKept ha
    obtain ⟨u, hu, h⟩ := Except.bind_eq_ok.mp h
    exact (bmap_typesKept ha).trans ((logWrite_typesKept hu rfl).trans (ih h))

theorem writei_typesKept {src : List UInt8} {off : ℕ} {r : ℤ} (h : writei s ip src off = .ok (r, s')) :
    TypesKept s s' := by
  unfold writei at h
  split_ifs at h
  · cases h
    exact .of_itable rfl
  · cases h
    exact .of_itable rfl
  obtain ⟨⟨off', t⟩, hl, h⟩ := Except.bind_eq_ok.mp h
  obtain ⟨u, hu, h⟩ := Except.bind_eq_ok.mp h
  cases h
  have hsize : TypesKept t (if (t.itable ip).dinode.size < off' then
      t.setInode ip { t.itable ip with dinode := { (t.itable ip).dinode with size := off' } } else t) := by
    split_ifs
    · exact .setInode rfl
    · exact .of_itable rfl
  exact (writeiLoop_typesKept hl).trans (hsize.trans (.of_itable (iupdate_eq_ok hu).2.1))

end Types

/-! ## The two scans -/

section Scan

variable {s : Fs} {dp : Fin NINODE}

@[simp] theorem length_entries : (entries s dp).length = (s.itable dp).dinode.size / DIRENTSZ := by
  simp [entries]

@[simp] theorem length_entryAt (k : ℕ) : (entryAt s dp k).length = DIRENTSZ := by
  simp [entryAt]

theorem getElem_entries {k : ℕ} (hk : k < (entries s dp).length) : (entries s dp)[k] = entryAt s dp k := by
  simp [entries]

theorem entries_congr {t : Fs} (hd : t.disk = s.disk) (hi : (t.itable dp).dinode = (s.itable dp).dinode) :
    entries t dp = entries s dp := by
  have hb : ∀ bn, blockOf t dp bn = blockOf s dp bn := fun bn => by simp [blockOf, hd, hi]
  simp [entries, entryAt, byteAt, hb, hd, hi]

variable (hf : FileOk s dp)
include hf

theorem readi_entryAt {k : ℕ} (hk : (k + 1) * DIRENTSZ ≤ (s.itable dp).dinode.size) :
    readi s dp (k * DIRENTSZ) DIRENTSZ = .ok (entryAt s dp k, s) := by
  have hle := hf.size_le
  have hd : DIRENTSZ = 16 := rfl
  simp only [MAXFILE, NDIRECT, NINDIRECT, BSIZE] at hle
  rw [hd] at hk ⊢
  rw [readi_eq hf (by omega), if_neg (by omega), Nat.min_eq_left (by omega)]
  rfl

variable (hsz : (s.itable dp).dinode.size % DIRENTSZ = 0)
include hsz

omit hf in
theorem size_eq_entries : (s.itable dp).dinode.size = (entries s dp).length * DIRENTSZ := by
  rw [length_entries, Nat.div_mul_cancel (Nat.dvd_of_mod_eq_zero hsz)]

/-- `dirlink`'s scan from entry `j`: the first entry from `j` on that `stop` accepts, else
the end of the directory. -/
theorem direntScan_eq (stop : List UInt8 → Bool) (msg : String) {j fuel : ℕ}
    (hj : j ≤ (entries s dp).length) (hfuel : (entries s dp).length - j < fuel) :
    direntScan dp stop msg fuel s (j * DIRENTSZ) =
      .ok (match ((entries s dp).drop j).findIdx? stop with
        | some k => (true, (j + k) * DIRENTSZ, s)
        | none => (false, (entries s dp).length * DIRENTSZ, s)) := by
  induction fuel generalizing j with
  | zero => omega
  | succ fuel ih =>
    have hsize := size_eq_entries hsz
    have hd : DIRENTSZ = 16 := rfl
    rw [direntScan]
    rcases Nat.lt_or_ge j (entries s dp).length with hlt | hge
    · -- entry `j` is read and tested
      rw [if_neg (by rw [hsize, hd]; omega), readi_entryAt hf (by rw [hsize, hd]; omega),
        List.drop_eq_getElem_cons hlt, getElem_entries, List.findIdx?_cons]
      by_cases hs : stop (entryAt s dp j)
      · simp [hs]
      · have hnext := ih (j := j + 1) (by omega) (by omega)
        rw [Nat.add_mul, Nat.one_mul] at hnext
        simp only [Except.ok_bind, length_entryAt, ne_eq, not_true_eq_false, if_false, hs,
          Bool.false_eq_true, hnext]
        cases ((entries s dp).drop (j + 1)).findIdx? stop <;> simp [Nat.add_assoc, Nat.add_comm 1]
    · -- the end of the directory
      have hj' : j = (entries s dp).length := by omega
      subst hj'
      rw [if_pos (by rw [hsize]), List.drop_length]
      rfl

/-- `dirlookup`'s loop from entry `j`: the first entry from `j` on that `entryIs name`
accepts, whose inode it gets, else none. -/
theorem dirlookupLoop_eq (name : ℕ → UInt8) {j fuel : ℕ}
    (hj : j ≤ (entries s dp).length) (hfuel : (entries s dp).length - j < fuel) :
    dirlookupLoop dp name fuel s (j * DIRENTSZ) =
      match ((entries s dp).drop j).findIdx? (entryIs name) with
      | some k => iget s (direntInum (entryAt s dp (j + k))) >>= fun p => .ok (some (p.1, (j + k) * DIRENTSZ), p.2)
      | none => .ok (none, s) := by
  induction fuel generalizing j with
  | zero => omega
  | succ fuel ih =>
    have hsize := size_eq_entries hsz
    have hd : DIRENTSZ = 16 := rfl
    rw [dirlookupLoop]
    rcases Nat.lt_or_ge j (entries s dp).length with hlt | hge
    · rw [if_neg (by rw [hsize, hd]; omega), readi_entryAt hf (by rw [hsize, hd]; omega),
        List.drop_eq_getElem_cons hlt, getElem_entries, List.findIdx?_cons]
      have hnext := ih (j := j + 1) (by omega) (by omega)
      rw [Nat.add_mul, Nat.one_mul] at hnext
      simp only [Except.ok_bind, length_entryAt, ne_eq, not_true_eq_false, if_false]
      by_cases hs : entryIs name (entryAt s dp j)
      · -- entry `j` is live and has the name
        have ⟨h0, hc⟩ : direntInum (entryAt s dp j) ≠ 0 ∧ namecmp name (direntName (entryAt s dp j)) = 0 := by
          simpa [entryIs] using hs
        simp only [h0, hc, if_false, if_true, hs, Nat.add_zero]
        rfl
      · have hskip : (if direntInum (entryAt s dp j) = 0 then dirlookupLoop dp name fuel s (j * DIRENTSZ + DIRENTSZ)
            else if namecmp name (direntName (entryAt s dp j)) = 0 then
              iget s (direntInum (entryAt s dp j)) >>= fun p => pure (some (p.1, j * DIRENTSZ), p.2)
            else dirlookupLoop dp name fuel s (j * DIRENTSZ + DIRENTSZ)) =
            dirlookupLoop dp name fuel s (j * DIRENTSZ + DIRENTSZ) := by
          split_ifs with h0 hc
          · rfl
          · exact absurd (by simp [entryIs, h0, hc]) hs
          · rfl
        rw [if_neg hs, hskip, hnext]
        cases ((entries s dp).drop (j + 1)).findIdx? (entryIs name) <;> simp [Nat.add_assoc, Nat.add_comm 1]
    · have hj' : j = (entries s dp).length := by omega
      subst hj'
      rw [if_pos (by rw [hsize]), List.drop_length]
      rfl

theorem dirlookup_eq (hdir : (s.itable dp).dinode.type = T_DIR) (name : ℕ → UInt8) :
    dirlookup s dp name =
      match (entries s dp).findIdx? (entryIs name) with
      | some k => iget s (direntInum (entryAt s dp k)) >>= fun p => .ok (some (p.1, k * DIRENTSZ), p.2)
      | none => .ok (none, s) := by
  rw [dirlookup, if_neg (not_not.mpr hdir)]
  have h := dirlookupLoop_eq hf hsz name (Nat.zero_le _)
    (show (entries s dp).length - 0 < (s.itable dp).dinode.size / DIRENTSZ + 1 by simp)
  simpa using h

end Scan

/-! ## Writing one entry -/

section Write

variable {s s' : Fs} {ip : Fin NINODE} {src : List UInt8} {off : ℕ}

theorem writeiLoop_block {t t' : Fs} {off' : ℕ} (fuel : ℕ) (hsrc : off % BSIZE + src.length ≤ BSIZE)
    (h : writeiLoop ip fuel t off src = .ok (off', t')) : off' = off ∨ off' = off + src.length := by
  cases fuel with
  | zero =>
    cases h
    exact .inl rfl
  | succ fuel =>
    rw [writeiLoop] at h
    split_ifs at h with hs
    · cases h
      exact .inl rfl
    obtain ⟨⟨a, tb⟩, -, h⟩ := Except.bind_eq_ok.mp h
    dsimp only at h
    split_ifs at h with ha
    · cases h
      exact .inl rfl
    obtain ⟨t1, -, h⟩ := Except.bind_eq_ok.mp h
    rw [Nat.min_eq_left (by omega), List.drop_length] at h
    right
    -- the round wrote all of `src`, and the next one stops at once
    cases fuel with
    | zero =>
      cases h
      rfl
    | succ fuel =>
      rw [writeiLoop, if_pos rfl] at h
      cases h
      rfl

theorem writei_result {r : ℤ} (h : writei s ip src off = .ok (r, s')) :
    (r = -1 ∧ s' = s) ∨ ∃ n : ℕ, r = n := by
  unfold writei at h
  split_ifs at h
  · cases h
    exact .inl ⟨rfl, rfl⟩
  · cases h
    exact .inl ⟨rfl, rfl⟩
  obtain ⟨⟨off', t⟩, -, h⟩ := Except.bind_eq_ok.mp h
  obtain ⟨u, -, h⟩ := Except.bind_eq_ok.mp h
  cases h
  exact .inr ⟨_, rfl⟩

theorem writei_block {n : ℕ} (hsrc : off % BSIZE + src.length ≤ BSIZE)
    (h : writei s ip src off = .ok ((n : ℤ), s')) : n = 0 ∨ n = src.length := by
  unfold writei at h
  split_ifs at h
  · simp only [Except.ok.injEq, Prod.mk.injEq] at h
    omega
  · simp only [Except.ok.injEq, Prod.mk.injEq] at h
    omega
  obtain ⟨⟨off', t⟩, hl, h⟩ := Except.bind_eq_ok.mp h
  obtain ⟨u, -, h⟩ := Except.bind_eq_ok.mp h
  simp only [pure, Except.pure, Except.ok.injEq, Prod.mk.injEq] at h
  rcases writeiLoop_block _ hsrc hl with rfl | rfl <;> omega

end Write

/-! ## `iget` and `iput` -/

section Iget

variable {s s₁ s₂ : Fs} {ip : Fin NINODE} {inum : ℕ}

theorem iget_cases (h : iget s inum = .ok (ip, s₁)) :
    (0 < (s.itable ip).ref ∧ (s.itable ip).inum = inum ∧
      s₁ = s.setInode ip { s.itable ip with ref := (s.itable ip).ref + 1 }) ∨
    s₁ = s.setInode ip { s.itable ip with inum := inum, ref := 1, valid := false } := by
  unfold iget at h
  split at h
  · next k hk =>
    cases h
    have hp := List.find?_some hk
    simp only [Bool.and_eq_true, decide_eq_true_eq, beq_iff_eq] at hp
    exact .inl ⟨hp.1, hp.2, rfl⟩
  · split at h
    · cases h
    · cases h
      exact .inr rfl

theorem iget_inum (h : iget s inum = .ok (ip, s₁)) : (s₁.itable ip).inum = inum := by
  rcases iget_cases h with ⟨-, hi, rfl⟩ | rfl
  · simp [hi]
  · simp

/-- An `iput` right after `iget` drops the reference `iget` took, which is never the last
one of a valid inode: nothing is truncated, and the disk and the disk inodes stay as they
were. -/
theorem iget_iput (h₁ : iget s inum = .ok (ip, s₁)) (h₂ : iput s₁ ip = .ok s₂) :
    s₂.disk = s.disk ∧ ∀ k, (s₂.itable k).dinode = (s.itable k).dinode := by
  have hnl : ¬ ((s₁.itable ip).ref = 1 ∧ (s₁.itable ip).valid ∧ (s₁.itable ip).dinode.nlink = 0) := by
    rcases iget_cases h₁ with ⟨hr, -, rfl⟩ | rfl
    · simp
      omega
    · simp
  rw [iput_of_not_last hnl] at h₂
  cases h₂
  refine ⟨by rcases iget_cases h₁ with ⟨-, -, rfl⟩ | rfl <;> rfl, fun k => ?_⟩
  by_cases hk : k = ip
  · subst hk
    rcases iget_cases h₁ with ⟨-, -, rfl⟩ | rfl <;> simp
  · have : (s₁.itable k) = s.itable k := by
      rcases iget_cases h₁ with ⟨-, -, rfl⟩ | rfl <;> simp [Fs.setInode, Function.update_of_ne hk]
    simp [Fs.setInode, Function.update_of_ne hk, this]

end Iget

/-! ## The entries after a write -/

section Put

theorem getElem?_putAt {es : List (List UInt8)} {k : ℕ} (hk : k ≤ es.length) (de : List UInt8) (i : ℕ) :
    (putAt es k de)[i]? = if i = k then some de else es[i]? := by
  unfold putAt
  rcases Nat.lt_trichotomy i k with hi | rfl | hi
  · rw [List.getElem?_append_left (by rw [List.length_take]; omega), List.getElem?_take_of_lt hi,
      if_neg (by omega)]
  · rw [List.getElem?_append_right (by rw [List.length_take]; omega)]
    simp [Nat.min_eq_left hk]
  · rw [List.getElem?_append_right (by rw [List.length_take]; omega), if_neg (by omega)]
    simp only [List.length_take, Nat.min_eq_left hk, List.getElem?_cons, List.getElem?_drop]
    rw [if_neg (by omega)]
    congr 1
    omega

variable {s s' : Fs} {dp : Fin NINODE}

theorem getElem?_entries (i : ℕ) :
    (entries s dp)[i]? = if i < (s.itable dp).dinode.size / DIRENTSZ then some (entryAt s dp i) else none := by
  by_cases hi : i < (s.itable dp).dinode.size / DIRENTSZ
  · simp [entries, hi]
  · simp [entries, hi]

theorem entryAt_of_bytes {off n i : ℕ} {de : List UInt8}
    (hbytes : ∀ o < (s'.itable dp).dinode.size,
      byteAt s' dp o = if off ≤ o ∧ o < off + n then de.getD (o - off) 0 else byteAt s dp o)
    (hi : (i + 1) * DIRENTSZ ≤ (s'.itable dp).dinode.size) :
    entryAt s' dp i = (List.range' (i * DIRENTSZ) DIRENTSZ).map
      fun o => if off ≤ o ∧ o < off + n then de.getD (o - off) 0 else byteAt s dp o := by
  refine List.map_congr_left fun o ho => hbytes o ?_
  rw [List.mem_range'_1] at ho
  rw [Nat.add_mul, Nat.one_mul] at hi
  omega

variable (hf : FileOk s dp) (hsz : (s.itable dp).dinode.size % DIRENTSZ = 0)
include hf hsz

omit hsz in
theorem entries_of_write_nothing {src : List UInt8} {off : ℕ} (hoff : off ≤ (s.itable dp).dinode.size)
    (hw : writei s dp src off = .ok ((0 : ℕ), s')) : entries s' dp = entries s dp := by
  obtain ⟨-, -, hsize', hbytes⟩ := writei_post_count hf hw
  rw [Nat.add_zero, Nat.max_eq_left hoff] at hsize'
  apply List.ext_getElem?
  intro i
  rw [getElem?_entries, getElem?_entries, hsize']
  split_ifs with hi
  · congr 1
    rw [entryAt_of_bytes hbytes (by rw [hsize']; exact (Nat.le_div_iff_mul_le (by decide)).mp hi)]
    simp [entryAt]
  · rfl

/-- A write of a whole entry at slot `k`, a slot of the directory or its end: the entry is
there, and the others are as they were. -/
theorem entries_of_write_entry {k : ℕ} (hk : k ≤ (entries s dp).length) {de : List UInt8}
    (hde : de.length = DIRENTSZ) (hw : writei s dp de (k * DIRENTSZ) = .ok ((DIRENTSZ : ℕ), s')) :
    FileOk s' dp ∧ (s'.itable dp).dinode.size % DIRENTSZ = 0 ∧ entries s' dp = putAt (entries s dp) k de := by
  obtain ⟨-, hf', hsize', hbytes⟩ := writei_post_count hf hw
  have hs := size_eq_entries hsz
  have hd : DIRENTSZ = 16 := rfl
  have hn' : (s'.itable dp).dinode.size = max (entries s dp).length (k + 1) * DIRENTSZ := by
    rw [hsize', hs, hd]
    omega
  refine ⟨hf', by rw [hn', Nat.mul_mod_left], ?_⟩
  apply List.ext_getElem?
  intro i
  rw [getElem?_putAt hk, getElem?_entries, getElem?_entries, hn', Nat.mul_div_cancel _ (by decide),
    hs, Nat.mul_div_cancel _ (by decide)]
  by_cases hik : i = k
  · subst hik
    rw [if_pos (by omega), if_pos rfl, entryAt_of_bytes hbytes (by rw [hn']; exact Nat.mul_le_mul_right _ (by omega))]
    congr 1
    apply List.ext_getElem (by simp [hde])
    intro j hj _
    simp only [List.length_map, List.length_range'] at hj
    have hj16 : j < 16 := hj
    simp [List.getElem_range', hd, hj16, List.getD_eq_getElem?_getD, List.getElem?_eq_getElem (hde ▸ hj)]
  · rw [if_neg hik]
    by_cases hi : i < (entries s dp).length
    · rw [if_pos (by omega), if_pos hi, entryAt_of_bytes hbytes (by rw [hn']; exact Nat.mul_le_mul_right _ (by omega))]
      congr 1
      refine List.map_congr_left fun o ho => ?_
      rw [List.mem_range'_1] at ho
      rw [if_neg]
      rw [hd] at ho ⊢
      omega
    · rw [if_neg (by omega), if_neg hi]

end Put

/-! ## `dirlink` -/

/-- The slot `dirlink` fills: the first cleared entry, else the end. -/
def freeEntry (es : List (List UInt8)) : ℕ := (es.findIdx? fun de => direntInum de == 0).getD es.length

theorem freeEntry_le (es : List (List UInt8)) : freeEntry es ≤ es.length := by
  unfold freeEntry
  cases h : es.findIdx? fun de => direntInum de == 0 with
  | none => exact le_refl _
  | some k => exact (List.findIdx?_eq_some_iff_getElem.mp h).1.le

/-- The block of the slot `dirlink` fills is the directory's or `bmap` can allocate it: the
slot is a cleared entry, or it lies in the directory's last block, or it starts a new
direct block and some block is free. -/
def SlotBlock (s : Fs) (dp : Fin NINODE) : Prop :=
  freeEntry (entries s dp) < (entries s dp).length ∨ (s.itable dp).dinode.size % BSIZE ≠ 0 ∨
    (s.itable dp).dinode.size / BSIZE < NDIRECT ∧ ∃ x < s.sb.size, ¬s.Marked x

theorem findIdx?_putAt {p : List UInt8 → Bool} {es : List (List UInt8)} {k : ℕ} (hk : k ≤ es.length)
    (hnone : es.findIdx? p = none) {de : List UInt8} (hde : p de = true) :
    (putAt es k de).findIdx? p = some k := by
  have htake : (es.take k).findIdx? p = none :=
    List.findIdx?_eq_none_iff.mpr fun x hx => List.findIdx?_eq_none_iff.mp hnone x (List.mem_of_mem_take hx)
  simp [putAt, List.findIdx?_cons, hde, htake, Nat.min_eq_left hk]

section Dirlink

variable {s s' : Fs} {dp : Fin NINODE} {name : ℕ → UInt8} {inum : ℕ} {r : Bool}
variable (hf : FileOk s dp) (hdir : (s.itable dp).dinode.type = T_DIR)
  (hsz : (s.itable dp).dinode.size % DIRENTSZ = 0)
include hf hdir hsz

theorem dirlink_of_none (hnone : (entries s dp).findIdx? (entryIs name) = none) :
    dirlink s dp name inum = writei s dp (direntBytes inum name) (freeEntry (entries s dp) * DIRENTSZ) >>=
      fun p => .ok (p.1 == DIRENTSZ, p.2) := by
  rw [dirlink, dirlookup_eq hf hsz hdir, hnone]
  have hscan := direntScan_eq hf hsz (fun de => direntInum de == 0) "dirlink read" (Nat.zero_le _)
    (show (entries s dp).length - 0 < (s.itable dp).dinode.size / DIRENTSZ + 1 by simp)
  rw [Nat.zero_mul, List.drop_zero] at hscan
  simp only [Except.ok_bind, hscan]
  unfold freeEntry
  cases hs : (entries s dp).findIdx? fun de => direntInum de == 0 <;>
    simp only [Option.getD_some, Option.getD_none, Nat.zero_add] <;> rfl

/-- What `dirlink` does on a directory: with the name present it puts the inode it found
and changes no entry; otherwise it writes the entry at the free slot. -/
theorem dirlink_cases (h : dirlink s dp name inum = .ok (r, s')) :
    ((entries s dp).findIdx? (entryIs name) ≠ none ∧ r = false ∧ entries s' dp = entries s dp) ∨
    ((entries s dp).findIdx? (entryIs name) = none ∧ ∃ w : ℤ,
      writei s dp (direntBytes inum name) (freeEntry (entries s dp) * DIRENTSZ) = .ok (w, s') ∧ r = (w == DIRENTSZ)) := by
  cases hk : (entries s dp).findIdx? (entryIs name) with
  | some k =>
    rw [dirlink, dirlookup_eq hf hsz hdir, hk] at h
    obtain ⟨⟨x, s₁⟩, hx, h⟩ := Except.bind_eq_ok.mp h
    obtain ⟨⟨ip, s₀⟩, hg, hx⟩ := Except.bind_eq_ok.mp hx
    cases hx
    obtain ⟨s₂, hp, h⟩ := Except.bind_eq_ok.mp h
    cases h
    obtain ⟨hd, hi⟩ := iget_iput hg hp
    exact .inl ⟨by simp, rfl, entries_congr hd (hi dp)⟩
  | none =>
    rw [dirlink_of_none hf hdir hsz hk] at h
    obtain ⟨⟨w, s₃⟩, hw, h⟩ := Except.bind_eq_ok.mp h
    cases h
    exact .inr ⟨rfl, w, hw, rfl⟩

theorem dirlink_entry (h : dirlink s dp name inum = .ok (true, s')) :
    (entries s dp).findIdx? (entryIs name) = none ∧ FileOk s' dp ∧ (s'.itable dp).dinode.type = T_DIR ∧
      (s'.itable dp).dinode.size % DIRENTSZ = 0 ∧
      entries s' dp = putAt (entries s dp) (freeEntry (entries s dp)) (direntBytes inum name) := by
  rcases dirlink_cases hf hdir hsz h with ⟨-, hr, -⟩ | ⟨hnone, w, hw, hr⟩
  · cases hr
  · have hw16 : w = (DIRENTSZ : ℕ) := by simpa using hr.symm
    subst hw16
    obtain ⟨hf', hsz', hent⟩ :=
      entries_of_write_entry hf hsz (freeEntry_le _) (Mkfs.length_direntBytes inum name) hw
    exact ⟨hnone, hf', (writei_typesKept hw dp).trans hdir, hsz', hent⟩

theorem dirlink_unchanged (h : dirlink s dp name inum = .ok (false, s')) : entries s' dp = entries s dp := by
  rcases dirlink_cases hf hdir hsz h with ⟨-, -, hent⟩ | ⟨-, w, hw, hr⟩
  · exact hent
  · have hk := freeEntry_le (entries s dp)
    have hs := size_eq_entries hsz
    have hd : DIRENTSZ = 16 := rfl
    rcases writei_result hw with ⟨-, rfl⟩ | ⟨n, rfl⟩
    · rfl
    -- an entry lies in one block, so the write wrote all of it or nothing
    have hblock : freeEntry (entries s dp) * DIRENTSZ % BSIZE + (direntBytes inum name).length ≤ BSIZE := by
      rw [Mkfs.length_direntBytes, hd]
      simp only [BSIZE]
      omega
    rcases writei_block hblock hw with rfl | hn
    · exact entries_of_write_nothing hf (by rw [hs]; exact Nat.mul_le_mul_right _ hk) hw
    · rw [Mkfs.length_direntBytes] at hn
      subst hn
      simp at hr

/-- `dirlink` of a name that is not there returns `0` when the log has room for the four
`log_write`s it may need and the free slot's block is the directory's or can be allocated. -/
theorem dirlink_ok (hnone : (entries s dp).findIdx? (entryIs name) = none) (hr : s.Room 4)
    (hslot : SlotBlock s dp) : ∃ s', dirlink s dp name inum = .ok (true, s') := by
  have hsize := size_eq_entries hsz
  have hle := freeEntry_le (entries s dp)
  have hlen := Mkfs.length_direntBytes inum name
  have hd : DIRENTSZ = 16 := rfl
  have hmaxsz := hf.size_le
  -- the slot lies in one block, inside the file or at its end
  have hin : freeEntry (entries s dp) * DIRENTSZ ≤ (s.itable dp).dinode.size := by
    rw [hsize]; exact Nat.mul_le_mul_right _ hle
  have hblk : freeEntry (entries s dp) * DIRENTSZ % BSIZE + (direntBytes inum name).length ≤ BSIZE := by
    rw [hlen, hd]; simp only [BSIZE]; omega
  have hroom : freeEntry (entries s dp) * DIRENTSZ + (direntBytes inum name).length ≤ MAXFILE * BSIZE := by
    rw [hlen]
    rcases hslot with h | h | ⟨h, -⟩ <;> simp only [hd, MAXFILE, NDIRECT, NINDIRECT, BSIZE] at * <;> omega
  have hbn : freeEntry (entries s dp) * DIRENTSZ / BSIZE < MAXFILE := by
    simp only [hd, MAXFILE, NDIRECT, NINDIRECT, BSIZE] at *; omega
  -- the slot's block is the directory's, or a direct one that `bmap` allocates
  have hblock : blockOf s dp (freeEntry (entries s dp) * DIRENTSZ / BSIZE) ≠ 0 ∨
      freeEntry (entries s dp) * DIRENTSZ / BSIZE < NDIRECT ∧ ∃ x < s.sb.size, ¬s.Marked x := by
    rcases hslot with h | h | ⟨h, hfree⟩
    · exact .inl (hf.covers _ hbn (by simp only [hd, BSIZE] at *; omega))
    · exact .inl (hf.covers _ hbn (by simp only [hd, BSIZE] at *; omega))
    · exact .inr ⟨by simp only [hd, NDIRECT, BSIZE] at *; omega, hfree⟩
  obtain ⟨a, t, hb, ha, ht⟩ := bmap_ok (k := 2) hf.owned hbn hblock hr
  obtain ⟨s', hw⟩ := writei_ok hin (List.ne_nil_of_length_pos (by rw [hlen]; decide)) hblk hroom hb ha ht
  refine ⟨s', ?_⟩
  rw [dirlink_of_none hf hdir hsz hnone, hw, hlen]
  rfl

end Dirlink

section Lookup

variable {s' : Fs} {dp : Fin NINODE} (hf' : FileOk s' dp) (hdir' : (s'.itable dp).dinode.type = T_DIR)
  (hsz' : (s'.itable dp).dinode.size % DIRENTSZ = 0)
include hf' hdir' hsz'

/-- `dirlookup` in a directory whose entries are `es` with `de` put at `k`, where no entry
of `es` has the name: `de` at `k` when it has the name, for every name that agrees with it
on its first `DIRSIZ` bytes. -/
theorem dirlookup_putAt {es : List (List UInt8)} {k : ℕ} {de : List UInt8} {name name' : ℕ → UInt8}
    (hent : entries s' dp = putAt es k de) (hk : k ≤ es.length) (hnone : es.findIdx? (entryIs name) = none)
    (hname : ∀ j < DIRSIZ, name' j = name j) (hde : entryIs name de = true) :
    dirlookup s' dp name' = iget s' (direntInum de) >>= fun p => .ok (some (p.1, k * DIRENTSZ), p.2) := by
  have hsame : entryIs name' = entryIs name := funext (entryIs_congr hname)
  have hat : entryAt s' dp k = de := by
    have h1 : (entries s' dp)[k]? = _ := getElem?_entries k
    rw [hent, getElem?_putAt hk, if_pos rfl] at h1
    split_ifs at h1 with hlt
    exact (Option.some.inj h1).symm
  rw [dirlookup_eq hf' hsz' hdir', hsame, hent, findIdx?_putAt hk hnone hde]
  simp [hat]

theorem dirlookup_putAt_none {es : List (List UInt8)} {k : ℕ} {de : List UInt8} {name : ℕ → UInt8}
    (hent : entries s' dp = putAt es k de) (hnone : es.findIdx? (entryIs name) = none)
    (hde : entryIs name de = false) :
    dirlookup s' dp name = .ok (none, s') := by
  have hall : (putAt es k de).findIdx? (entryIs name) = none := by
    rw [List.findIdx?_eq_none_iff]
    intro x hx
    simp only [putAt, List.mem_append, List.mem_cons] at hx
    rcases hx with hx | rfl | hx
    · exact List.findIdx?_eq_none_iff.mp hnone x (List.mem_of_mem_take hx)
    · exact hde
    · exact List.findIdx?_eq_none_iff.mp hnone x (List.mem_of_mem_drop hx)
  rw [dirlookup_eq hf' hsz' hdir', hent, hall]

end Lookup

theorem dirlink_dirlookup {s : Fs} {dp : Fin NINODE} (hf : FileOk s dp) (hdir : (s.itable dp).dinode.type = T_DIR)
    (hsz : (s.itable dp).dinode.size % DIRENTSZ = 0) (name : ℕ → UInt8) {inum : ℕ} (h0 : 0 < inum)
    (h16 : inum < 2 ^ 16) :
    ((entries s dp).findIdx? (entryIs name) = none → s.Room 4 → SlotBlock s dp →
      ∃ s', dirlink s dp name inum = .ok (true, s')) ∧
    ∀ r s', dirlink s dp name inum = .ok (r, s') →
    (r = false → entries s' dp = entries s dp) ∧
    ((entries s dp).findIdx? (entryIs name) ≠ none → r = false) ∧
    (r = true →
      (entries s dp).findIdx? (entryIs name) = none ∧
      entries s' dp = putAt (entries s dp) (freeEntry (entries s dp)) (direntBytes inum name) ∧
      (∀ name' : ℕ → UInt8, (∀ j < DIRSIZ, name' j = name j) →
        dirlookup s' dp name' =
          iget s' inum >>= fun p => .ok (some (p.1, freeEntry (entries s dp) * DIRENTSZ), p.2)) ∧
      ∀ ip t, iget s' inum = .ok (ip, t) → (t.itable ip).inum = inum) := by
  refine ⟨fun hnone hr hslot => dirlink_ok hf hdir hsz hnone hr hslot, fun r s' h => ?_⟩
  refine ⟨?_, fun hfound => ?_, fun hr => ?_⟩
  · rintro rfl
    exact dirlink_unchanged hf hdir hsz h
  · cases r
    · rfl
    · exact absurd (dirlink_entry hf hdir hsz h).1 hfound
  · subst hr
    obtain ⟨hnone, hf', hdir', hsz', hent⟩ := dirlink_entry hf hdir hsz h
    refine ⟨hnone, hent, fun name' hname => ?_, fun ip t => iget_inum⟩
    rw [dirlookup_putAt hf' hdir' hsz' hent (freeEntry_le _) hnone hname (entryIs_direntBytes name h0 h16),
      direntInum_direntBytes, Nat.mod_eq_of_lt h16]

/-! ## An empty directory -/

theorem Owned.congr {s t : Fs} {ip : Fin NINODE} (ho : Owned s ip) (hsb : t.sb = s.sb) (hd : t.disk = s.disk)
    (hi : (t.itable ip).inum = (s.itable ip).inum)
    (ha : (t.itable ip).dinode.addrs = (s.itable ip).dinode.addrs) : Owned t ip := by
  have hA : ∀ k, (t.itable ip).dinode.addr k = (s.itable ip).dinode.addr k := fun k => by
    simp [Dinode.addr, ha]
  have hb : ∀ bn, blockOf t ip bn = blockOf s ip bn := fun bn => by
    simp [blockOf, hA, hd]
  have hm : ∀ y, t.Marked y ↔ s.Marked y := fun y => by
    simp [Fs.Marked, hd, hsb]
  obtain ⟨h1, h2, h3, h4, h5, h6⟩ := ho
  refine ⟨by rwa [hsb], fun x hx => (hm x).mpr (h2 x (by rwa [hsb] at hx)), by rwa [hi, hsb], ?_, ?_, ?_⟩
  · simpa only [hA, hm, hsb] using h4
  · simpa only [hb, hm, hsb, hA] using h5
  · simpa only [hb] using h6

/-- The file of `rwFs` made an empty directory: inode 2 in slot 0, its first block 100
already allocated. -/
def emptyDirFs : Fs :=
  { rwFs with itable := fun k => if k = 0 then
      { rwFs.itable 0 with dinode := { xxFile with type := T_DIR, size := 0 } } else rwFs.itable k }

/-- The name `"a"`. -/
def nameA : ℕ → UInt8 := fun j => [97].getD j 0

theorem emptyDirFs_fileOk : FileOk emptyDirFs 0 :=
  ⟨rwFs_fileOk.owned.congr rfl rfl rfl rfl, fun _ _ h => absurd h (by simp [emptyDirFs]), by decide⟩

theorem dirlink_emptyDirFs (inum : ℕ) (hinum : inum = 5 ∨ inum = 65536) :
    ∃ s', dirlink emptyDirFs 0 nameA inum = .ok (true, s') := by
  have h : (dirlink emptyDirFs 0 nameA inum).toOption.map Prod.fst = some true := by
    rcases hinum with rfl | rfl <;> decide
  obtain ⟨⟨r, s'⟩, hw, hr⟩ := Except.exists_of_toOption_map h
  cases hr
  exact ⟨s', hw⟩

/-- `dirlink(dp, "a", 65536)` into the empty directory returns `0`, and `dirlookup(dp, "a")`
then finds nothing: `de.inum` holds `65536 % 2 ^ 16 = 0`, so the entry reads as cleared. -/
theorem dirlink_inum_truncated :
    ∃ s', dirlink emptyDirFs 0 nameA 65536 = .ok (true, s') ∧ dirlookup s' 0 nameA = .ok (none, s') := by
  obtain ⟨s', hw⟩ := dirlink_emptyDirFs 65536 (.inr rfl)
  obtain ⟨hnone, hf', hdir', hsz', hent⟩ := dirlink_entry emptyDirFs_fileOk (by decide) (by decide) hw
  exact ⟨s', hw, dirlookup_putAt_none hf' hdir' hsz' hent hnone (by decide)⟩

/-- `dirlink(dp, "a", 5)` into the empty directory: block 48 is free, so the entry goes
into slot 0 of a new block, and `dirlookup(dp, "a")` gets inode 5 at offset 0. -/
theorem dirlink_dirlookup_five :
    FileOk emptyDirFs 0 ∧ emptyDirFs.Room 4 ∧ SlotBlock emptyDirFs 0 ∧
      ∃ s', dirlink emptyDirFs 0 nameA 5 = .ok (true, s') ∧
        dirlookup s' 0 nameA = iget s' 5 >>= fun p => .ok (some (p.1, 0 * DIRENTSZ), p.2) := by
  have hslot : SlotBlock emptyDirFs 0 := .inr (.inr ⟨by decide, 48, by decide, by decide⟩)
  have hl := @dirlink_dirlookup emptyDirFs 0 emptyDirFs_fileOk (by decide) (by decide) nameA 5 (by decide)
    (by decide)
  obtain ⟨s', hw⟩ := hl.1 (by decide) (by decide) hslot
  obtain ⟨-, -, hlook, -⟩ := (hl.2 true s' hw).2.2 rfl
  have h0 : freeEntry (entries emptyDirFs 0) = 0 := by decide
  exact ⟨emptyDirFs_fileOk, by decide, hslot, s', hw, h0 ▸ hlook nameA fun _ _ => rfl⟩

end Xv6
