import Mathlib.Tactic
import Mathlib.Data.List.GetD

/-! Byte-addressed memory as a function from addresses to bytes: storing a run of bytes,
reading one back, and little-endian words. A read below a store costs one comparison and
one inside or above it two, so concrete memories evaluate quickly under `decide`. -/

namespace ByteMem

/-- Store `bs` at `a`, `a + 1`, .... -/
def writeBytes (m : ℕ → UInt8) (a : ℕ) (bs : List UInt8) : ℕ → UInt8 :=
  fun x => if x < a then m x else if x < a + bs.length then bs.getD (x - a) 0 else m x

/-- The `n` bytes at `a`, `a + 1`, .... -/
def readBytes (m : ℕ → UInt8) (a n : ℕ) : List UInt8 := (List.range n).map fun i => m (a + i)

/-- The `w`-byte little-endian encoding of `v` (its low `8 * w` bits). -/
def leBytes (w v : ℕ) : List UInt8 := (List.range w).map fun i => UInt8.ofNat (v / 256 ^ i)

/-- The `w`-byte little-endian word at `a`. -/
def readWord (m : ℕ → UInt8) (a : ℕ) : ℕ → ℕ
  | 0 => 0
  | w + 1 => readWord m a w + (m (a + w)).toNat * 256 ^ w

/-- Store the `w`-byte little-endian word `v` at `a`: byte `i` is `v / 256 ^ i`. -/
def writeWord (m : ℕ → UInt8) (a w v : ℕ) : ℕ → UInt8 :=
  fun x => if x < a then m x else if x < a + w then UInt8.ofNat (v / 256 ^ (x - a)) else m x

/-- `buf` with `bs` stored from offset `off` on, as a struct assignment or a `memmove` into a
sector buffer does it. -/
def patch (buf : List UInt8) (off : ℕ) (bs : List UInt8) : List UInt8 :=
  buf.take off ++ bs ++ buf.drop (off + bs.length)

/-- Set the `n` bytes from `a` on to `c`. -/
def fill (m : ℕ → UInt8) (a n : ℕ) (c : UInt8) : ℕ → UInt8 :=
  fun x => if x < a then m x else if x < a + n then c else m x

variable {m : ℕ → UInt8}

@[simp] theorem length_readBytes (a n : ℕ) : (readBytes m a n).length = n := by simp [readBytes]
@[simp] theorem length_leBytes (w v : ℕ) : (leBytes w v).length = w := by simp [leBytes]

theorem length_flatMap_leBytes (w : ℕ) (l : List ℕ) : (l.flatMap (leBytes w)).length = w * l.length := by
  induction l with
  | nil => rfl
  | cons v l ih => simp [ih, Nat.mul_succ, Nat.add_comm]

theorem writeBytes_add {a i : ℕ} {bs : List UInt8} (h : i < bs.length) :
    writeBytes m a bs (a + i) = bs.getD i 0 := by
  simp [writeBytes, h]

@[simp] theorem writeBytes_nil (a : ℕ) : writeBytes m a [] = m := by
  funext x
  simp only [writeBytes, List.length_nil, Nat.add_zero]
  split_ifs <;> rfl

theorem writeBytes_apply (a : ℕ) (bs : List UInt8) (x : ℕ) :
    writeBytes m a bs x = if a ≤ x ∧ x < a + bs.length then bs.getD (x - a) 0 else m x := by
  unfold writeBytes
  split_ifs <;> first | rfl | omega

theorem writeBytes_of_lt {a x : ℕ} {bs : List UInt8} (h : x < a) : writeBytes m a bs x = m x := by
  simp [writeBytes, h]

theorem writeBytes_of_le {a x : ℕ} {bs : List UInt8} (h : a + bs.length ≤ x) :
    writeBytes m a bs x = m x := by
  simp [writeBytes, Nat.not_lt.mpr h, show ¬ x < a by omega]

@[simp] theorem readBytes_writeBytes (a : ℕ) (bs : List UInt8) : readBytes (writeBytes m a bs) a bs.length = bs := by
  apply List.ext_getElem (by simp)
  intro i hi _
  simp only [length_readBytes] at hi
  simp [readBytes, writeBytes_add hi, List.getElem?_eq_getElem hi]

theorem readBytes_writeBytes_of_disjoint {a b n : ℕ} {bs : List UInt8} (h : b + bs.length ≤ a ∨ a + n ≤ b) :
    readBytes (writeBytes m b bs) a n = readBytes m a n := by
  apply List.map_congr_left
  intro i hi
  rw [List.mem_range] at hi
  rcases h with h | h
  · exact writeBytes_of_le (by omega)
  · exact writeBytes_of_lt (by omega)

theorem readBytes_add (a k l : ℕ) : readBytes m a (k + l) = readBytes m a k ++ readBytes m (a + k) l := by
  simp [readBytes, List.range_add, Function.comp_def, Nat.add_assoc]

theorem getD_readBytes {a n k : ℕ} (h : k < n) : (readBytes m a n).getD k 0 = m (a + k) := by
  simp [readBytes, List.getD_eq_getElem?_getD, h]

theorem getD_leBytes {w v i : ℕ} (h : i < w) : (leBytes w v).getD i 0 = UInt8.ofNat (v / 256 ^ i) := by
  simp [leBytes, List.getD_eq_getElem?_getD, h]

theorem length_patch {buf bs : List UInt8} {off : ℕ} (h : off + bs.length ≤ buf.length) :
    (patch buf off bs).length = buf.length := by
  simp only [patch, List.length_append, List.length_take, List.length_drop]
  omega

theorem getD_patch {buf bs : List UInt8} {off k : ℕ} (h : off + bs.length ≤ buf.length) :
    (patch buf off bs).getD k 0 =
      if off ≤ k ∧ k < off + bs.length then bs.getD (k - off) 0 else buf.getD k 0 := by
  simp only [patch, List.getD_eq_getElem?_getD]
  by_cases hk : k < off
  · rw [List.getElem?_append_left (by simp; omega), List.getElem?_append_left (by simp; omega),
      List.getElem?_take, if_pos hk, if_neg (by omega)]
  · have ht : (buf.take off).length = off := by simp; omega
    by_cases hb : k < off + bs.length
    · rw [List.getElem?_append_left (by simp; omega), List.getElem?_append_right (by omega), ht,
        if_pos ⟨by omega, hb⟩]
    · rw [List.getElem?_append_right (by simp; omega), List.length_append, ht,
        List.getElem?_drop, if_neg (by omega)]
      congr 2
      omega

theorem writeBytes_patch_readBytes {a n off : ℕ} {bs : List UInt8} (h : off + bs.length ≤ n) :
    writeBytes m a (patch (readBytes m a n) off bs) = writeBytes m (a + off) bs := by
  have hl : off + bs.length ≤ (readBytes m a n).length := by simpa using h
  funext x
  simp only [writeBytes, length_patch hl, length_readBytes]
  by_cases h₁ : x < a
  · simp [h₁, show x < a + off by omega]
  by_cases h₂ : x < a + n
  · rw [if_neg h₁, if_pos h₂, getD_patch hl, getD_readBytes (by omega)]
    by_cases h₃ : off ≤ x - a ∧ x - a < off + bs.length
    · rw [if_pos h₃, if_neg (by omega), if_pos (by omega)]
      congr 1
      omega
    · rw [if_neg h₃]
      split_ifs <;> first | omega | (congr 1; omega)
  · rw [if_neg h₁, if_neg h₂, if_neg (by omega), if_neg (by omega)]

theorem getD_flatMap_leBytes {w i : ℕ} (hi : i < w) :
    ∀ (l : List ℕ) (j : ℕ), (l.flatMap (leBytes w)).getD (w * j + i) 0 = (leBytes w (l.getD j 0)).getD i 0
  | [], j => by rw [List.flatMap_nil, List.getD_nil, List.getD_nil, getD_leBytes hi, Nat.zero_div]; rfl
  | v :: l, 0 => by
    rw [List.flatMap_cons, List.getD_append _ _ _ _ (by simp; omega), Nat.mul_zero, Nat.zero_add]
    rfl
  | v :: l, j + 1 => by
    rw [List.flatMap_cons, List.getD_append_right _ _ _ _ (by rw [length_leBytes, Nat.mul_succ]; omega), length_leBytes,
      show w * (j + 1) + i - w = w * j + i by rw [Nat.mul_succ]; omega, getD_flatMap_leBytes hi l j]
    rfl

theorem readWord_of_bytes {a v : ℕ} :
    ∀ {w}, (∀ i < w, m (a + i) = UInt8.ofNat (v / 256 ^ i)) → readWord m a w = v % 256 ^ w
  | 0, _ => (Nat.mod_one v).symm
  | w + 1, h => by
    rw [readWord, readWord_of_bytes fun i hi => h i (by omega), h w (by omega),
      UInt8.toNat_ofNat', Nat.mod_pow_succ (b := 256), Nat.mul_comm (256 ^ w)]

/-- Word `j` of `l`, stored as `w`-byte little-endian words from `off` on, reads back as
`l[j]` cut to the word. -/
theorem readWord_flatMap_leBytes {buf : List UInt8} {off w j : ℕ} {l : List ℕ} (hj : j < l.length)
    (h : ∀ k < w * l.length, buf.getD (off + k) 0 = (l.flatMap (leBytes w)).getD k 0) :
    readWord (fun x => buf.getD x 0) (off + w * j) w = l.getD j 0 % 256 ^ w :=
  readWord_of_bytes fun i hi => by
    have hk : w * j + i < w * l.length :=
      calc w * j + i < w * (j + 1) := by rw [Nat.mul_succ]; omega
        _ ≤ w * l.length := Nat.mul_le_mul_left w hj
    rw [Nat.add_assoc, h _ hk, getD_flatMap_leBytes hi, getD_leBytes hi]

theorem readWord_writeBytes {a off w v : ℕ} {bs : List UInt8} (hw : off + w ≤ bs.length)
    (h : ∀ i < w, bs.getD (off + i) 0 = UInt8.ofNat (v / 256 ^ i)) :
    readWord (writeBytes m a bs) (a + off) w = v % 256 ^ w :=
  readWord_of_bytes fun i hi => by rw [Nat.add_assoc, writeBytes_add (by omega), h i hi]

@[simp] theorem readWord_writeWord (a w v : ℕ) : readWord (writeWord m a w v) a w = v % 256 ^ w :=
  readWord_of_bytes fun i hi => by simp [writeWord, hi]

theorem writeWord_of_not_mem {a w v x : ℕ} (h : x < a ∨ a + w ≤ x) : writeWord m a w v x = m x := by
  unfold writeWord
  split_ifs <;> first | rfl | omega

theorem fill_of_not_mem {a n x : ℕ} {c : UInt8} (h : x < a ∨ a + n ≤ x) : fill m a n c x = m x := by
  unfold fill
  split_ifs <;> first | rfl | omega

theorem readBytes_congr {m' : ℕ → UInt8} {a n : ℕ} (h : ∀ i < n, m' (a + i) = m (a + i)) :
    readBytes m' a n = readBytes m a n :=
  List.map_congr_left fun i hi => h i (List.mem_range.mp hi)

theorem readWord_congr {m' : ℕ → UInt8} {a a' : ℕ} :
    ∀ {w}, (∀ i < w, m (a + i) = m' (a' + i)) → readWord m a w = readWord m' a' w
  | 0, _ => rfl
  | w + 1, h => by
    rw [readWord, readWord, readWord_congr fun i hi => h i (by omega), h w (by omega)]

theorem drop_readBytes (a n k : ℕ) : (readBytes m a n).drop k = readBytes m (a + k) (n - k) := by
  by_cases hk : k ≤ n
  · obtain ⟨d, rfl⟩ := Nat.exists_eq_add_of_le hk
    rw [readBytes_add, List.drop_left' (length_readBytes _ _), Nat.add_sub_cancel_left]
  · rw [List.drop_of_length_le (by simp; omega), Nat.sub_eq_zero_of_le (by omega)]
    simp [readBytes]

theorem readBytes_succ (a n : ℕ) : readBytes m a (n + 1) = m a :: readBytes m (a + 1) n := by
  simp [readBytes, List.range_succ_eq_map, Function.comp_def, Nat.add_assoc, Nat.add_comm 1]

theorem readBytes_succ_end (a n : ℕ) : readBytes m a (n + 1) = readBytes m a n ++ [m (a + n)] := by
  simp [readBytes, List.range_succ]

theorem writeBytes_update_succ (a : ℕ) (v : UInt8) (bs : List UInt8) :
    writeBytes (Function.update m a v) (a + 1) bs = writeBytes m a (v :: bs) := by
  funext x
  simp only [writeBytes, List.length_cons, Function.update_apply]
  rcases lt_trichotomy x a with h | rfl | h
  · simp [h, show x ≠ a by omega, show x < a + 1 by omega]
  · simp
  · have h₁ : ¬ x < a + 1 := by omega
    have h₂ : ¬ x < a := by omega
    simp only [h₁, h₂, show x ≠ a by omega, if_false]
    by_cases hx : x < a + 1 + bs.length
    · rw [if_pos hx, if_pos (by omega), show x - a = x - (a + 1) + 1 by omega, List.getD_cons_succ]
    · rw [if_neg hx, if_neg (by omega)]

theorem writeBytes_update_end (a : ℕ) (v : UInt8) (bs : List UInt8) :
    writeBytes (Function.update m (a + bs.length) v) a bs = writeBytes m a (bs ++ [v]) := by
  funext x
  simp only [writeBytes, List.length_append, List.length_singleton, Function.update_apply]
  by_cases h₁ : x < a
  · simp [h₁, show x ≠ a + bs.length by omega]
  by_cases h₂ : x < a + bs.length
  · rw [if_neg h₁, if_pos h₂, if_neg h₁, if_pos (by omega), List.getD_append _ _ _ _ (by omega)]
  · rw [if_neg h₁, if_neg h₂, if_neg h₁]
    by_cases h₃ : x = a + bs.length
    · subst h₃
      rw [if_pos rfl, if_pos (by omega), Nat.add_sub_cancel_left, List.getD_append_right _ _ _ _ le_rfl,
        Nat.sub_self, List.getD_cons_zero]
    · rw [if_neg h₃, if_neg (by omega)]

theorem writeBytes_readBytes_apply (dst src n x : ℕ) :
    writeBytes m dst (readBytes m src n) x =
      if dst ≤ x ∧ x < dst + n then m (src + (x - dst)) else m x := by
  unfold writeBytes
  by_cases h₁ : x < dst
  · rw [if_pos h₁, if_neg (by omega)]
  by_cases h₂ : x < dst + n
  · rw [if_neg h₁, length_readBytes, if_pos h₂, if_pos ⟨by omega, h₂⟩, getD_readBytes (by omega)]
  · rw [if_neg h₁, length_readBytes, if_neg h₂, if_neg (by omega)]

end ByteMem
