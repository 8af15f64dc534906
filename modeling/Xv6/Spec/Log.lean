import Xv6.Spec.Param
import Xv6.Lib.Store
import Xv6.Lib.ByteMem

/-! The log of `log.c`: the in-memory `struct log` with `begin_op`, `log_write` and
`end_op`, and the disk writes of `commit()` and `recover_from_log()`.

The disk is a store of 512-byte sectors; block `b` (`BSIZE` = 1024) is sectors `2b` and
`2b + 1`, and `bwrite` writes them in that order. A power failure may come between any two
sector writes. The log header (`struct logheader`, 4 + 4 * `LOGSIZE` = 124 bytes) lies in
the first sector of block `log.start`; `HeaderCodec` says how `read_head` and `write_head`
see it there. The buffer cache is a function from blocks to their cached contents: every
block of the transaction is pinned by `log_write`, so the cache holds it until `commit`. -/

namespace Xv6

/-- `struct log` without its lock and device; `lh` is `log.lh.block[0..log.lh.n)`. -/
structure Log where
  start : ℕ
  size : ℕ
  outstanding : ℕ
  committing : Bool
  lh : List ℕ
  deriving DecidableEq, Repr

namespace Log

/-- `begin_op()`: `none` while it has to sleep, committing or short of log space. -/
def beginOp (l : Log) : Option Log :=
  if l.committing then none
  else if l.lh.length + (l.outstanding + 1) * MAXOPBLOCKS > LOGSIZE then none
  else some { l with outstanding := l.outstanding + 1 }

/-- `log_write(b)`: block `b` joins the transaction unless it is in it already. -/
def logWrite (l : Log) (b : ℕ) : Except String Log :=
  if l.lh.length ≥ LOGSIZE ∨ l.lh.length ≥ l.size - 1 then .error "too big a transaction"
  else if l.outstanding < 1 then .error "log_write outside of trans"
  else if b ∈ l.lh then .ok l
  else .ok { l with lh := l.lh ++ [b] }

/-- `end_op()`: the log, and whether this call goes on to `commit()`. -/
def endOp (l : Log) : Except String (Log × Bool) :=
  let l := { l with outstanding := l.outstanding - 1 }
  if l.committing then .error "log.committing"
  else if l.outstanding = 0 then .ok ({ l with committing := true }, true)
  else .ok (l, false)

/-- The log once `commit()` has run and `end_op` has cleared `committing`. -/
def committed (l : Log) : Log := { l with lh := [], committing := false }

theorem beginOp_eq_some {l l' : Log} (h : l.beginOp = some l') :
    l.committing = false ∧ l.lh.length + (l.outstanding + 1) * MAXOPBLOCKS ≤ LOGSIZE ∧
      l' = { l with outstanding := l.outstanding + 1 } := by
  unfold beginOp at h
  split_ifs at h with hc hfull
  cases h
  simp_all

theorem logWrite_eq_ok {l l' : Log} {b : ℕ} (h : l.logWrite b = .ok l') :
    l.lh.length < LOGSIZE ∧ l.lh.length < l.size - 1 ∧ 1 ≤ l.outstanding ∧
      l' = if b ∈ l.lh then l else { l with lh := l.lh ++ [b] } := by
  unfold logWrite at h
  split_ifs at h with hbig hout hb <;> cases h
  · exact ⟨by omega, by omega, by omega, (if_pos hb).symm⟩
  · exact ⟨by omega, by omega, by omega, (if_neg hb).symm⟩

theorem logWrite_of_room {l : Log} (b : ℕ) (h : l.lh.length < LOGSIZE ∧ l.lh.length < l.size - 1 ∧ 1 ≤ l.outstanding) :
    l.logWrite b = .ok (if b ∈ l.lh then l else { l with lh := l.lh ++ [b] }) := by
  have hbig : ¬(l.lh.length ≥ LOGSIZE ∨ l.lh.length ≥ l.size - 1) := by omega
  have hout : ¬l.outstanding < 1 := by omega
  unfold logWrite
  rw [if_neg hbig, if_neg hout]
  split_ifs <;> rfl

theorem endOp_eq_ok {l l' : Log} {c : Bool} (h : l.endOp = .ok (l', c)) :
    l.committing = false ∧ l'.lh = l.lh ∧ l'.size = l.size ∧ l'.start = l.start ∧
      l'.outstanding = l.outstanding - 1 ∧ (c = true ↔ l.outstanding - 1 = 0) := by
  unfold endOp at h
  dsimp only at h
  split_ifs at h with hc hz <;> cases h <;> simp_all

end Log

/-! ## Concurrent FS operations -/

/-- A call of an FS operation into the log; `o` is the operation. -/
inductive LogEvent
  | beginOp (o : ℕ)
  | logWrite (o : ℕ) (b : ℕ)
  | endOp (o : ℕ)
  deriving DecidableEq, Repr

/-- One call: `none` when `begin_op` would sleep, an error when the kernel panics. -/
def logStep (l : Log) : LogEvent → Option (Except String Log)
  | .beginOp _ => l.beginOp.map .ok
  | .logWrite _ b => some (l.logWrite b)
  | .endOp _ => some (l.endOp.map fun (l', c) => if c then l'.committed else l')

/-- A run of calls; a panic ends it. -/
def logRun (l : Log) : List LogEvent → Option (Except String Log)
  | [] => some (.ok l)
  | e :: es =>
    match logStep l e with
    | some (.ok l') => logRun l' es
    | r => r

/-- The log after `initlog` on a file system made by `mkfs`: `logstart = 2`, `nlog = LOGSIZE`. -/
def initLog : Log := { start := 2, size := LOGSIZE, outstanding := 0, committing := false, lh := [] }

/-! ## Commit and recovery -/

/-- What a `struct logheader` can hold: at most `LOGSIZE` blocks, each a 32-bit number. -/
def HeaderFits (bl : List ℕ) : Prop := bl.length ≤ LOGSIZE ∧ ∀ b ∈ bl, b < 2 ^ 32

instance : DecidablePred HeaderFits := fun _ => inferInstanceAs (Decidable (_ ∧ _))

theorem headerFits_nil : HeaderFits [] := ⟨Nat.zero_le _, fun _ h => absurd h List.not_mem_nil⟩

/-- Where `read_head` finds `n` and `block[0..n)` in the header sector, and what
`write_head` makes of that sector when it sets them; a header that fits reads back. The
crash proof below needs no more of the sectors than this. -/
structure HeaderCodec (δ : Type) where
  read : δ → List ℕ
  write : δ → List ℕ → δ
  read_write : ∀ s bl, HeaderFits bl → read (write s bl) = bl

/-- A disk sector: 512 bytes. -/
structure Sector where
  bytes : List UInt8
  length_bytes : bytes.length = 512
  deriving DecidableEq

namespace Sector

open ByteMem

/-- The sector with every byte `v`. -/
def fill (v : UInt8) : Sector := ⟨List.replicate 512 v, List.length_replicate⟩

/-- The 4-byte little-endian word at `off`. -/
def word (s : Sector) (off : ℕ) : ℕ := readWord (fun x => s.bytes.getD x 0) off 4

/-- What `read_head()` copies out of the sector as a `struct logheader`: the `int` `n`, and
then `block[0..n)`; a negative `n` runs the loop no time. `write_head` never writes an `n`
over `LOGSIZE`; for one over 126 the model reads the entries past the sector as 0, where
`read_head` would go on into the rest of the buffer. -/
def logheader (s : Sector) : List ℕ :=
  let n := s.word 0
  (List.range (if n < 2 ^ 31 then n else 0)).map fun i => s.word (4 + 4 * i)

/-- What `write_head()` makes of the sector: `hb->n` and `hb->block[0..n)` set from `bl`, every
other byte as it was. The model drops bytes that would lie past the sector. -/
def setLogheader (s : Sector) (bl : List ℕ) : Sector :=
  ⟨patch s.bytes 0 (((bl.length :: bl).flatMap (leBytes 4)).take 512), by
    rw [length_patch] <;> simp [s.length_bytes]⟩

theorem bytes_setLogheader (s : Sector) (bl : List ℕ) :
    (s.setLogheader bl).bytes = patch s.bytes 0 (((bl.length :: bl).flatMap (leBytes 4)).take 512) :=
  rfl

/-- A header that fits reads back as `write_head` set it: its bytes, 4 + 4 * `LOGSIZE`
of them, lie in the sector, and every word of it fits 32 bits. -/
theorem logheader_setLogheader (s : Sector) {bl : List ℕ} (h : HeaderFits bl) :
    (s.setLogheader bl).logheader = bl := by
  have hsize : bl.length ≤ 30 := h.1
  have hlen : ((bl.length :: bl).flatMap (leBytes 4)).length ≤ 512 := by
    rw [length_flatMap_leBytes, List.length_cons]; omega
  -- byte `k` of the header is byte `k` of the words `n, block[0], ...`
  have hbytes : ∀ k < 4 * (bl.length :: bl).length, (s.setLogheader bl).bytes.getD (0 + k) 0 =
      ((bl.length :: bl).flatMap (leBytes 4)).getD k 0 := by
    intro k hk
    have hk' : k < ((bl.length :: bl).flatMap (leBytes 4)).length := by
      rwa [length_flatMap_leBytes]
    rw [Nat.zero_add, bytes_setLogheader, List.take_of_length_le hlen,
      getD_patch (by simp [s.length_bytes]; omega), if_pos ⟨Nat.zero_le k, by omega⟩, Nat.sub_zero]
  have hword : ∀ j < bl.length + 1, (s.setLogheader bl).word (4 * j) = (bl.length :: bl).getD j 0 := by
    intro j hj
    have hlt : (bl.length :: bl).getD j 0 < 256 ^ 4 := by
      cases j with
      | zero => simp; omega
      | succ j =>
        have hj' : j < bl.length := by omega
        simpa [List.getD_eq_getElem?_getD, hj'] using h.2 _ (List.getElem_mem hj')
    rw [word, ← Nat.zero_add (4 * j), readWord_flatMap_leBytes (by simpa using hj) hbytes,
      Nat.mod_eq_of_lt hlt]
  have hn : (s.setLogheader bl).word 0 = bl.length := hword 0 (by omega)
  rw [logheader]
  simp only [hn, if_pos (show bl.length < 2 ^ 31 by omega)]
  apply List.ext_getElem (by simp)
  intro i _ hi
  rw [List.getElem_map, List.getElem_range, show 4 + 4 * i = 4 * (i + 1) by ring,
    hword (i + 1) (by omega)]
  simp [hi]

end Sector

/-- `struct logheader` as `read_head` and `write_head` lay it out in the header sector. -/
def logheaderCodec : HeaderCodec Sector :=
  ⟨Sector.logheader, Sector.setLogheader, fun s _ h => s.logheader_setLogheader h⟩

variable {δ : Type}

/-- The block `b` of a disk of sectors. -/
def block (d : ℕ → δ) (b : ℕ) : δ × δ := (d (2 * b), d (2 * b + 1))

/-- `bwrite` of block `b` with contents `v`: its two sectors, in order. -/
def bwrite (b : ℕ) (v : δ × δ) : List (ℕ × δ) := [(2 * b, v.1), (2 * b + 1, v.2)]

/-- `write_log()`: the cached block `lh[tail]` into log block `start + tail + 1`. No block
of a transaction lies in the log, so the cache entries read are those `log_write` left. -/
def writeLog (start : ℕ) (lh : List ℕ) (cache : ℕ → δ × δ) : List (ℕ × δ) :=
  (List.range lh.length).flatMap fun tail => bwrite (start + tail + 1) (cache (lh.getD tail 0))

/-- `write_head()`: the header block `hb` with `n` and `block[0..n)` set to `lh`. -/
def writeHead (c : HeaderCodec δ) (start : ℕ) (hb : δ × δ) (lh : List ℕ) : List (ℕ × δ) :=
  bwrite start (c.write hb.1 lh, hb.2)

/-- `install_trans()`: log block `start + tail + 1`, whose contents are `logBlock tail`,
to block `lh[tail]`. -/
def installTrans (lh : List ℕ) (logBlock : ℕ → δ × δ) : List (ℕ × δ) :=
  (List.range lh.length).flatMap fun tail => bwrite (lh.getD tail 0) (logBlock tail)

/-- `commit()` on the disk `d`: the sector writes it issues, in order. `install_trans(0)`
reads the log blocks from the cache, where `write_log` left the transaction's blocks. -/
def commit (c : HeaderCodec δ) (l : Log) (cache : ℕ → δ × δ) (d : ℕ → δ) : List (ℕ × δ) :=
  if 0 < l.lh.length then
    writeLog l.start l.lh cache ++ writeHead c l.start (block d l.start) l.lh ++
      installTrans l.lh (fun tail => cache (l.lh.getD tail 0)) ++
      writeHead c l.start (c.write (d (2 * l.start)) l.lh, d (2 * l.start + 1)) []
  else []

/-- `recover_from_log()` at boot on the disk `d`: `read_head`, `install_trans(1)` from the
log blocks on disk, and `write_head` of an empty header. -/
def recoverFromLog (c : HeaderCodec δ) (start : ℕ) (d : ℕ → δ) : List (ℕ × δ) :=
  installTrans (c.read (d (2 * start))) (fun tail => block d (start + tail + 1)) ++
    writeHead c start (block d start) []

/-! ## Where the writes go -/

theorem mem_bwrite {b : ℕ} {v : δ × δ} {w : ℕ × δ} (h : w ∈ bwrite b v) :
    w = (2 * b, v.1) ∨ w = (2 * b + 1, v.2) := by
  simpa [bwrite] using h

theorem block_of_mem_bwrite {b : ℕ} {v : δ × δ} {w : ℕ × δ} (h : w ∈ bwrite b v) : w.1 / 2 = b := by
  rcases mem_bwrite h with rfl | rfl <;> omega

theorem block_apply_of_ne {e : ℕ → δ} {ws : List (ℕ × δ)} {b : ℕ} (h : ∀ w ∈ ws, w.1 / 2 ≠ b) :
    block (Store.apply e ws) b = block e b := by
  have h0 : ∀ w ∈ ws, w.1 ≠ 2 * b := fun w hw hs => h w hw (by omega)
  have h1 : ∀ w ∈ ws, w.1 ≠ 2 * b + 1 := fun w hw hs => h w hw (by omega)
  simp only [block, Store.apply_of_forall_ne h0, Store.apply_of_forall_ne h1]

/-- After `bwrite`s of blocks `g t` with contents `f t`, a block that some of them write,
each with contents `v`, holds `v`. -/
theorem block_apply_bwrites {e : ℕ → δ} {n : ℕ} {g : ℕ → ℕ} {f : ℕ → δ × δ} {b : ℕ} {v : δ × δ}
    (hsome : ∃ t < n, g t = b) (hall : ∀ t < n, g t = b → f t = v) :
    block (Store.apply e ((List.range n).flatMap fun t => bwrite (g t) (f t))) b = v := by
  obtain ⟨t₀, ht₀, hg₀⟩ := hsome
  have hmem : ∀ w ∈ (List.range n).flatMap (fun t => bwrite (g t) (f t)),
      ∃ t < n, w = (2 * g t, (f t).1) ∨ w = (2 * g t + 1, (f t).2) := by
    intro w hw
    obtain ⟨t, ht, hw⟩ := List.mem_flatMap.mp hw
    exact ⟨t, List.mem_range.mp ht, mem_bwrite hw⟩
  have hin : ∀ w, w ∈ bwrite (g t₀) (f t₀) →
      w ∈ (List.range n).flatMap (fun t => bwrite (g t) (f t)) :=
    fun w hw => List.mem_flatMap.mpr ⟨t₀, List.mem_range.mpr ht₀, hw⟩
  have h1 : Store.apply e ((List.range n).flatMap fun t => bwrite (g t) (f t)) (2 * b) = v.1 := by
    apply Store.apply_of_forall_eq
    · intro w hw hs
      obtain ⟨t, ht, rfl | rfl⟩ := hmem w hw
      · rw [hall t ht (by simp at hs; omega)]
      · simp at hs; omega
    · exact ⟨(2 * g t₀, (f t₀).1), hin _ (by simp [bwrite]), by simp [hg₀]⟩
  have h2 : Store.apply e ((List.range n).flatMap fun t => bwrite (g t) (f t)) (2 * b + 1) = v.2 := by
    apply Store.apply_of_forall_eq
    · intro w hw hs
      obtain ⟨t, ht, rfl | rfl⟩ := hmem w hw
      · simp at hs; omega
      · rw [hall t ht (by simp at hs; omega)]
    · exact ⟨(2 * g t₀ + 1, (f t₀).2), hin _ (by simp [bwrite]), by simp [hg₀]⟩
  rw [block, h1, h2]

theorem block_of_mem_writeLog {start : ℕ} {lh : List ℕ} {cache : ℕ → δ × δ} {w : ℕ × δ}
    (h : w ∈ writeLog start lh cache) : ∃ t < lh.length, w.1 / 2 = start + t + 1 := by
  obtain ⟨t, ht, hw⟩ := List.mem_flatMap.mp h
  exact ⟨t, List.mem_range.mp ht, block_of_mem_bwrite hw⟩

theorem block_of_mem_installTrans {lh : List ℕ} {f : ℕ → δ × δ} {w : ℕ × δ}
    (h : w ∈ installTrans lh f) : w.1 / 2 ∈ lh := by
  obtain ⟨t, ht, hw⟩ := List.mem_flatMap.mp h
  rw [block_of_mem_bwrite hw]
  simp [List.getD_eq_getElem?_getD, List.mem_range.mp ht]

theorem block_of_mem_writeHead {c : HeaderCodec δ} {start : ℕ} {hb : δ × δ} {lh : List ℕ}
    {w : ℕ × δ} (h : w ∈ writeHead c start hb lh) : w.1 / 2 = start :=
  block_of_mem_bwrite h

theorem read_apply_writeHead {c : HeaderCodec δ} {start : ℕ} {hb : δ × δ} {lh : List ℕ}
    (hfit : HeaderFits lh) (e : ℕ → δ) {j : ℕ} (hj : 0 < j) :
    c.read (Store.apply e ((writeHead c start hb lh).take j) (2 * start)) = lh := by
  obtain ⟨j, rfl⟩ : ∃ i, j = i + 1 := ⟨j - 1, by omega⟩
  have hrest : ∀ w ∈ ((writeHead c start hb lh).take (j + 1)).tail, w.1 ≠ 2 * start := by
    cases j <;> simp [writeHead, bwrite]
  rw [show (writeHead c start hb lh).take (j + 1) =
      (2 * start, c.write hb.1 lh) :: ((writeHead c start hb lh).take (j + 1)).tail by
    simp [writeHead, bwrite]]
  rw [Store.apply_cons, Store.apply_of_forall_ne hrest, Function.update_self, c.read_write _ _ hfit]

/-- Boots after a power failure: for each `k` of `ks` a recovery that fails in turn after
`k` sector writes, then one that completes. -/
def reboot (c : HeaderCodec δ) (start : ℕ) : List ℕ → (ℕ → δ) → (ℕ → δ)
  | [], d => Store.apply d (recoverFromLog c start d)
  | k :: ks, d => reboot c start ks (Store.apply d ((recoverFromLog c start d).take k))

end Xv6
