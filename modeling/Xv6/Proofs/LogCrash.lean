import Xv6.Spec.Log

/-! Crash atomicity of the log. A power failure after any sector write of `commit()`, and
after any sector write of each recovery it interrupts in turn, leaves a disk on which a
completed `recover_from_log()` finds every block of the transaction with its new contents,
or every one with its old contents. Outside the log region no other block changes. Inside
it the log blocks and the header block do change, which the claim as stated excludes.

The disk goes through three phases, each a predicate on it: `Old` (header empty, blocks as
before), `Committed` (header naming the transaction, its log blocks complete) and
`Installed` (header empty, blocks new). Every sector write of `commit` and of recovery
keeps the disk in one of them, and a completed recovery ends in `Old` or `Installed`. -/

namespace Xv6

variable {δ : Type}

/-- Block `b` lies outside the log region, blocks `log.start .. log.start + log.size - 1`. -/
def Log.Outside (l : Log) (b : ℕ) : Prop := b < l.start ∨ l.start + l.size ≤ b

section Phases

variable (c : HeaderCodec δ) (l : Log) (cache : ℕ → δ × δ) (d : ℕ → δ)

/-- Every block outside the log that the transaction does not name is as it was on `d`. -/
def Untouched (e : ℕ → δ) : Prop := ∀ b, b ∉ l.lh → l.Outside b → block e b = block d b

/-- Before the commit point: the header is empty and the transaction's blocks are old. -/
structure Old (e : ℕ → δ) : Prop where
  head : c.read (e (2 * l.start)) = []
  home : ∀ b ∈ l.lh, block e b = block d b
  rest : Untouched l d e

/-- Past the commit point: the header names the transaction and its log blocks are whole. -/
structure Committed (e : ℕ → δ) : Prop where
  head : c.read (e (2 * l.start)) = l.lh
  log : ∀ t < l.lh.length, block e (l.start + t + 1) = cache (l.lh.getD t 0)
  rest : Untouched l d e

/-- Installed and cleared: the header is empty and the transaction's blocks are new. -/
structure Installed (e : ℕ → δ) : Prop where
  head : c.read (e (2 * l.start)) = []
  home : ∀ b ∈ l.lh, block e b = cache b
  rest : Untouched l d e

def Phase (e : ℕ → δ) : Prop := Old c l d e ∨ Committed c l cache d e ∨ Installed c l cache d e

end Phases

variable {c : HeaderCodec δ} {l : Log} {cache : ℕ → δ × δ} {d e : ℕ → δ}

/-! ## The log region -/

section Region

variable (hhome : ∀ b ∈ l.lh, l.Outside b) (hroom : l.lh.length < l.size)

include hroom in
theorem inside_log_block {t : ℕ} (ht : t < l.lh.length) : ¬ l.Outside (l.start + t + 1) := by
  unfold Log.Outside; omega

include hroom in
theorem inside_header : ¬ l.Outside l.start := by
  unfold Log.Outside; omega

include hhome hroom in
theorem home_ne_header {b : ℕ} (hb : b ∈ l.lh) : b ≠ l.start :=
  fun h => inside_header hroom (h ▸ hhome b hb)

include hhome hroom in
theorem home_ne_log_block {b t : ℕ} (hb : b ∈ l.lh) (ht : t < l.lh.length) : b ≠ l.start + t + 1 :=
  fun h => inside_log_block hroom ht (h ▸ hhome b hb)

end Region

theorem untouched_apply {ws : List (ℕ × δ)} (he : Untouched l d e)
    (hws : ∀ w ∈ ws, w.1 / 2 ∈ l.lh ∨ ¬ l.Outside (w.1 / 2)) : Untouched l d (Store.apply e ws) := by
  intro b hb hout
  rw [block_apply_of_ne]
  · exact he b hb hout
  · intro w hw heq
    rcases hws w hw with h | h
    · exact hb (heq ▸ h)
    · exact h (heq ▸ hout)

theorem block_apply_writeHead {start : ℕ} {hb : δ × δ} {lh : List ℕ} {j b : ℕ} (h : b ≠ start) :
    block (Store.apply e ((writeHead c start hb lh).take j)) b = block e b :=
  block_apply_of_ne fun _ hw heq => h (heq ▸ block_of_mem_writeHead (List.mem_of_mem_take hw))

/-! ## One phase at a time -/

section Steps

variable (hhome : ∀ b ∈ l.lh, l.Outside b) (hroom : l.lh.length < l.size)

include hhome hroom

omit hhome in
theorem untouched_writeHead (he : Untouched l d e) {hb : δ × δ} {lh : List ℕ} (j : ℕ) :
    Untouched l d (Store.apply e ((writeHead c l.start hb lh).take j)) := by
  apply untouched_apply he
  intro w hw
  rw [block_of_mem_writeHead (List.mem_of_mem_take hw)]
  exact .inr (inside_header hroom)

theorem old_writeLog (he : Old c l d e) (j : ℕ) :
    Old c l d (Store.apply e ((writeLog l.start l.lh cache).take j)) := by
  -- every write of `write_log` lands in a log block
  have hin : ∀ w ∈ (writeLog l.start l.lh cache).take j,
      ∃ t < l.lh.length, w.1 / 2 = l.start + t + 1 :=
    fun w hw => block_of_mem_writeLog (List.mem_of_mem_take hw)
  refine ⟨?_, ?_, ?_⟩
  · rw [Store.apply_of_forall_ne, he.head]
    intro w hw hs
    obtain ⟨t, -, ht⟩ := hin w hw
    omega
  · intro b hb
    rw [block_apply_of_ne, he.home b hb]
    intro w hw heq
    obtain ⟨t, ht, hwt⟩ := hin w hw
    exact home_ne_log_block hhome hroom hb ht (heq ▸ hwt)
  · apply untouched_apply he.rest
    intro w hw
    obtain ⟨t, ht, hwt⟩ := hin w hw
    exact .inr (hwt ▸ inside_log_block hroom ht)

omit hhome hroom in
theorem block_writeLog {t : ℕ} (ht : t < l.lh.length) :
    block (Store.apply e (writeLog l.start l.lh cache)) (l.start + t + 1) = cache (l.lh.getD t 0) := by
  apply block_apply_bwrites ⟨t, ht, rfl⟩
  intro t' _ h
  rw [show t' = t by omega]

/-- The first sector of `write_head` is the commit point. -/
theorem committed_writeHead (hfit : HeaderFits l.lh) (he : Old c l d e) {hb : δ × δ} {j : ℕ}
    (hj : 0 < j) :
    Committed c l cache d (Store.apply (Store.apply e (writeLog l.start l.lh cache))
      ((writeHead c l.start hb l.lh).take j)) := by
  have hold : Old c l d (Store.apply e (writeLog l.start l.lh cache)) :=
    Store.of_forall_take (old_writeLog hhome hroom he)
  refine ⟨read_apply_writeHead hfit _ hj, fun t ht => ?_, ?_⟩
  · rw [block_apply_writeHead (by omega), block_writeLog ht]
  · exact untouched_writeHead hroom hold.rest j

theorem committed_installTrans (he : Committed c l cache d e) {f : ℕ → δ × δ} (j : ℕ) :
    Committed c l cache d (Store.apply e ((installTrans l.lh f).take j)) := by
  have hin : ∀ w ∈ (installTrans l.lh f).take j, w.1 / 2 ∈ l.lh :=
    fun w hw => block_of_mem_installTrans (List.mem_of_mem_take hw)
  refine ⟨?_, fun t ht => ?_, untouched_apply he.rest fun w hw => .inl (hin w hw)⟩
  · rw [Store.apply_of_forall_ne, he.head]
    intro w hw hs
    exact home_ne_header hhome hroom (hin w hw) (by omega)
  · rw [block_apply_of_ne, he.log t ht]
    intro w hw heq
    exact home_ne_log_block hhome hroom (hin w hw) ht heq

omit hhome hroom in
theorem block_installTrans {f : ℕ → δ × δ} (hf : ∀ t < l.lh.length, f t = cache (l.lh.getD t 0))
    {b : ℕ} (hb : b ∈ l.lh) : block (Store.apply e (installTrans l.lh f)) b = cache b := by
  obtain ⟨t, ht, rfl⟩ := List.getElem_of_mem hb
  apply block_apply_bwrites ⟨t, ht, by simp [List.getD_eq_getElem?_getD, ht]⟩
  intro t' ht' h
  rw [hf t' ht', h]

theorem installed_writeHead (he : Committed c l cache d e) {f : ℕ → δ × δ}
    (hf : ∀ t < l.lh.length, f t = cache (l.lh.getD t 0)) {hb : δ × δ} {j : ℕ} (hj : 0 < j) :
    Installed c l cache d (Store.apply (Store.apply e (installTrans l.lh f))
      ((writeHead c l.start hb []).take j)) := by
  have hcom : Committed c l cache d (Store.apply e (installTrans l.lh f)) :=
    Store.of_forall_take (committed_installTrans hhome hroom he)
  refine ⟨read_apply_writeHead headerFits_nil _ hj, fun b hb => ?_, ?_⟩
  · rw [block_apply_writeHead (home_ne_header hhome hroom hb), block_installTrans hf hb]
  · exact untouched_writeHead hroom hcom.rest j

theorem old_writeHead (he : Old c l d e) {hb : δ × δ} (j : ℕ) :
    Old c l d (Store.apply e ((writeHead c l.start hb []).take j)) := by
  refine ⟨?_, fun b hb => ?_, ?_⟩
  · rcases Nat.eq_zero_or_pos j with rfl | hj
    · exact he.head
    · exact read_apply_writeHead headerFits_nil _ hj
  · rw [block_apply_writeHead (home_ne_header hhome hroom hb), he.home b hb]
  · exact untouched_writeHead hroom he.rest j

theorem installed_writeHead_empty (he : Installed c l cache d e) {hb : δ × δ} (j : ℕ) :
    Installed c l cache d (Store.apply e ((writeHead c l.start hb []).take j)) := by
  refine ⟨?_, fun b hb => ?_, ?_⟩
  · rcases Nat.eq_zero_or_pos j with rfl | hj
    · exact he.head
    · exact read_apply_writeHead headerFits_nil _ hj
  · rw [block_apply_writeHead (home_ne_header hhome hroom hb), he.home b hb]
  · exact untouched_writeHead hroom he.rest j

/-! ## Whole runs of `commit` and of recovery -/

/-- After any prefix of `commit()`'s sector writes the disk is in one of the phases. -/
theorem commit_phase (hfit : HeaderFits l.lh) (hclean : c.read (d (2 * l.start)) = []) (k : ℕ) :
    Phase c l cache d (Store.apply d ((commit c l cache d).take k)) := by
  have hold : Old c l d d := ⟨hclean, fun _ _ => rfl, fun _ _ _ => rfl⟩
  unfold commit
  split_ifs with hn
  · -- `write_log`, `write_head`, `install_trans`, `write_head`: one phase rule each
    let W := writeLog l.start l.lh cache
    let H := writeHead c l.start (block d l.start) l.lh
    let I := installTrans l.lh fun t => cache (l.lh.getD t 0)
    have hW : Old c l d (Store.apply d W) := Store.of_forall_take (old_writeLog hhome hroom hold)
    have hWH : Committed c l cache d (Store.apply d (W ++ H)) := by
      have h : Committed c l cache d (Store.apply (Store.apply d W) (H.take H.length)) :=
        committed_writeHead hhome hroom hfit hold (by simp [H, writeHead, bwrite])
      rwa [List.take_length, ← Store.apply_append] at h
    have hWHI : Committed c l cache d (Store.apply (Store.apply d (W ++ H)) I) :=
      Store.of_forall_take (committed_installTrans hhome hroom hWH)
    refine Store.prefix_append (P := Phase c l cache d) (Store.prefix_append
      (Store.prefix_append (fun j => .inl (old_writeLog hhome hroom hold j)) (fun j => ?_))
      (fun j => .inr (.inl (committed_installTrans hhome hroom hWH j)))) (fun j => ?_) k
    · rcases Nat.eq_zero_or_pos j with rfl | hj
      · rw [List.take_zero, Store.apply_nil]
        exact .inl hW
      · exact .inr (.inl (committed_writeHead hhome hroom hfit hold hj))
    · rcases Nat.eq_zero_or_pos j with rfl | hj
      · rw [List.take_zero, Store.apply_nil, Store.apply_append]
        exact .inr (.inl hWHI)
      · rw [Store.apply_append]
        exact .inr (.inr (installed_writeHead hhome hroom hWH (fun _ _ => rfl) hj))
  · rw [List.take_nil, Store.apply_nil]
    exact .inl hold

/-- `recover_from_log()` cut after any number of sector writes keeps the disk in a phase. -/
theorem recover_phase (he : Phase c l cache d e) (j : ℕ) :
    Phase c l cache d (Store.apply e ((recoverFromLog c l.start e).take j)) := by
  rcases he with he | he | he
  · -- nothing committed: recovery only clears the header again
    rw [recoverFromLog, he.head, installTrans, List.length_nil, List.range_zero, List.flatMap_nil,
      List.nil_append]
    exact .inl (old_writeHead hhome hroom he j)
  · -- committed: recovery installs from the log blocks, which hold the cached blocks
    let I := installTrans l.lh fun t => block e (l.start + t + 1)
    have hI : Committed c l cache d (Store.apply e I) :=
      Store.of_forall_take (committed_installTrans hhome hroom he)
    rw [recoverFromLog, he.head]
    refine Store.prefix_append (P := Phase c l cache d)
      (fun j => .inr (.inl (committed_installTrans hhome hroom he j))) (fun j => ?_) j
    rcases Nat.eq_zero_or_pos j with rfl | hj
    · rw [List.take_zero, Store.apply_nil]
      exact .inr (.inl hI)
    · exact .inr (.inr (installed_writeHead hhome hroom he he.log hj))
  · rw [recoverFromLog, he.head, installTrans, List.length_nil, List.range_zero, List.flatMap_nil,
      List.nil_append]
    exact .inr (.inr (installed_writeHead_empty hhome hroom he j))

/-- A recovery that completes leaves the transaction all old or all new. -/
theorem recover_done (he : Phase c l cache d e) :
    Old c l d (Store.apply e (recoverFromLog c l.start e)) ∨
      Installed c l cache d (Store.apply e (recoverFromLog c l.start e)) := by
  have hall : Phase c l cache d (Store.apply e (recoverFromLog c l.start e)) :=
    Store.of_forall_take (recover_phase hhome hroom he)
  rcases hall with h | h | h
  · exact .inl h
  · -- a completed recovery ends by writing an empty header
    have hempty : c.read (Store.apply e (recoverFromLog c l.start e) (2 * l.start)) = [] := by
      rw [recoverFromLog, Store.apply_append, ← List.take_length (l := writeHead c l.start _ [])]
      exact read_apply_writeHead headerFits_nil _ (by simp [writeHead, bwrite])
    have hlh : l.lh = [] := h.head.symm.trans hempty
    exact .inl ⟨hempty, by simp [hlh], h.rest⟩
  · exact .inr h

/-- Boots that fail during recovery, then one that completes: all old or all new. -/
theorem reboot_done : ∀ (ks : List ℕ) {e : ℕ → δ}, Phase c l cache d e →
    Old c l d (reboot c l.start ks e) ∨ Installed c l cache d (reboot c l.start ks e)
  | [], _, he => recover_done hhome hroom he
  | k :: ks, _, he => reboot_done ks (recover_phase hhome hroom he k)

end Steps

/-- A disk of zero sectors, as `mkfs` leaves the log region. -/
def zeroDisk : ℕ → Sector := fun _ => Sector.fill 0

/-- A transaction of blocks 40 and 41 on the `mkfs` log (blocks 2 to 31). -/
def twoBlockLog : Log := { initLog with lh := [40, 41], committing := true }

/-- The transaction's cached blocks: block `b` with its sectors filled with `b` and `b + 1`. -/
def twoBlockCache (b : ℕ) : Sector × Sector := (Sector.fill (UInt8.ofNat b), Sector.fill (UInt8.ofNat (b + 1)))

end Xv6
