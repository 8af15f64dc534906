import Xv6.Spec.Grep
import Xv6.Lib.Lines
import Xv6.Proofs.Memmove

/-! What `grep`'s loop writes. The abstract side is `grepSpec`: the newline-terminated lines of
the input that `match` accepts, each with its newline. The buffer holds the open line of what
`read` has returned so far (`LoopInv`), and each round writes the lines that its chunk closes
(`grepLines_scan`). The read size `sizeof(buf) - m - 1` is `0` once the open line has
`BUFSIZE - 1` bytes: `grep` is right when every line is shorter (`grep_of_short_lines`), and
stops at the first line that is not, with the rest of the input unread. -/

namespace Xv6

open ByteMem

/-- What `grep` is for: each newline-terminated line of `text` that `match` accepts, followed
by its newline. -/
def grepSpec (re text : List UInt8) : List UInt8 :=
  ((Lines.closed NEWLINE text).filter (match_ re)).flatMap (· ++ [NEWLINE])

theorem grepSpec_append (re a b : List UInt8) :
    grepSpec re (a ++ b) = grepSpec re a ++ grepSpec re (Lines.last NEWLINE a ++ b) := by
  rw [grepSpec, grepSpec, grepSpec, Lines.closed_append, List.filter_append, List.flatMap_append]

theorem grepSpec_of_not_mem (re : List UInt8) {t : List UInt8} (h : NEWLINE ∉ t) :
    grepSpec re t = [] := by
  simp [grepSpec, Lines.closed_of_not_mem _ h]

theorem grepSpec_line (re : List UInt8) {l : List UInt8} (h : NEWLINE ∉ l) (r : List UInt8) :
    grepSpec re (l ++ NEWLINE :: r) =
      (if match_ re l then l ++ [NEWLINE] else []) ++ grepSpec re r := by
  simp only [grepSpec, Lines.closed_line _ h, List.filter_cons]
  split_ifs <;> simp

/-! ## `strchr` and the string at `p` -/

namespace Ulib

variable {mem : ℕ → UInt8} {c : UInt8} {s : ℕ} {l : List UInt8}

theorem strchr_skip (hl : readBytes mem s l.length = l) (hc : c ∉ l) (h0 : 0 ∉ l) (fuel : ℕ) :
    strchr mem c (l.length + fuel) s = strchr mem c fuel (s + l.length) := by
  induction l generalizing s with
  | nil => simp
  | cons x l ih =>
    rw [List.length_cons, readBytes_succ, List.cons.injEq] at hl
    simp only [List.mem_cons, not_or] at hc h0
    rw [List.length_cons, show l.length + 1 + fuel = l.length + fuel + 1 by omega, strchr, hl.1,
      if_neg (Ne.symm h0.1), if_neg (Ne.symm hc.1), ih hl.2 hc.2 h0.2, Nat.add_assoc,
      Nat.add_comm 1]

theorem strchr_found (hl : readBytes mem s l.length = l) (hc : c ∉ l) (h0 : 0 ∉ l)
    (hat : mem (s + l.length) = c) (hc0 : c ≠ 0) {fuel : ℕ} (hf : l.length < fuel) :
    strchr mem c fuel s = some (s + l.length) := by
  obtain ⟨d, rfl⟩ := Nat.exists_eq_add_of_lt hf
  rw [Nat.add_assoc, strchr_skip hl hc h0, strchr, hat, if_neg hc0, if_pos rfl]

theorem strchr_none (hl : readBytes mem s l.length = l) (hc : c ∉ l) (h0 : 0 ∉ l)
    (hat : mem (s + l.length) = 0) {fuel : ℕ} (hf : l.length < fuel) :
    strchr mem c fuel s = none := by
  obtain ⟨d, rfl⟩ := Nat.exists_eq_add_of_lt hf
  rw [Nat.add_assoc, strchr_skip hl hc h0, strchr, hat, if_pos rfl]

theorem cstring_eq (hl : readBytes mem s l.length = l) (h0 : 0 ∉ l)
    (hat : mem (s + l.length) = 0) {fuel : ℕ} (hf : l.length < fuel) : cstring mem fuel s = l := by
  induction l generalizing s fuel with
  | nil =>
    obtain ⟨d, rfl⟩ := Nat.exists_eq_add_of_lt hf
    simp only [List.length_nil, Nat.add_zero] at hat
    rw [cstring, hat, if_pos rfl]
  | cons x l ih =>
    obtain ⟨d, rfl⟩ := Nat.exists_eq_add_of_lt hf
    rw [List.length_cons, readBytes_succ, List.cons.injEq] at hl
    simp only [List.mem_cons, not_or] at h0
    have hat' : mem (s + 1 + l.length) = 0 := by
      rw [← hat, List.length_cons, Nat.add_assoc, Nat.add_comm 1]
    rw [cstring, hl.1, if_neg (Ne.symm h0.1), ih hl.2 h0.2 hat' (by rw [List.length_cons]; omega)]

end Ulib

/-! ## The inner loop -/

/-- `buf` holds the NUL-free `B` from `p` on and a NUL after it, all within `buf`. -/
structure Holds (buf : ℕ → UInt8) (p : ℕ) (B : List UInt8) : Prop where
  bytes : readBytes buf p B.length = B
  nul : buf (p + B.length) = 0
  room : p + B.length < BUFSIZE
  no_nul : 0 ∉ B

namespace Holds

variable {buf : ℕ → UInt8} {p : ℕ} {B l r : List UInt8}

theorem update_below (h : Holds buf p B) {q : ℕ} (hq : q < p) (v : UInt8) :
    Holds (Function.update buf q v) p B where
  bytes := (readBytes_congr fun _ _ => Function.update_of_ne (by omega) _ _).trans h.bytes
  nul := (Function.update_of_ne (by omega) _ _).trans h.nul
  room := h.room
  no_nul := h.no_nul

theorem line (h : Holds buf p (l ++ NEWLINE :: r)) :
    readBytes buf p l.length = l ∧ buf (p + l.length) = NEWLINE ∧
      Holds buf (p + l.length + 1) r := by
  have hb := h.bytes
  have hn := h.nul
  have hroom := h.room
  simp only [List.length_append, List.length_cons] at hb hn hroom
  rw [readBytes_add, readBytes_succ] at hb
  obtain ⟨h₁, h₂⟩ := List.append_inj hb (length_readBytes _ _)
  rw [List.cons.injEq] at h₂
  refine ⟨h₁, h₂.1, h₂.2, ?_, by omega, fun h0 => h.no_nul (by simp [h0])⟩
  rwa [show p + l.length + 1 + r.length = p + (l.length + (r.length + 1)) by omega]

end Holds

/-- The inner loop over what `buf` holds from `p` writes the lines that it closes and stops at
its open line, `k` bytes on, with the buffer as it was from there on. -/
theorem grepLines_scan (re : List UInt8) (fuel : ℕ) :
    ∀ {buf : ℕ → UInt8} {p : ℕ} {B : List UInt8} (out : List UInt8), Holds buf p B →
      B.length < fuel →
      ∃ buf' k, grepLines re fuel buf p out = (buf', p + k, out ++ grepSpec re B) ∧
        B.drop k = Lines.last NEWLINE B ∧ ∀ x, p + k ≤ x → buf' x = buf x := by
  induction fuel with
  | zero => exact fun _ _ hf => absurd hf (Nat.not_lt_zero _)
  | succ fuel ih =>
    intro buf p B out h hf
    rcases Lines.exists_first NEWLINE B with hB | ⟨l, r, hl, rfl⟩
    · -- no newline: `strchr` stops at the NUL
      have hnone : Ulib.strchr buf NEWLINE (BUFSIZE - p) p = none :=
        Ulib.strchr_none h.bytes hB h.no_nul h.nul (by have := h.room; omega)
      refine ⟨buf, 0, ?_, by rw [List.drop_zero, Lines.last_of_not_mem _ hB], fun _ _ => rfl⟩
      rw [grepLines, hnone, grepSpec_of_not_mem re hB, List.append_nil, Nat.add_zero]
    obtain ⟨hbytes, hnl, hrest⟩ := h.line
    have hl0 : 0 ∉ l := fun h0 => h.no_nul (by simp [h0])
    have hroom := h.room
    simp only [List.length_append, List.length_cons] at hf hroom
    have hq : Ulib.strchr buf NEWLINE (BUFSIZE - p) p = some (p + l.length) :=
      Ulib.strchr_found hbytes hl hl0 hnl (by decide) (by omega)
    -- `*q = 0` ends the line that `match` reads
    have hcut : Ulib.cstring (Function.update buf (p + l.length) 0) (BUFSIZE - p) p = l :=
      Ulib.cstring_eq ((readBytes_congr fun _ _ => Function.update_of_ne (by omega) _ _).trans hbytes)
        hl0 (Function.update_self _ _ _) (by omega)
    have hdrop : ∀ k, (l ++ NEWLINE :: r).drop (l.length + 1 + k) = r.drop k := fun k => by
      rw [Nat.add_assoc, List.drop_length_add_append, Nat.add_comm, List.drop_succ_cons]
    have hlast := Lines.last_line NEWLINE hl r
    by_cases hm : match_ re l
    · -- `*q = '\n'` puts the buffer back as it was, and the line is written with it
      have hback : Function.update (Function.update buf (p + l.length) 0) (p + l.length) NEWLINE =
          buf := by
        rw [Function.update_idem, ← hnl, Function.update_eq_self]
      have hline : readBytes buf p (p + l.length + 1 - p) = l ++ [NEWLINE] := by
        rw [show p + l.length + 1 - p = l.length + 1 by omega, readBytes_succ_end, hbytes, hnl]
      obtain ⟨buf', k, heq, hk, hframe⟩ := ih (out ++ (l ++ [NEWLINE])) hrest (by omega)
      refine ⟨buf', l.length + 1 + k, ?_, by rw [hdrop, hk, hlast], fun x hx => hframe x (by omega)⟩
      rw [show p + (l.length + 1 + k) = p + l.length + 1 + k by omega]
      simp only [grepLines, hq, hcut, hm, if_true, hback, hline, heq, grepSpec_line re hl,
        List.append_assoc]
    · -- the line stays cut by its NUL, below where the loop reads on
      obtain ⟨buf', k, heq, hk, hframe⟩ :=
        ih out (hrest.update_below (Nat.lt_succ_self _) 0) (by omega)
      refine ⟨buf', l.length + 1 + k, ?_, by rw [hdrop, hk, hlast], fun x hx => ?_⟩
      · rw [show p + (l.length + 1 + k) = p + l.length + 1 + k by omega]
        simp only [grepLines, hq, hcut, hm, Bool.false_eq_true, if_false, heq, grepSpec_line re hl,
          List.nil_append]
      · rw [hframe x (by omega), Function.update_of_ne (by omega)]

/-! ## The outer loop -/

theorem holds_read {buf : ℕ → UInt8} {m n : ℕ} {P T : List UInt8} (hP : readBytes buf 0 m = P)
    (hT : T.length = n) (hroom : m + n < BUFSIZE) (h0 : 0 ∉ P ++ T) :
    Holds (Function.update (writeBytes buf m T) (m + n) 0) 0 (P ++ T) := by
  have hPlen : P.length = m := by rw [← hP, length_readBytes]
  have hlen : (P ++ T).length = m + n := by simp [hPlen, hT]
  refine ⟨?_, ?_, by omega, h0⟩
  · rw [hlen, readBytes_congr fun i hi => Function.update_of_ne (by omega) _ _, readBytes_add,
      readBytes_writeBytes_of_disjoint (.inr (by omega)), hP, Nat.zero_add, ← hT,
      readBytes_writeBytes]
  · rw [hlen, Nat.zero_add, Function.update_self]

theorem grepRound_of_grepLines {re : List UInt8} {s : GrepState} {n : ℕ} (hn : 0 < n)
    {buf' : ℕ → UInt8} {p : ℕ} {out : List UInt8}
    (h : grepLines re BUFSIZE (Function.update (writeBytes s.buf s.m (s.input.take n)) (s.m + n) 0)
      0 s.out = (buf', p, out)) :
    grepRound re s n =
      ⟨Ulib.memmove buf' 0 p ((s.m + n - p : ℕ) : ℤ), s.m + n - p, s.input.drop n, s.reads + 1, out⟩ := by
  simp only [grepRound, h]
  rw [if_pos (by omega)]

@[simp] theorem grepRound_input (re : List UInt8) (s : GrepState) (n : ℕ) :
    (grepRound re s n).input = s.input.drop n := by
  simp only [grepRound]
  split_ifs <;> rfl

/-- The outer loop once `read` has returned `consumed`: the rest of the input is unread, the
open line of `consumed` waits at the start of `buf`, and `grep` has written the lines that
`consumed` closes and `match` accepts. -/
structure LoopInv (re input consumed : List UInt8) (s : GrepState) : Prop where
  split : consumed ++ s.input = input
  pending : readBytes s.buf 0 s.m = Lines.last NEWLINE consumed
  room : s.m < BUFSIZE
  out : s.out = grepSpec re consumed

namespace LoopInv

variable {re input consumed : List UInt8} {s : GrepState}

theorem m_eq (h : LoopInv re input consumed s) : s.m = (Lines.last NEWLINE consumed).length := by
  rw [← h.pending, length_readBytes]

theorem init (re input : List UInt8) (buf : ℕ → UInt8) :
    LoopInv re input [] ⟨buf, 0, input, 0, []⟩ where
  split := rfl
  pending := by simp [readBytes]
  room := show 0 < BUFSIZE by decide
  out := (grepSpec_of_not_mem re List.not_mem_nil).symm

theorem round (h : LoopInv re input consumed s) (h0 : 0 ∉ input) {n : ℕ} (hn : 0 < n)
    (hlen : n ≤ s.input.length) (hroom : s.m + n < BUFSIZE) :
    LoopInv re input (consumed ++ s.input.take n) (grepRound re s n) := by
  have hT : (s.input.take n).length = n := by simp; omega
  -- neither the open line nor the chunk has a NUL
  have hnul : 0 ∉ Lines.last NEWLINE consumed ++ s.input.take n := by
    intro hz
    apply h0
    rw [← h.split]
    rcases List.mem_append.mp hz with hz | hz
    · exact List.mem_append_left _ ((Lines.last_suffix _ _).subset hz)
    · exact List.mem_append_right _ (List.mem_of_mem_take hz)
  have hholds := holds_read h.pending hT hroom hnul
  obtain ⟨buf', k, heq, hk, hframe⟩ :=
    grepLines_scan re BUFSIZE s.out hholds (by have := hholds.room; omega)
  have hB : (Lines.last NEWLINE consumed ++ s.input.take n).length = s.m + n := by
    simp [← h.m_eq, hT]
  -- from `k` on, the buffer holds the open line of all that was read
  have hopen := congrArg (List.drop k) hholds.bytes
  rw [drop_readBytes, Nat.zero_add, hk, ← Lines.last_append, hB] at hopen
  rw [Nat.zero_add] at heq
  rw [grepRound_of_grepLines hn heq]
  refine ⟨?_, ?_, by dsimp only; omega, ?_⟩
  · dsimp only
    rw [List.append_assoc, List.take_append_drop, h.split]
  · -- `memmove` brings the open line down to `buf[0]`
    dsimp only
    rw [Ulib.memmove_eq]
    have hw := readBytes_writeBytes (m := buf') 0 (readBytes buf' k (s.m + n - k))
    rw [length_readBytes] at hw
    rw [hw, ← hopen]
    exact readBytes_congr fun i _ => hframe _ (by omega)
  · dsimp only
    rw [h.out, grepSpec_append re consumed]

end LoopInv

section Run

variable {re input : List UInt8} {chunk : ℕ → ℕ}

/-- The outer loop keeps `LoopInv`, and every property `Q` of what it has read that a round
keeps, and stops at the end of the input or with an open line of `BUFSIZE - 1` bytes. -/
theorem grepLoop_run (Q : List UInt8 → Prop)
    (hQ : ∀ c t, Q c → c ++ t <+: input →
      (Lines.last NEWLINE c).length + t.length < BUFSIZE → Q (c ++ t))
    (h0 : 0 ∉ input) (hchunk : ∀ t, 0 < chunk t) (fuel : ℕ) :
    ∀ {s : GrepState} {consumed : List UInt8}, LoopInv re input consumed s → Q consumed →
      s.input.length < fuel →
      ∃ consumed', LoopInv re input consumed' (grepLoop re chunk fuel s) ∧ Q consumed' ∧
        ((grepLoop re chunk fuel s).input = [] ∨
          (Lines.last NEWLINE consumed').length = BUFSIZE - 1) := by
  induction fuel with
  | zero => exact fun _ _ hf => absurd hf (Nat.not_lt_zero _)
  | succ fuel ih =>
    intro s consumed h hq hf
    have hm := h.m_eq
    have hroom := h.room
    simp only [grepLoop]
    split_ifs with hn
    · -- `read` returned `n > 0` bytes, at most what is left and what fits
      refine ih (h.round h0 hn (by omega) (by omega)) (hQ _ _ hq ?_ ?_) ?_
      · rw [← h.split]
        exact (List.prefix_append_right_inj consumed).mpr (List.take_prefix _ _)
      · simp only [List.length_take]
        omega
      · rw [grepRound_input, List.length_drop]
        omega
    · -- `read` returned `0`: the input is used up, or the request was for no bytes
      refine ⟨consumed, ⟨h.split, h.pending, h.room, h.out⟩, hq, ?_⟩
      have hc := hchunk s.reads
      by_cases hi : s.input = []
      · exact .inl hi
      · have := List.length_pos_iff.mpr hi
        exact .inr (by omega)

end Run

/-! ## What `grep` writes -/

/-- With every line, the last one included, shorter than `BUFSIZE - 1` bytes, `grep` reads all
its input and writes the lines that `match` accepts, whatever sizes `read` returns. -/
theorem grep_of_short_lines (re : List UInt8) (chunk : ℕ → ℕ) (buf : ℕ → UInt8)
    (input : List UInt8) (h0 : 0 ∉ input) (hchunk : ∀ t, 0 < chunk t)
    (hshort : ∀ l ∈ input.splitOn NEWLINE, l.length < BUFSIZE - 1) :
    (grep re chunk buf input).out = grepSpec re input ∧ (grep re chunk buf input).input = [] := by
  obtain ⟨consumed, h, -, hstop⟩ := grepLoop_run (fun _ => True) (fun _ _ _ _ _ => trivial) h0
    hchunk (input.length + 1) (LoopInv.init re input buf) trivial (Nat.lt_succ_self _)
  rcases hstop with hend | hfull
  · have hc : consumed = input := by simpa [hend] using h.split
    exact ⟨h.out.trans (congrArg (grepSpec re) hc), hend⟩
  · -- the open line starts a line of the input, and so is shorter
    obtain ⟨l, hl, hpre⟩ := Lines.exists_last_prefix NEWLINE consumed (grepLoop re chunk (input.length + 1) ⟨buf, 0, input, 0, []⟩).input
    rw [h.split] at hl
    have := hshort l hl
    have := hpre.length_le
    omega

/-- Where the loop stops before a line of `BUFSIZE - 1` bytes or more after the short lines
`ls`: what it has read is `ls` and the first `BUFSIZE - 1` bytes of the long line. -/
theorem consumed_of_long_line {ls : List (List UInt8)} {L c : List UInt8}
    (hls : ∀ l ∈ ls, NEWLINE ∉ l ∧ l.length < BUFSIZE - 1) (hlong : BUFSIZE - 1 ≤ L.length)
    (hc : c <+: ls.flatMap (· ++ [NEWLINE]) ++ L.take (BUFSIZE - 1))
    (hfull : (Lines.last NEWLINE c).length = BUFSIZE - 1) :
    c = ls.flatMap (· ++ [NEWLINE]) ++ L.take (BUFSIZE - 1) := by
  have hsplit := Lines.splitOn_flatMap NEWLINE fun l hl => (hls l hl).1
  have hlast := (Lines.closed_flatMap_and_last NEWLINE fun l hl => (hls l hl).1).2
  by_cases hle : c.length ≤ (ls.flatMap (· ++ [NEWLINE])).length
  · -- within the short lines the open line is shorter
    exfalso
    obtain ⟨t, ht⟩ := List.prefix_of_prefix_length_le hc (List.prefix_append _ _) hle
    obtain ⟨l, hl, hpre⟩ := Lines.exists_last_prefix NEWLINE c t
    rw [ht, hsplit, List.mem_append, List.mem_singleton] at hl
    have := hpre.length_le
    rcases hl with hl | rfl
    · have := (hls l hl).2
      omega
    · rw [List.length_nil] at this
      have : 0 < BUFSIZE - 1 := by decide
      omega
  · -- past them, the open line is what was read of the long line
    obtain ⟨u, rfl⟩ := List.prefix_of_prefix_length_le (List.prefix_append _ _) hc (by omega)
    rw [Lines.last_append, hlast, List.nil_append] at hfull
    have := (Lines.last_suffix NEWLINE u).length_le
    have := hc.length_le
    refine hc.eq_of_length ?_
    simp only [List.length_append, List.length_take] at this ⊢
    omega

theorem grep_stops_at_long_line (re : List UInt8) (chunk : ℕ → ℕ) (buf : ℕ → UInt8)
    (ls : List (List UInt8)) (L rest input : List UInt8)
    (hinput : input = ls.flatMap (· ++ [NEWLINE]) ++ L ++ NEWLINE :: rest)
    (h0 : 0 ∉ input) (hchunk : ∀ t, 0 < chunk t)
    (hls : ∀ l ∈ ls, NEWLINE ∉ l ∧ l.length < BUFSIZE - 1) (hL : NEWLINE ∉ L)
    (hlong : BUFSIZE - 1 ≤ L.length) :
    (grep re chunk buf input).out = (ls.filter (match_ re)).flatMap (· ++ [NEWLINE]) ∧
      (grep re chunk buf input).input = L.drop (BUFSIZE - 1) ++ NEWLINE :: rest ∧
      grepSpec re input = (ls.filter (match_ re)).flatMap (· ++ [NEWLINE]) ++
        (if match_ re L then L ++ [NEWLINE] else []) ++ grepSpec re rest := by
  have hfree : ∀ l ∈ ls, NEWLINE ∉ l := fun l hl => (hls l hl).1
  obtain ⟨hclosed, hlast⟩ := Lines.closed_flatMap_and_last NEWLINE hfree
  have hpre : grepSpec re (ls.flatMap (· ++ [NEWLINE])) =
      (ls.filter (match_ re)).flatMap (· ++ [NEWLINE]) := by
    rw [grepSpec, hclosed]
  have hX : NEWLINE ∉ L.take (BUFSIZE - 1) := fun h => hL (List.mem_of_mem_take h)
  have hXlen : (L.take (BUFSIZE - 1)).length = BUFSIZE - 1 := by simp; omega
  have hprefix : ls.flatMap (· ++ [NEWLINE]) ++ L.take (BUFSIZE - 1) <+: input := by
    rw [hinput, List.append_assoc]
    exact (List.prefix_append_right_inj _).mpr ((List.take_prefix _ _).trans (List.prefix_append _ _))
  -- the loop never reads past the first `BUFSIZE - 1` bytes of the long line
  obtain ⟨c, h, hc, hstop⟩ := grepLoop_run
    (fun c => c <+: ls.flatMap (· ++ [NEWLINE]) ++ L.take (BUFSIZE - 1))
    (fun c t hc hct hlen => by
      have := Lines.length_le_add_last NEWLINE hX hc
      refine List.prefix_of_prefix_length_le hct hprefix ?_
      simp only [List.length_append, hXlen] at this ⊢
      omega)
    h0 hchunk (input.length + 1) (LoopInv.init re input buf) (List.nil_prefix) (Nat.lt_succ_self _)
  have hceq : c = ls.flatMap (· ++ [NEWLINE]) ++ L.take (BUFSIZE - 1) := by
    rcases hstop with hend | hfull
    · -- all of the input would be shorter than what the loop can read
      exfalso
      have hlen := congrArg List.length h.split
      rw [hend, List.append_nil, hinput] at hlen
      have := hc.length_le
      simp only [List.length_append, List.length_cons, hXlen] at hlen this
      omega
    · exact consumed_of_long_line hls hlong hc hfull
  subst hceq
  refine ⟨?_, ?_, ?_⟩
  · rw [grep, h.out, grepSpec_append, hpre, hlast, List.nil_append, grepSpec_of_not_mem re hX,
      List.append_nil]
  · rw [grep]
    refine List.append_cancel_left (h.split.trans ?_)
    rw [hinput]
    simp only [List.append_assoc]
    rw [← List.append_assoc (L.take _), List.take_append_drop]
  · rw [hinput, List.append_assoc, grepSpec_append, hpre, hlast, List.nil_append,
      grepSpec_line re hL, List.append_assoc]

/-- A line of `1023` letters `a` and its newline: `grep a` writes nothing, where the line
matches. -/
theorem grep_drops_long_line :
    (grep [97] (fun _ => 1) (fun _ => 0) (List.replicate 1023 97 ++ [NEWLINE])).out = [] ∧
      grepSpec [97] (List.replicate 1023 97 ++ [NEWLINE]) = List.replicate 1023 97 ++ [NEWLINE] := by
  have hL : NEWLINE ∉ List.replicate 1023 (97 : UInt8) := fun h =>
    absurd (List.eq_of_mem_replicate h) (by decide)
  have h0 : (0 : UInt8) ∉ ([] : List (List UInt8)).flatMap (· ++ [NEWLINE]) ++
      List.replicate 1023 97 ++ [NEWLINE] := by
    simp only [List.flatMap_nil, List.nil_append, List.mem_append, List.mem_singleton, not_or]
    exact ⟨fun h => absurd (List.eq_of_mem_replicate h) (by decide), by decide⟩
  obtain ⟨hout, -, hspec⟩ := grep_stops_at_long_line [97] (fun _ => 1) (fun _ => 0) []
    (List.replicate 1023 97) [] _ rfl h0 (fun _ => Nat.one_pos) (by simp) hL
    (by rw [List.length_replicate]; decide)
  simp only [List.flatMap_nil, List.filter_nil, List.nil_append] at hout hspec
  refine ⟨hout, ?_⟩
  have hm : match_ [97] (List.replicate 1023 97) = true := by
    -- the first position matches: `a` against `a`, then the empty pattern
    rw [show List.replicate 1023 (97 : UInt8) = 97 :: List.replicate 1022 97 from rfl, match_,
      if_neg (by decide), matchLoop, Bool.or_eq_true]
    left
    rw [matchhere]
    simp only [List.head?_nil, reduceCtorEq, if_false, and_true, or_true, if_true]
    rw [if_neg (by decide), matchhere]
  rw [hspec, hm, if_pos rfl, grepSpec_of_not_mem _ List.not_mem_nil, List.append_nil]

end Xv6
