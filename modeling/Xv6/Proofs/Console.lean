import Xv6.Spec.Console
import Xv6.Lib.Run

/-! The console's line discipline. Read through the ring, `cons` holds two lists: the
committed characters not yet read, `[r, w)`, and the line being edited, `[w, e)`. While
`r`, `w` and `e` lie in that order at most `INPUT_BUF_SIZE` apart (modulo `2 ^ 32`, which
`INPUT_BUF_SIZE` divides), `consoleintr` edits the line as the list model `LineSys.intr`
does and `consoleread` takes the committed characters from the front. The whole system
refines the list model, and what the reads return is what the list model says. -/

namespace Xv6

open Counter RingBuf

theorem INPUT_BUF_SIZE_dvd : INPUT_BUF_SIZE ∣ 2 ^ 32 := ⟨2 ^ 25, by decide⟩

namespace Cons

/-- The committed characters not yet read, `[r, w)`. -/
def ready (s : Cons) : List UInt8 := view s.buf s.r (ahead s.w s.r)

/-- The line being edited, `[w, e)`. -/
def edit (s : Cons) : List UInt8 := view s.buf s.w (ahead s.e s.w)

/-- `r <= w <= e <= r + INPUT_BUF_SIZE` as distances modulo `2 ^ 32`, and no newline in
the line being edited: a newline commits it. -/
structure Inv (s : Cons) : Prop where
  wr : ahead s.w s.r ≤ ahead s.e s.r
  er : ahead s.e s.r ≤ INPUT_BUF_SIZE
  nl : '\n'.toUInt8 ∉ s.edit

variable {s : Cons}

theorem Inv.split (hi : s.Inv) : ahead s.e s.r = ahead s.w s.r + ahead s.e s.w := ahead_split hi.wr

theorem Inv.length (hi : s.Inv) : s.ready.length + s.edit.length = ahead s.e s.r := by
  rw [ready, edit, length_view, length_view, hi.split]

/-! ### `C('U')` -/

theorem killLine_eq : ∀ (k : ℕ) (s : Cons), ahead s.e s.w = k → '\n'.toUInt8 ∉ s.edit →
    killLine k s = { s with e := s.w }
  | 0, s, hk, _ => by
    have : s.e = s.w := ahead_eq_zero_iff.mp hk
    show s = { s with e := s.w }
    obtain ⟨buf, r, w, e⟩ := s
    simp only at this
    rw [this]
  | k + 1, s, hk, hnl => by
    have hne : s.e ≠ s.w := fun h => by rw [h, ahead_eq_zero_iff.mpr rfl] at hk; omega
    -- the last edited character is at `e - 1`, `k` cells on from `w`
    have hlast : s.e - 1 = s.w + UInt32.ofNat k := by
      rw [← add_ahead s.e s.w, hk, ← UInt32.toNat_inj, UInt32.toNat_sub, UInt32.toNat_add, UInt32.toNat_add,
        UInt32.toNat_ofNat', UInt32.toNat_ofNat', UInt32.toNat_one]
      have := UInt32.toNat_lt s.w
      omega
    have hedit : s.edit = view s.buf s.w k ++ [s.buf (Cons.slot (s.e - 1))] := by
      rw [edit, hk, view_succ, hlast]; rfl
    have hch : s.buf (Cons.slot (s.e - 1)) ≠ '\n'.toUInt8 := by
      intro h; apply hnl; rw [hedit, h]; simp
    have hrest := killLine_eq k { s with e := s.e - 1 } (by rw [ahead_pred_left hne, hk]; rfl)
      (by
        intro h
        apply hnl
        rw [hedit]
        apply List.mem_append_left
        simpa only [edit, ahead_pred_left hne, hk, Nat.add_sub_cancel] using h)
    simp only [killLine, hne, ne_eq, not_false_eq_true, hch, and_self, if_true]
    exact hrest

/-! ### The other edits -/

theorem ready_commit (hwr : ahead s.w s.r ≤ ahead s.e s.r) : { s with w := s.e }.ready = s.ready ++ s.edit := by
  simp only [ready, edit]
  rw [ahead_split hwr, view_add, add_ahead]

theorem edit_commit : { s with w := s.e }.edit = [] := by
  simp [edit, (ahead_eq_zero_iff).mpr rfl]

theorem edit_erase (h : s.e ≠ s.w) : { s with e := s.e - 1 }.edit = s.edit.dropLast := by
  have hk : ahead s.e s.w = ahead s.e s.w - 1 + 1 := by
    have := (not_congr ahead_eq_zero_iff).mpr h
    omega
  simp only [edit]
  rw [ahead_pred_left h, hk, dropLast_view, Nat.add_sub_cancel]

/-- `cons.buf[cons.e++ % INPUT_BUF_SIZE] = c` with fewer than `INPUT_BUF_SIZE` characters held
adds `c` to the line and leaves the committed ones. -/
theorem type_views (hwr : ahead s.w s.r ≤ ahead s.e s.r) (hroom : ahead s.e s.r < INPUT_BUF_SIZE) (c : UInt8) :
    { s with buf := Function.update s.buf (Cons.slot s.e) c, e := s.e + 1 }.ready = s.ready ∧
      { s with buf := Function.update s.buf (Cons.slot s.e) c, e := s.e + 1 }.edit = s.edit ++ [c] := by
  have hsplit := ahead_split hwr
  constructor
  · -- the new cell is `ahead e r` cells on from `r`, past the committed ones
    have hcell : Cons.slot s.e = cell INPUT_BUF_SIZE (s.r + UInt32.ofNat (ahead s.e s.r)) := by
      rw [add_ahead]; rfl
    simp only [ready]
    rw [hcell, view_update_of_le INPUT_BUF_SIZE_dvd _ _ hwr hroom]
  · have hcell : Cons.slot s.e = cell INPUT_BUF_SIZE (s.w + UInt32.ofNat (ahead s.e s.w)) := by
      rw [add_ahead]; rfl
    have hlt : ahead s.e s.w < INPUT_BUF_SIZE := by omega
    have hsucc : ahead (s.e + 1) s.w = ahead s.e s.w + 1 :=
      ahead_succ_left (by simp only [INPUT_BUF_SIZE] at hlt; omega)
    simp only [edit]
    rw [hsucc, hcell, view_update_succ INPUT_BUF_SIZE_dvd _ _ hlt]

/-! ### The invariant under each edit -/

theorem Inv.kill (hi : s.Inv) : { s with e := s.w }.Inv where
  wr := le_rfl
  er := hi.wr.trans hi.er
  nl := by simp [edit, (ahead_eq_zero_iff).mpr rfl]

theorem Inv.e_ne_r (hi : s.Inv) (h : s.e ≠ s.w) : s.e ≠ s.r := by
  intro her
  have hew : 0 < ahead s.e s.w := Nat.pos_of_ne_zero ((not_congr ahead_eq_zero_iff).mpr h)
  have h0 : ahead s.e s.r = 0 := ahead_eq_zero_iff.mpr her
  have := hi.split
  omega

theorem Inv.erase (hi : s.Inv) (h : s.e ≠ s.w) : { s with e := s.e - 1 }.Inv where
  wr := by
    -- `e` is past `w`, so moving it back by one keeps it at or past `w`
    have hew : 0 < ahead s.e s.w := Nat.pos_of_ne_zero ((not_congr ahead_eq_zero_iff).mpr h)
    show ahead s.w s.r ≤ ahead (s.e - 1) s.r
    rw [ahead_pred_left (hi.e_ne_r h)]
    have := hi.split
    omega
  er := by
    show ahead (s.e - 1) s.r ≤ INPUT_BUF_SIZE
    rw [ahead_pred_left (hi.e_ne_r h)]
    have := hi.er
    omega
  nl := by
    rw [edit_erase h]
    exact fun hm => hi.nl (List.dropLast_subset _ hm)

theorem Inv.type (hi : s.Inv) (hroom : ahead s.e s.r < INPUT_BUF_SIZE) {c : UInt8} (hc : c ≠ '\n'.toUInt8) :
    { s with buf := Function.update s.buf (Cons.slot s.e) c, e := s.e + 1 }.Inv where
  wr := by
    show ahead s.w s.r ≤ ahead (s.e + 1) s.r
    rw [ahead_succ_left (by simp only [INPUT_BUF_SIZE] at hroom; omega)]
    exact hi.wr.trans (Nat.le_succ _)
  er := by
    show ahead (s.e + 1) s.r ≤ INPUT_BUF_SIZE
    rw [ahead_succ_left (by simp only [INPUT_BUF_SIZE] at hroom; omega)]
    exact hroom
  nl := by
    rw [(type_views hi.wr hroom c).2]
    simp [Ne.symm hc, hi.nl]

theorem Inv.commit (her : ahead s.e s.r ≤ INPUT_BUF_SIZE) :
    { s with w := s.e }.Inv where
  wr := le_rfl
  er := her
  nl := by rw [edit_commit]; simp

end Cons

/-! ## The list model -/

/-- The line discipline on lists: the committed characters not yet read, the line being
edited and the reader as in `ConsSys`, with two records for the proofs: every character
committed so far, and every character the reads have taken. -/
structure LineSys where
  ready : List UInt8
  line : List UInt8
  killed : Bool
  call : Option ConsRead
  out : List (Option (List UInt8))
  log : List UInt8
  taken : List UInt8

namespace LineSys

/-- A typed character: `^U` erases the line, `^H` and DEL its last character, and any other
nonzero character is added, `'\r'` as `'\n'`, while fewer than `INPUT_BUF_SIZE` characters
are held; a newline, `^D` or a full buffer commits the line. -/
def intr (a : LineSys) (c : UInt8) : LineSys :=
  if c = C 'P' then a
  else if c = C 'U' then { a with line := [] }
  else if c = C 'H' ∨ c = 0x7f then { a with line := a.line.dropLast }
  else if c ≠ 0 ∧ a.ready.length + a.line.length < INPUT_BUF_SIZE then
    let c := if c = '\r'.toUInt8 then '\n'.toUInt8 else c
    if c = '\n'.toUInt8 ∨ c = C 'D' ∨ a.ready.length + a.line.length + 1 = INPUT_BUF_SIZE then
      { a with ready := a.ready ++ (a.line ++ [c]), line := [], log := a.log ++ (a.line ++ [c]) }
    else { a with line := a.line ++ [c] }
  else a

def finish (a : LineSys) (r : Option (List UInt8)) : LineSys := { a with call := none, out := a.out ++ [r] }

/-- A read takes the first committed character `ch`. -/
def take (a : LineSys) (ch : UInt8) (rest : List UInt8) : LineSys := { a with ready := rest, taken := a.taken ++ [ch] }

/-- What the finished calls returned, in order. -/
def delivered (a : LineSys) : List UInt8 := (a.out.filterMap id).flatten

/-- What the call under way has copied. -/
def pending (a : LineSys) : List UInt8 := (a.call.map ConsRead.got).getD []

@[simp] theorem delivered_finish (a : LineSys) (r : Option (List UInt8)) :
    (a.finish r).delivered = a.delivered ++ r.getD [] := by
  cases r <;> simp [delivered, finish]

@[simp] theorem pending_finish (a : LineSys) (r : Option (List UInt8)) : (a.finish r).pending = [] := rfl

@[simp] theorem delivered_take (a : LineSys) (ch : UInt8) (rest : List UInt8) :
    (a.take ch rest).delivered = a.delivered := rfl

@[simp] theorem taken_take (a : LineSys) (ch : UInt8) (rest : List UInt8) :
    (a.take ch rest).taken = a.taken ++ [ch] := rfl

@[simp] theorem ready_take (a : LineSys) (ch : UInt8) (rest : List UInt8) : (a.take ch rest).ready = rest := rfl

@[simp] theorem log_take (a : LineSys) (ch : UInt8) (rest : List UInt8) : (a.take ch rest).log = a.log := rfl

@[simp] theorem killed_take (a : LineSys) (ch : UInt8) (rest : List UInt8) : (a.take ch rest).killed = a.killed := rfl

@[simp] theorem taken_finish (a : LineSys) (r : Option (List UInt8)) : (a.finish r).taken = a.taken := rfl

@[simp] theorem killed_finish (a : LineSys) (r : Option (List UInt8)) : (a.finish r).killed = a.killed := rfl

/-- One round of a call: it takes the first committed character and copies it, and ends
after a newline, at a failed copy (the character is lost) or at `^D`, which it takes only
when it has copied nothing. -/
def read (a : LineSys) (c : ConsRead) (copyout : Bool) : Option LineSys :=
  if 0 < c.n then
    match a.ready with
    | [] => if a.killed then some (a.finish none) else none
    | ch :: rest =>
      if ch = C 'D' then
        if c.got = [] then some ((a.take ch rest).finish (some c.got)) else some (a.finish (some c.got))
      else if !copyout then some ((a.take ch rest).finish (some c.got))
      else
        let c := { c with n := c.n - 1, got := c.got ++ [ch] }
        if ch = '\n'.toUInt8 then some ((a.take ch rest).finish (some c.got))
        else some { a.take ch rest with call := some c }
  else some (a.finish (some c.got))

theorem intr_reader (a : LineSys) (c : UInt8) :
    (a.intr c).killed = a.killed ∧ (a.intr c).call = a.call ∧ (a.intr c).out = a.out ∧ (a.intr c).taken = a.taken := by
  simp only [intr]
  split_ifs <;> exact ⟨rfl, rfl, rfl, rfl⟩

theorem intr_commits (a : LineSys) (c : UInt8) :
    ∃ x, (a.intr c).ready = a.ready ++ x ∧ (a.intr c).log = a.log ++ x := by
  simp only [intr]
  split_ifs
  all_goals first
    | exact ⟨_, rfl, rfl⟩
    | exact ⟨[], (List.append_nil _).symm, (List.append_nil _).symm⟩

theorem read_cases {a a' : LineSys} {c : ConsRead} {cp : Bool} (h : a.read c cp = some a') :
    (c.n ≤ 0 ∧ a' = a.finish (some c.got)) ∨
    (0 < c.n ∧ a.ready = [] ∧ a.killed = true ∧ a' = a.finish none) ∨
    (∃ rest, 0 < c.n ∧ a.ready = C 'D' :: rest ∧ c.got = [] ∧ a' = (a.take (C 'D') rest).finish (some [])) ∨
    (∃ rest, 0 < c.n ∧ a.ready = C 'D' :: rest ∧ c.got ≠ [] ∧ a' = a.finish (some c.got)) ∨
    (∃ ch rest, 0 < c.n ∧ a.ready = ch :: rest ∧ ch ≠ C 'D' ∧ cp = false ∧
      a' = (a.take ch rest).finish (some c.got)) ∨
    (∃ rest, 0 < c.n ∧ a.ready = '\n'.toUInt8 :: rest ∧ cp = true ∧
      a' = (a.take '\n'.toUInt8 rest).finish (some (c.got ++ ['\n'.toUInt8]))) ∨
    (∃ ch rest, 0 < c.n ∧ a.ready = ch :: rest ∧ ch ≠ C 'D' ∧ ch ≠ '\n'.toUInt8 ∧ cp = true ∧
      a' = { a.take ch rest with call := some { c with n := c.n - 1, got := c.got ++ [ch] } }) := by
  unfold read at h
  by_cases hn : 0 < c.n
  case neg =>
    simp only [if_neg hn, Option.some.injEq] at h
    exact .inl ⟨not_lt.mp hn, h.symm⟩
  simp only [if_pos hn] at h
  right
  rcases hr : a.ready with _ | ⟨ch, rest⟩
  case nil =>
    rw [hr] at h
    simp only at h
    -- a sleeping call is no step
    split_ifs at h with hk
    exact .inl ⟨hn, rfl, hk, (Option.some.inj h).symm⟩
  rw [hr] at h
  simp only at h
  right
  by_cases hD : ch = C 'D'
  case pos =>
    subst hD
    by_cases hg : c.got = []
    · simp only [if_true, if_pos hg, Option.some.injEq] at h
      exact .inl ⟨rest, hn, rfl, hg, by rw [← h, hg]⟩
    · simp only [if_true, if_neg hg, Option.some.injEq] at h
      exact .inr (.inl ⟨rest, hn, rfl, hg, h.symm⟩)
  right; right
  simp only [if_neg hD] at h
  cases cp
  case false =>
    simp only [Bool.not_false, if_true, Option.some.injEq] at h
    exact .inl ⟨ch, rest, hn, rfl, hD, rfl, h.symm⟩
  right
  simp only [Bool.not_true, Bool.false_eq_true, if_false] at h
  by_cases hnl : ch = '\n'.toUInt8
  · subst hnl
    simp only [if_true, Option.some.injEq] at h
    exact .inl ⟨rest, hn, rfl, rfl, h.symm⟩
  · simp only [if_neg hnl, Option.some.injEq] at h
    exact .inr ⟨ch, rest, hn, rfl, hD, hnl, rfl, h.symm⟩

end LineSys

def lineStep (a : LineSys) : ConsEvent → Option LineSys
  | .intr c => some (a.intr c)
  | .read n =>
    if a.call = none then some { a with call := some { target := (int32 n % 2 ^ 32).toNat, n := int32 n, got := [] } }
    else none
  | .step copyout =>
    match a.call with
    | none => none
    | some c => a.read c copyout
  | .kill => some { a with killed := true }

def lineBoot : LineSys := ⟨[], [], false, none, [], [], []⟩

namespace Cons

variable {s : Cons}

/-- `consoleintr` keeps the invariant and edits the two lists as `LineSys.intr` does. -/
theorem intr_refines (hi : s.Inv) (a : LineSys) (hr : s.ready = a.ready) (he : s.edit = a.line) (c : UInt8) :
    (consoleintr s c).Inv ∧ (consoleintr s c).ready = (a.intr c).ready ∧
      (consoleintr s c).edit = (a.intr c).line := by
  have hlen : a.ready.length + a.line.length = ahead s.e s.r := by rw [← hr, ← he, hi.length]
  unfold consoleintr LineSys.intr
  by_cases hP : c = C 'P'
  · simp only [if_pos hP]
    exact ⟨hi, hr, he⟩
  simp only [if_neg hP]
  by_cases hU : c = C 'U'
  · -- the kill loop runs back to `w`: the line has no newline
    simp only [if_pos hU]
    rw [killLine_eq (s.e - s.w).toNat s rfl hi.nl]
    exact ⟨hi.kill, hr, by simp [edit, (ahead_eq_zero_iff).mpr rfl]⟩
  simp only [if_neg hU]
  by_cases hH : c = C 'H' ∨ c = 0x7f
  · simp only [if_pos hH]
    by_cases hw : s.e ≠ s.w
    · rw [if_pos hw]
      exact ⟨hi.erase hw, hr, by rw [edit_erase hw, he]⟩
    · rw [if_neg hw]
      -- nothing is being edited
      have h0 : s.edit = [] := by simp [edit, ahead_eq_zero_iff.mpr (not_not.mp hw)]
      exact ⟨hi, hr, by rw [← he, h0]; rfl⟩
  simp only [if_neg hH]
  rw [hlen]
  by_cases hT : c ≠ 0 ∧ ahead s.e s.r < INPUT_BUF_SIZE
  · have hT' : c ≠ 0 ∧ (s.e - s.r).toNat < INPUT_BUF_SIZE := hT
    simp only [if_pos hT, if_pos hT']
    set c' := if c = '\r'.toUInt8 then '\n'.toUInt8 else c
    set t := { s with buf := Function.update s.buf (Cons.slot s.e) c', e := s.e + 1 }
    obtain ⟨hready, hedit⟩ : t.ready = s.ready ∧ t.edit = s.edit ++ [c'] := type_views hi.wr hT.2 c'
    have hsucc : ahead t.e s.r = ahead s.e s.r + 1 :=
      ahead_succ_left (by have := hT.2; simp only [INPUT_BUF_SIZE] at this; omega)
    -- the commit test, read on the new indices
    have hfull : ((s.e + 1 - s.r).toNat = INPUT_BUF_SIZE) ↔ ahead s.e s.r + 1 = INPUT_BUF_SIZE := by
      rw [← hsucc]; rfl
    by_cases hc : c' = '\n'.toUInt8 ∨ c' = C 'D' ∨ ahead s.e s.r + 1 = INPUT_BUF_SIZE
    · have hc' : c' = '\n'.toUInt8 ∨ c' = C 'D' ∨ (s.e + 1 - s.r).toNat = INPUT_BUF_SIZE := by rwa [hfull]
      simp only [if_pos hc, if_pos hc']
      change { t with w := t.e }.Inv ∧ { t with w := t.e }.ready = _ ∧ { t with w := t.e }.edit = _
      have hwr : ahead t.w t.r ≤ ahead t.e t.r := by
        show ahead s.w s.r ≤ ahead t.e s.r
        rw [hsucc]
        exact hi.wr.trans (Nat.le_succ _)
      refine ⟨Inv.commit (s := t) (by show ahead t.e s.r ≤ _; rw [hsucc]; exact hT.2), ?_, edit_commit (s := t)⟩
      rw [ready_commit (s := t) hwr, hready, hedit, hr, he]
    · have hc' : ¬(c' = '\n'.toUInt8 ∨ c' = C 'D' ∨ (s.e + 1 - s.r).toNat = INPUT_BUF_SIZE) := by rwa [hfull]
      simp only [if_neg hc, if_neg hc']
      exact ⟨hi.type hT.2 (fun h => hc (.inl h)), by rw [hready, hr], by rw [hedit, he]⟩
  · have hT' : ¬(c ≠ 0 ∧ (s.e - s.r).toNat < INPUT_BUF_SIZE) := hT
    simp only [if_neg hT, if_neg hT']
    exact ⟨hi, hr, he⟩

/-! ### `cons.r++` -/

theorem ready_take (h : s.r ≠ s.w) : s.ready = s.buf (slot s.r) :: { s with r := s.r + 1 }.ready := by
  obtain ⟨k, hk⟩ : ∃ k, ahead s.w s.r = k + 1 :=
    Nat.exists_eq_succ_of_ne_zero ((not_congr ahead_eq_zero_iff).mpr (Ne.symm h))
  simp only [ready]
  rw [ahead_succ_right (Ne.symm h), hk, view_succ_head, Nat.add_sub_cancel]
  rfl

theorem Inv.take (hi : s.Inv) (h : s.r ≠ s.w) : { s with r := s.r + 1 }.Inv where
  wr := by
    -- `w` and `e` both lie past `r`, so both distances shrink by one
    have hw : 0 < ahead s.w s.r := Nat.pos_of_ne_zero ((not_congr ahead_eq_zero_iff).mpr (Ne.symm h))
    have he : s.e ≠ s.r := fun her => by
      have := hi.wr
      rw [ahead_eq_zero_iff.mpr her] at this
      omega
    show ahead s.w (s.r + 1) ≤ ahead s.e (s.r + 1)
    rw [ahead_succ_right (Ne.symm h), ahead_succ_right he]
    exact Nat.sub_le_sub_right hi.wr 1
  er := by
    show ahead s.e (s.r + 1) ≤ INPUT_BUF_SIZE
    by_cases he : s.e = s.r
    · -- then `w = r` too, which the hypothesis excludes
      have := hi.wr
      rw [ahead_eq_zero_iff.mpr he, Nat.le_zero, ahead_eq_zero_iff] at this
      exact absurd this.symm h
    · rw [ahead_succ_right he]
      exact (Nat.sub_le _ 1).trans hi.er
  nl := hi.nl

end Cons

/-- While bytes are still to be copied, `target` is the count still to copy plus the count
copied: the test `n < target` of a `^D` asks whether anything was copied. -/
def ConsRead.Wf (c : ConsRead) : Prop := 0 < c.n → c.target = c.n.toNat + c.got.length

theorem ConsRead.wf_start (n : ℤ) : ConsRead.Wf { target := (int32 n % 2 ^ 32).toNat, n := int32 n, got := [] } := by
  intro hn
  have hlt := int32_lt n
  simp only at hn ⊢
  rw [Int.emod_eq_of_lt hn.le (by omega)]
  simp

theorem ConsRead.Wf.copy {c : ConsRead} (hc : c.Wf) (hn : 0 < c.n) (ch : UInt8) :
    ConsRead.Wf { c with n := c.n - 1, got := c.got ++ [ch] } := by
  intro _
  simp only [List.length_append, List.length_singleton]
  rw [hc hn]
  omega

/-! ## Refinement -/

/-- The ring's system and the list model agree: the ring's two lists are the model's, the
reader is the same, and the call under way, if any, is well formed. -/
structure Refines (s : ConsSys) (a : LineSys) : Prop where
  inv : s.cons.Inv
  ready : s.cons.ready = a.ready
  line : s.cons.edit = a.line
  killed : s.killed = a.killed
  call : s.call = a.call
  out : s.out = a.out
  wf : ∀ c, a.call = some c → c.Wf

namespace Refines

variable {s : ConsSys} {a : LineSys}

theorem finish (h : Refines s a) (r : Option (List UInt8)) : Refines (s.finish r) (a.finish r) where
  inv := h.inv
  ready := h.ready
  line := h.line
  killed := h.killed
  call := rfl
  out := by rw [ConsSys.finish, LineSys.finish, h.out]
  wf := by simp [LineSys.finish]

theorem take (h : Refines s a) (hrw : s.cons.r ≠ s.cons.w) (ch : UInt8) :
    Refines { s with cons := { s.cons with r := s.cons.r + 1 } }
      (a.take ch { s.cons with r := s.cons.r + 1 }.ready) where
  inv := h.inv.take hrw
  ready := rfl
  line := h.line
  killed := h.killed
  call := h.call
  out := h.out
  wf := h.wf

theorem setCall (h : Refines s a) {c : ConsRead} (hc : c.Wf) :
    Refines { s with call := some c } { a with call := some c } where
  inv := h.inv
  ready := h.ready
  line := h.line
  killed := h.killed
  call := rfl
  out := h.out
  wf := by rintro _ ⟨⟩; exact hc

theorem intr (h : Refines s a) (c : UInt8) :
    Refines { s with cons := consoleintr s.cons c } (a.intr c) := by
  obtain ⟨hi, hr, he⟩ := Cons.intr_refines h.inv a h.ready h.line c
  obtain ⟨hk, hc, ho, -⟩ := a.intr_reader c
  exact ⟨hi, hr, he, hk ▸ h.killed, hc ▸ h.call, ho ▸ h.out, hc ▸ h.wf⟩

/-- One round of `consoleread` is one round of `LineSys.read`. -/
theorem read (h : Refines s a) {c : ConsRead} (hc : a.call = some c) (cp : Bool) {s' : ConsSys}
    (hs : consoleread s c cp = some s') : ∃ a', a.read c cp = some a' ∧ Refines s' a' := by
  have hwf := h.wf c hc
  unfold consoleread at hs
  unfold LineSys.read
  by_cases hn : 0 < c.n
  case neg =>
    simp only [if_neg hn, Option.some.injEq] at hs ⊢
    exact ⟨_, rfl, hs ▸ h.finish _⟩
  simp only [if_pos hn] at hs ⊢
  by_cases hrw : s.cons.r = s.cons.w
  case pos =>
    -- nothing committed: the call sleeps, or returns `-1` once killed
    have hnil : a.ready = [] := by
      rw [← h.ready, Cons.ready, ahead_eq_zero_iff.mpr hrw.symm, view_zero]
    simp only [if_pos hrw, hnil, ← h.killed] at hs ⊢
    -- a sleeping call (`none`) is no step; `split_ifs` discards it
    split_ifs at hs ⊢
    exact ⟨_, rfl, Option.some.inj hs ▸ h.finish none⟩
  simp only [if_neg hrw] at hs
  rw [← h.ready, Cons.ready_take hrw]
  simp only
  have ht := h.take hrw (s.cons.buf (Cons.slot s.cons.r))
  by_cases hD : s.cons.buf (Cons.slot s.cons.r) = C 'D'
  case pos =>
    simp only [if_pos hD] at hs ⊢
    by_cases hg : c.got = []
    case pos =>
      -- nothing copied: the `^D` is taken and the call returns `0`
      have hput : ¬c.n.toNat < c.target := by rw [hwf hn, hg]; simp
      simp only [if_pos hg, if_neg hput, Option.some.injEq] at hs ⊢
      exact ⟨_, rfl, hs ▸ ht.finish _⟩
    case neg =>
      -- the `^D` is put back: the ring is as it was
      have hput : c.n.toNat < c.target := by
        rw [hwf hn]
        have := List.length_pos_of_ne_nil hg
        omega
      have hcons : { s.cons with r := s.cons.r + 1 - 1 } = s.cons := by simp
      simp only [if_neg hg, if_pos hput, hcons, Option.some.injEq] at hs ⊢
      exact ⟨_, rfl, hs ▸ h.finish _⟩
  simp only [if_neg hD] at hs ⊢
  cases cp
  case false =>
    -- a failed copy: the byte is gone and the call returns what it had
    simp only [Bool.not_false, if_true, Option.some.injEq] at hs ⊢
    exact ⟨_, rfl, hs ▸ ht.finish _⟩
  simp only [Bool.not_true, Bool.false_eq_true, if_false] at hs ⊢
  by_cases hnl : s.cons.buf (Cons.slot s.cons.r) = '\n'.toUInt8
  · simp only [if_pos hnl, Option.some.injEq] at hs ⊢
    exact ⟨_, rfl, hs ▸ ht.finish _⟩
  · simp only [if_neg hnl, Option.some.injEq] at hs ⊢
    exact ⟨_, rfl, hs ▸ ht.setCall (hwf.copy hn _)⟩

end Refines

/-! ## What the list model guarantees -/

/-- At most one line: no `^D`, and a newline only at the end. -/
def OneLine (l : List UInt8) : Prop := C 'D' ∉ l ∧ '\n'.toUInt8 ∉ l.dropLast

theorem OneLine.of_got {l : List UInt8} (h : C 'D' ∉ l ∧ '\n'.toUInt8 ∉ l) : OneLine l :=
  ⟨h.1, fun hm => h.2 (List.dropLast_subset _ hm)⟩

theorem OneLine.line {l : List UInt8} (h : C 'D' ∉ l ∧ '\n'.toUInt8 ∉ l) : OneLine (l ++ ['\n'.toUInt8]) := by
  refine ⟨?_, by rw [List.dropLast_concat]; exact h.2⟩
  simp only [List.mem_append, List.mem_singleton, not_or]
  exact ⟨h.1, by decide⟩

/-- An event that neither fails a copy nor kills the reader. -/
def ConsEvent.Clean (e : ConsEvent) : Prop := e ≠ .step false ∧ e ≠ .kill

namespace LineSys

variable {a a' : LineSys}

/-- What holds in every run: each committed character has been taken by a read or is still
committed, in order; each call returns at most one line; and the call under way has copied
neither a `^D` nor a newline. -/
structure Inv (a : LineSys) : Prop where
  log : a.log = a.taken ++ a.ready
  lines : ∀ l, some l ∈ a.out → OneLine l
  got : ∀ c, a.call = some c → C 'D' ∉ c.got ∧ '\n'.toUInt8 ∉ c.got

theorem Inv.finish (hi : a.Inv) {r : Option (List UInt8)} (hr : ∀ l, r = some l → OneLine l) :
    (a.finish r).Inv where
  log := hi.log
  lines := by
    intro l hl
    rcases List.mem_append.mp hl with hl | hl
    · exact hi.lines l hl
    · exact hr l (List.mem_singleton.mp hl).symm
  got := by simp [LineSys.finish]

theorem Inv.take (hi : a.Inv) {ch : UInt8} {rest : List UInt8} (hr : a.ready = ch :: rest) :
    (a.take ch rest).Inv where
  log := by simp [hi.log, hr]
  lines := hi.lines
  got := hi.got

theorem Inv.read (hi : a.Inv) {c : ConsRead} (hc : a.call = some c) {cp : Bool} (h : a.read c cp = some a') :
    a'.Inv := by
  have hg := hi.got c hc
  rcases read_cases h with ⟨-, rfl⟩ | ⟨-, -, -, rfl⟩ | ⟨rest, -, hr, -, rfl⟩ | ⟨rest, -, -, -, rfl⟩ |
    ⟨ch, rest, -, hr, -, -, rfl⟩ | ⟨rest, -, hr, -, rfl⟩ | ⟨ch, rest, -, hr, hD, hnl, -, rfl⟩
  case inl => exact hi.finish (by rintro l ⟨⟩; exact .of_got hg)
  case inr.inl => exact hi.finish (by simp)
  case inr.inr.inl => exact (hi.take hr).finish (by rintro l ⟨⟩; exact .of_got (by simp))
  case inr.inr.inr.inl => exact hi.finish (by rintro l ⟨⟩; exact .of_got hg)
  case inr.inr.inr.inr.inl => exact (hi.take hr).finish (by rintro l ⟨⟩; exact .of_got hg)
  case inr.inr.inr.inr.inr.inl => exact (hi.take hr).finish (by rintro l ⟨⟩; exact .line hg)
  case inr.inr.inr.inr.inr.inr =>
    -- the call goes on with one more byte, neither a `^D` nor a newline
    have ht := hi.take hr
    refine ⟨ht.log, ht.lines, ?_⟩
    rintro _ ⟨⟩
    simp only [List.mem_append, List.mem_singleton, not_or]
    exact ⟨⟨hg.1, Ne.symm hD⟩, ⟨hg.2, Ne.symm hnl⟩⟩

theorem Inv.step (hi : a.Inv) {e : ConsEvent} (h : lineStep a e = some a') : a'.Inv := by
  cases e with
  | intr c =>
    obtain ⟨x, hr, hl⟩ := a.intr_commits c
    obtain ⟨-, hc, ho, ht⟩ := a.intr_reader c
    cases h
    exact ⟨by rw [hl, hr, ht, hi.log, List.append_assoc], ho ▸ hi.lines, hc ▸ hi.got⟩
  | read n =>
    simp only [lineStep] at h
    split_ifs at h
    cases h
    exact ⟨hi.log, hi.lines, by rintro _ ⟨⟩; simp⟩
  | step cp =>
    simp only [lineStep] at h
    split at h
    · cases h
    · exact hi.read ‹_› h
  | kill =>
    cases h
    exact ⟨hi.log, hi.lines, hi.got⟩

theorem boot_inv : lineBoot.Inv := ⟨rfl, by simp [lineBoot], by simp [lineBoot]⟩

/-- Along runs with no failed copy and no kill, the calls return exactly the characters they
take, less the `^D`s, and no call returns `-1`. -/
structure Delivers (a : LineSys) : Prop where
  alive : a.killed = false
  exact : a.delivered ++ a.pending = a.taken.filter (· != C 'D')

theorem Delivers.read (hd : a.Delivers) {c : ConsRead} (hc : a.call = some c) (h : a.read c true = some a') :
    a'.Delivers := by
  have hp : a.pending = c.got := by simp [pending, hc]
  have hx := hd.exact
  rw [hp] at hx
  rcases read_cases h with ⟨-, rfl⟩ | ⟨-, -, hk, -⟩ | ⟨rest, -, -, hg, rfl⟩ | ⟨rest, -, -, -, rfl⟩ |
    ⟨ch, rest, -, -, -, hf, -⟩ | ⟨rest, -, -, -, rfl⟩ | ⟨ch, rest, -, -, hD, -, -, rfl⟩
  case inl => exact ⟨hd.alive, by simpa using hx⟩
  case inr.inl => exact absurd hk (by simp [hd.alive])
  case inr.inr.inl =>
    -- the `^D` is taken and nothing returned
    refine ⟨hd.alive, ?_⟩
    simp only [delivered_finish, pending_finish, delivered_take, taken_finish, taken_take, Option.getD_some,
      List.filter_append, ← hx, hg]
    simp
  case inr.inr.inr.inl => exact ⟨hd.alive, by simpa using hx⟩
  case inr.inr.inr.inr.inl => exact absurd hf (by simp)
  case inr.inr.inr.inr.inr.inl =>
    refine ⟨hd.alive, ?_⟩
    simp only [delivered_finish, pending_finish, delivered_take, taken_finish, taken_take, Option.getD_some,
      List.filter_append, ← hx]
    simp only [List.append_nil, List.append_assoc]
    rfl
  case inr.inr.inr.inr.inr.inr =>
    -- one more byte copied
    refine ⟨hd.alive, ?_⟩
    show (a.take ch rest).delivered ++ (c.got ++ [ch]) = (a.take ch rest).taken.filter (· != C 'D')
    simp only [delivered_take, taken_take, List.filter_append, ← hx]
    simp [hD]

theorem Delivers.step (hd : a.Delivers) {e : ConsEvent} (he : e.Clean) (h : lineStep a e = some a') :
    a'.Delivers := by
  cases e with
  | intr c =>
    obtain ⟨hk, hc, ho, ht⟩ := a.intr_reader c
    cases h
    refine ⟨hk ▸ hd.alive, ?_⟩
    simp only [delivered, pending, ho, hc, ht]
    exact hd.exact
  | read n =>
    simp only [lineStep] at h
    split_ifs at h with hc
    cases h
    refine ⟨hd.alive, ?_⟩
    -- no call was under way, so nothing was pending
    have := hd.exact
    simp only [pending, hc, Option.map_none, Option.getD_none] at this
    simpa [pending, delivered] using this
  | step cp =>
    obtain rfl : cp = true := by
      cases cp
      · exact absurd rfl he.1
      · rfl
    simp only [lineStep] at h
    split at h
    · cases h
    · exact hd.read ‹_› h
  | kill => exact absurd rfl he.2

theorem boot_delivers : lineBoot.Delivers := ⟨rfl, rfl⟩

end LineSys

/-! ## Runs -/

namespace Refines

variable {s s' : ConsSys} {a : LineSys}

theorem boot : Refines consBoot lineBoot where
  inv := ⟨le_rfl, by decide, by simp [Cons.edit, consBoot, ahead_eq_zero_iff.mpr]⟩
  ready := by simp [Cons.ready, consBoot, lineBoot, ahead_eq_zero_iff.mpr]
  line := by simp [Cons.edit, consBoot, lineBoot, ahead_eq_zero_iff.mpr]
  killed := rfl
  call := rfl
  out := rfl
  wf := by simp [lineBoot]

theorem kill (h : Refines s a) : Refines { s with killed := true } { a with killed := true } :=
  ⟨h.inv, h.ready, h.line, rfl, h.call, h.out, h.wf⟩

/-- Every event of the ring's system is the same event of the list model. -/
theorem step (h : Refines s a) {e : ConsEvent} (hs : consStep s e = some s') :
    ∃ a', lineStep a e = some a' ∧ Refines s' a' := by
  cases e with
  | intr c => cases hs; exact ⟨_, rfl, h.intr c⟩
  | read n =>
    simp only [consStep] at hs
    split_ifs at hs with hc
    cases hs
    have hc' : a.call = none := h.call ▸ hc
    exact ⟨_, by simp [lineStep, hc'], h.setCall (ConsRead.wf_start n)⟩
  | step cp =>
    simp only [consStep] at hs
    split at hs
    · cases hs
    · rename_i c hc
      obtain ⟨a', ha', h'⟩ := h.read (h.call ▸ hc) cp hs
      exact ⟨a', by simp [lineStep, ← h.call, hc, ha'], h'⟩
  | kill => cases hs; exact ⟨_, rfl, h.kill⟩

theorem run {es : List ConsEvent} (hs : Run.run consStep consBoot es = some s) :
    ∃ a, Run.run lineStep lineBoot es = some a ∧ Refines s a :=
  Run.run_simulate Refines (fun _ _ e _ (h : Refines _ _) (hs : consStep _ e = some _) => h.step hs) es boot hs

end Refines

namespace Cons

variable {s : Cons}

theorem ready_cons {ch : UInt8} {rest : List UInt8} (h : s.ready = ch :: rest) :
    s.r ≠ s.w ∧ s.buf (slot s.r) = ch ∧ { s with r := s.r + 1 }.ready = rest := by
  have hrw : s.r ≠ s.w := by
    intro hrw
    rw [ready, ahead_eq_zero_iff.mpr hrw.symm, view_zero] at h
    cases h
  rw [ready_take hrw, List.cons.injEq] at h
  exact ⟨hrw, h.1, h.2⟩

end Cons

/-- A call that meets a `^D` after copying returns what it copied, leaving the `^D` in the ring. -/
theorem consoleread_eof_kept {s : ConsSys} {c : ConsRead} (hc : c.Wf) (hn : 0 < c.n) (hg : c.got ≠ [])
    {rest : List UInt8} (hD : s.cons.ready = C 'D' :: rest) (cp : Bool) :
    consoleread s c cp = some (s.finish (some c.got)) := by
  obtain ⟨hrw, hch, -⟩ := Cons.ready_cons hD
  have hput : c.n.toNat < c.target := by
    rw [hc hn]
    have := List.length_pos_of_ne_nil hg
    omega
  have hcons : { s.cons with r := s.cons.r + 1 - 1 } = s.cons := by simp
  simp only [consoleread, if_pos hn, if_neg hrw, hch, if_true, if_pos hput, hcons]

/-- A call that starts at a `^D` takes it and returns `0`. -/
theorem consoleread_eof_taken {s : ConsSys} {c : ConsRead} (hc : c.Wf) (hn : 0 < c.n) (hg : c.got = [])
    {rest : List UInt8} (hD : s.cons.ready = C 'D' :: rest) (cp : Bool) :
    ∃ s', consoleread s c cp = some s' ∧ s'.out = s.out ++ [some []] ∧ s'.cons.ready = rest ∧
      s'.cons.edit = s.cons.edit ∧ s'.call = none := by
  obtain ⟨hrw, hch, hrest⟩ := Cons.ready_cons hD
  have hput : ¬c.n.toNat < c.target := by rw [hc hn, hg]; simp
  simp only [consoleread, if_pos hn, if_neg hrw, hch, if_true, if_neg hput, hg]
  exact ⟨_, rfl, rfl, hrest, rfl, rfl⟩

/-- The console over every run of typed characters and read calls. The ring keeps
`r <= w <= e <= r + INPUT_BUF_SIZE` modulo `2 ^ 32`; a typed character only ever appends to
the committed characters; the ring holds the list model's committed characters and line,
and the calls have returned what the model's have; each call returns at most one line; a
`^D` met after data stays in the ring and the call returns the data, while a call that meets
it first takes it and returns `0`. When no copy fails and no kill comes, what the calls have
returned, what the call under way has copied and what is still committed are, less the
`^D`s, the characters committed so far, in order. -/
theorem console_line_discipline (es : List ConsEvent) {s : ConsSys} (hs : Run.run consStep consBoot es = some s) :
    ∃ a, Run.run lineStep lineBoot es = some a ∧
      s.cons.Inv ∧
      (∀ c, ∃ x, (consoleintr s.cons c).ready = s.cons.ready ++ x) ∧
      s.cons.ready = a.ready ∧ s.cons.edit = a.line ∧ s.out = a.out ∧
      (∀ l, some l ∈ s.out → OneLine l) ∧
      (∀ c rest cp, s.call = some c → 0 < c.n → c.got ≠ [] → s.cons.ready = C 'D' :: rest →
        consStep s (.step cp) = some (s.finish (some c.got))) ∧
      (∀ c rest cp, s.call = some c → 0 < c.n → c.got = [] → s.cons.ready = C 'D' :: rest →
        ∃ s', consStep s (.step cp) = some s' ∧ s'.out = s.out ++ [some []] ∧ s'.cons.ready = rest) ∧
      ((∀ e ∈ es, e.Clean) →
        (s.out.filterMap id).flatten ++ (s.call.map ConsRead.got).getD [] ++ s.cons.ready.filter (· != C 'D') =
          a.log.filter (· != C 'D')) := by
  obtain ⟨a, ha, h⟩ := Refines.run hs
  have hinv : a.Inv := Run.Reachable.induction LineSys.boot_inv (fun _ _ _ hi he => hi.step he)
    (Run.reachable_of_run ha)
  refine ⟨a, ha, h.inv, ?_, h.ready, h.line, h.out, h.out ▸ hinv.lines, ?_, ?_, ?_⟩
  · -- typing: the committed characters of the model only grow
    intro c
    obtain ⟨-, hr, -⟩ := Cons.intr_refines h.inv a h.ready h.line c
    obtain ⟨x, hx, -⟩ := a.intr_commits c
    exact ⟨x, by rw [hr, hx, h.ready]⟩
  · intro c rest cp hc hn hg hD
    simp only [consStep, hc]
    exact consoleread_eof_kept (h.wf c (h.call ▸ hc)) hn hg hD cp
  · intro c rest cp hc hn hg hD
    obtain ⟨s', hs', hrest⟩ := consoleread_eof_taken (h.wf c (h.call ▸ hc)) hn hg hD cp
    exact ⟨s', by simp [consStep, hc, hs'], hrest.1, hrest.2.1⟩
  · -- the delivered characters, then the log split at what has been taken
    intro hclean
    have hd : a.Delivers := Run.run_invariant (fun _ _ e he hd hs => hd.step he hs) es hclean
      LineSys.boot_delivers ha
    have hx := hd.exact
    simp only [LineSys.delivered, LineSys.pending] at hx
    rw [hinv.log, List.filter_append, ← hx, h.out, h.call, h.ready]

/-- `h`, `i`, `^H`, `o` and a return typed, then one call to read 10 bytes. -/
def helloRun : List ConsEvent :=
  [.intr 104, .intr 105, .intr 8, .intr 111, .intr 13, .read 10, .step true, .step true, .step true]

theorem console_line_discipline_hello :
    ∃ s, Run.run consStep consBoot helloRun = some s ∧ s.out = [some [104, 111, 10]] ∧
      ∃ a, Run.run lineStep lineBoot helloRun = some a ∧ s.cons.Inv ∧ a.log = [104, 111, 10] := by
  obtain ⟨s, hs⟩ : ∃ s, Run.run consStep consBoot helloRun = some s :=
    Option.isSome_iff_exists.mp (by decide)
  obtain ⟨a, ha, hi, -⟩ := console_line_discipline helloRun hs
  have hout : (Run.run consStep consBoot helloRun).map ConsSys.out = some [some [104, 111, 10]] := by
    decide
  have hlog : (Run.run lineStep lineBoot helloRun).map LineSys.log = some [104, 111, 10] := by
    decide
  rw [hs, Option.map_some, Option.some.injEq] at hout
  rw [ha, Option.map_some, Option.some.injEq] at hlog
  exact ⟨s, hs, hout, a, ha, hi, hlog⟩

/-- `a` and a return typed, then a call whose first copy fails, then a call that copies. -/
def faultRun : List ConsEvent := [.intr 97, .intr 13, .read 10, .step false, .read 10, .step true]

/-- `INPUT_BUF_SIZE` characters `a` typed, which fill the ring and so commit it, then a call to
read 200 bytes that copies them all and sleeps, and a kill. -/
def killRun : List ConsEvent :=
  List.replicate 128 (.intr 97) ++ [.read 200] ++ List.replicate 128 (.step true) ++ [.kill, .step true]

/-- Committed characters that no call returns: after a failed copy the `a` is gone from the
ring, and the calls return only the newline; a killed call that copied a full ring returns
`-1`, and the ring is empty. -/
theorem consoleread_loses_input :
    (Run.run lineStep lineBoot faultRun).map LineSys.log = some [97, 10] ∧
      (Run.run consStep consBoot faultRun).map (fun s => (s.out, s.cons.ready)) = some ([some [], some [10]], []) ∧
      (Run.run lineStep lineBoot killRun).map LineSys.log = some (List.replicate 128 97) ∧
      (Run.run consStep consBoot killRun).map (fun s => (s.out, s.cons.ready)) = some ([none], []) := by
  refine ⟨?_, ?_, ?_, ?_⟩ <;> decide +kernel

end Xv6
