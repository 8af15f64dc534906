import Xv6.Spec.Grep

/-! What `grep`'s patterns mean. A pattern is read as a sequence of items: `x*` where a `*`
follows `x`, `$` when it is the last byte, and any other byte standing for itself (`.` for
any byte); a `^` that is not first and a `$` that is not last are such bytes too. An item
list matches a piece of the text by the usual rules, with `$` matching only where the text
ends. `match` is then exact: it accepts iff some suffix of the text (only the whole text
under a leading `^`) starts with a piece the pattern matches. -/

namespace Xv6

/-- One item of a pattern. -/
inductive Item
  | one (x : UInt8)
  | star (x : UInt8)
  | eol
  deriving DecidableEq, Repr

/-- The items of a pattern: a `*` binds to the byte before it, and a `$` is the end of the
text only as the last byte. -/
def items : List UInt8 → List Item
  | [] => []
  | [c] => if c = DOLLAR then [.eol] else [.one c]
  | c :: d :: re => if d = STAR then .star c :: items re else .one c :: items (d :: re)

/-- The pattern byte `x` matches the text byte `c`: `.` matches every byte. -/
def Accepts (x c : UInt8) : Prop := x = DOT ∨ x = c

/-- `Sem is p r`: the items match exactly the piece `p` of the text, which `r` follows. -/
def Sem : List Item → List UInt8 → List UInt8 → Prop
  | [], p, _ => p = []
  | .one x :: is, p, r => ∃ c p', p = c :: p' ∧ Accepts x c ∧ Sem is p' r
  | .star x :: is, p, r => ∃ q p', p = q ++ p' ∧ (∀ c ∈ q, Accepts x c) ∧ Sem is p' r
  | .eol :: _, p, r => p = [] ∧ r = []

/-- The items match a prefix of `s`. -/
def MatchesPrefix (is : List Item) (s : List UInt8) : Prop := ∃ p r, s = p ++ r ∧ Sem is p r

/-! ## The semantics, item by item -/

@[simp] theorem matchesPrefix_nil (s : List UInt8) : MatchesPrefix [] s :=
  ⟨[], s, rfl, rfl⟩

@[simp] theorem matchesPrefix_eol (is : List Item) (s : List UInt8) :
    MatchesPrefix (.eol :: is) s ↔ s = [] := by
  constructor
  · rintro ⟨p, r, rfl, rfl, rfl⟩
    rfl
  · rintro rfl
    exact ⟨[], [], rfl, rfl, rfl⟩

theorem matchesPrefix_one (x : UInt8) (is : List Item) (s : List UInt8) :
    MatchesPrefix (.one x :: is) s ↔ ∃ c s', s = c :: s' ∧ Accepts x c ∧ MatchesPrefix is s' := by
  constructor
  · rintro ⟨p, r, rfl, c, p', rfl, hx, hs⟩
    exact ⟨c, p' ++ r, rfl, hx, p', r, rfl, hs⟩
  · rintro ⟨c, s', rfl, hx, p', r, rfl, hs⟩
    exact ⟨c :: p', r, rfl, c, p', rfl, hx, hs⟩

theorem matchesPrefix_star (x : UInt8) (is : List Item) (s : List UInt8) :
    MatchesPrefix (.star x :: is) s ↔
      ∃ q s', s = q ++ s' ∧ (∀ c ∈ q, Accepts x c) ∧ MatchesPrefix is s' := by
  constructor
  · rintro ⟨p, r, rfl, q, p', rfl, hq, hs⟩
    exact ⟨q, p' ++ r, by simp, hq, p', r, rfl, hs⟩
  · rintro ⟨q, s', rfl, hq, p', r, rfl, hs⟩
    exact ⟨q ++ p', r, by simp, q, p', rfl, hq, hs⟩

theorem accepts_iff {x c : UInt8} : (c = x ∨ x = DOT) ↔ Accepts x c := by
  unfold Accepts
  constructor
  · rintro (rfl | h)
    · exact .inr rfl
    · exact .inl h
  · rintro (h | rfl)
    · exact .inr h
    · exact .inl rfl

/-! ## The matcher against the semantics

`matchhere` is defined by well-founded recursion, so its equations are stated once here,
one per branch of the C function. -/

theorem matchhere_nil (text : List UInt8) : matchhere [] text = true := by
  rw [matchhere.eq_def]

theorem matchhere_star (c : UInt8) (re text : List UInt8) :
    matchhere (c :: STAR :: re) text = matchstar c re text := by
  rw [matchhere.eq_def]
  simp

theorem matchhere_dollar (text : List UInt8) : matchhere [DOLLAR] text = text.isEmpty := by
  rw [matchhere.eq_def]
  simp

theorem matchhere_cons {c : UInt8} {re : List UInt8} (hs : re.head? ≠ some STAR)
    (hd : ¬ (c = DOLLAR ∧ re = [])) (t : UInt8) (text : List UInt8) :
    matchhere (c :: re) (t :: text) = if c = DOT ∨ c = t then matchhere re text else false := by
  rw [matchhere.eq_def]
  simp only [if_neg hs, if_neg hd]

theorem matchhere_cons_nil {c : UInt8} {re : List UInt8} (hs : re.head? ≠ some STAR)
    (hd : ¬ (c = DOLLAR ∧ re = [])) : matchhere (c :: re) [] = false := by
  rw [matchhere.eq_def]
  simp only [if_neg hs, if_neg hd]

/-- `matchstar`'s loop: `c*` takes a run of bytes that `c` matches, after which `re` must
match; the run is tried shortest first. -/
theorem matchstar_iff (c : UInt8) (re : List UInt8) {P : List UInt8 → Prop}
    (hre : ∀ s, matchhere re s = true ↔ P s) (text : List UInt8) :
    matchstar c re text = true ↔ ∃ q s, text = q ++ s ∧ (∀ b ∈ q, Accepts c b) ∧ P s := by
  induction text with
  | nil =>
    rw [matchstar, Bool.or_false, hre]
    simp
  | cons t text ih =>
    rw [matchstar, Bool.or_eq_true, hre]
    simp only [Bool.and_eq_true, decide_eq_true_eq, ih]
    constructor
    · rintro (h | ⟨ht, q, s, rfl, hq, hs⟩)
      · exact ⟨[], t :: text, rfl, by simp, h⟩
      · refine ⟨t :: q, s, rfl, ?_, hs⟩
        simp only [List.mem_cons, forall_eq_or_imp]
        exact ⟨accepts_iff.mp ht, hq⟩
    · rintro ⟨q, s, hqs, hq, hs⟩
      cases q with
      | nil => exact .inl (by simpa using hqs ▸ hs)
      | cons b q =>
        simp only [List.cons_append, List.cons.injEq] at hqs
        obtain ⟨rfl, rfl⟩ := hqs
        simp only [List.mem_cons, forall_eq_or_imp] at hq
        exact .inr ⟨accepts_iff.mpr hq.1, q, s, rfl, hq.2, hs⟩

theorem matchhere_iff (re text : List UInt8) :
    matchhere re text = true ↔ MatchesPrefix (items re) text := by
  match re with
  | [] => simp [matchhere_nil, items]
  | [c] =>
    by_cases hc : c = DOLLAR
    · subst hc
      cases text <;> simp [matchhere_dollar, items]
    · have hd : ¬ (c = DOLLAR ∧ ([] : List UInt8) = []) := fun h => hc h.1
      cases text with
      | nil => simp [matchhere_cons_nil (by simp) hd, items, hc, matchesPrefix_one]
      | cons t text =>
        simp [matchhere_cons (by simp) hd, matchhere_nil, items, hc, matchesPrefix_one, Accepts]
  | c :: d :: re =>
    by_cases hd : d = STAR
    · -- `c*` and the rest of the pattern
      subst hd
      rw [matchhere_star, items, if_pos rfl, matchesPrefix_star]
      exact matchstar_iff c re (fun s => matchhere_iff re s) text
    · have hs : (d :: re).head? ≠ some STAR := by simp [hd]
      have hl : ¬ (c = DOLLAR ∧ d :: re = []) := by simp
      rw [items, if_neg hd, matchesPrefix_one]
      cases text with
      | nil => simp [matchhere_cons_nil hs hl]
      | cons t text =>
        rw [matchhere_cons hs hl]
        split_ifs with h
        · rw [matchhere_iff (d :: re) text]
          simp [Accepts, h]
        · simp [Accepts, h]
termination_by re.length

theorem matchLoop_iff (re text : List UInt8) :
    matchLoop re text = true ↔ ∃ u s, text = u ++ s ∧ MatchesPrefix (items re) s := by
  induction text with
  | nil =>
    rw [matchLoop, matchhere_iff]
    simp
  | cons t text ih =>
    rw [matchLoop, Bool.or_eq_true, matchhere_iff, ih]
    constructor
    · rintro (h | ⟨u, s, rfl, hs⟩)
      · exact ⟨[], t :: text, rfl, h⟩
      · exact ⟨t :: u, s, rfl, hs⟩
    · rintro ⟨u, s, hus, hs⟩
      cases u with
      | nil => exact .inl (by simpa using hus ▸ hs)
      | cons b u =>
        simp only [List.cons_append, List.cons.injEq] at hus
        obtain ⟨rfl, rfl⟩ := hus
        exact .inr ⟨u, s, rfl, hs⟩

theorem match_spec (re t : List UInt8) :
    match_ re t = true ↔
      if re.head? = some CARET then MatchesPrefix (items re.tail) t
      else ∃ u s, t = u ++ s ∧ MatchesPrefix (items re) s := by
  unfold match_
  split_ifs
  · exact matchhere_iff re.tail t
  · exact matchLoop_iff re t

end Xv6
