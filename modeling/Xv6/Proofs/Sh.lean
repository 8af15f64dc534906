import Mathlib.Data.List.GetD
import Xv6.Spec.Sh

/-! What the shell's parser accepts. A line is first a list of tokens (`lex`): white space
separates them, each of `<|>&;()` is one, `>>` is one, and a word is a longest run of
other bytes. The grammar is

    line  ::= pipe '&'* [';' line]
    pipe  ::= exec ['|' pipe]
    exec  ::= '(' line ')' redir* | redir* (WORD redir*)*
    redir ::= ('<' | '>' | '>>') WORD

with at most `MAXARGS - 1` words in an `exec`, given here as relations between token lists
and trees. `gettoken` and `peek` read the tokens of `lex` one at a time, so every parse
function is a step over that list: sound (what it consumed derives its tree) by induction
on the parser's own measure, and complete (a derivation followed by a token that may
follow it is parsed back) by induction on the derivation. A NUL-free line is thus parsed
exactly when it derives from `line`, into its derivation, and `nulterminate` then ends
every word of the tree with a NUL. -/

namespace Xv6

namespace Sh

/-! ## Tokens -/

/-- A token: a symbol (`PLUS` for `>>`), or a word by where it starts and ends. -/
inductive Tok
  | sym (c : UInt8)
  | word (q eq : ℕ)
  deriving DecidableEq, Repr

/-- The code `gettoken` returns for a token. -/
def Tok.code : Tok → UInt8
  | .sym c => c
  | .word _ _ => WORD

/-- What `peek(ps, es, toks)` answers when the tokens ahead are `ts`: whether the first is a
symbol whose byte is one of `toks` (`>` for `>>`). -/
def peeks (toks : List UInt8) : List Tok → Bool
  | .sym c :: _ => (if c = PLUS then GT else c) ∈ toks
  | _ => false

theorem lt_length_of_getD_ne {l : List UInt8} {s : ℕ} (h : l.getD s 0 ≠ 0) : s < l.length := by
  by_contra hge
  exact h (getD_of_le (Nat.le_of_not_lt hge))

theorem lt_skipWhile {l : List UInt8} {p : UInt8 → Bool} {s : ℕ} (hs : s < l.length) (hp : p (l.getD s 0)) :
    s < skipWhile l p s := by
  rw [skipWhile, if_pos ⟨hs, hp⟩]
  exact Nat.lt_of_lt_of_le (Nat.lt_succ_self s) (le_skipWhile l p _)

theorem skipWhile_idem (l : List UInt8) (p : UInt8 → Bool) (s : ℕ) :
    skipWhile l p (skipWhile l p s) = skipWhile l p s := by
  rw [skipWhile]
  split_ifs with h
  · have hstop := skipWhile_stop l p s h.1
    rw [hstop] at h
    exact absurd h.2 Bool.false_ne_true
  · rfl

theorem wordByte_ne_zero {c : UInt8} (h : wordByte c = true) : c ≠ 0 := by
  rintro rfl
  simp [wordByte, strchr] at h

theorem wordByte_of {c : UInt8} (h0 : c ≠ 0) (hs : strchr whitespace c = false) (hc : c ∉ symbols) :
    wordByte c = true := by
  simp only [strchr, Bool.or_eq_false_iff, beq_eq_false_iff_ne, List.contains_eq_mem,
    decide_eq_false_iff_not] at hs
  simp [wordByte, strchr, h0, hc, hs.2]

theorem zero_not_mem_symbols : (0 : UInt8) ∉ symbols := by decide

theorem mem_symbols {c : UInt8} : c ∈ symbols ↔ c = GT ∨ c ∈ [PIPE, LPAREN, RPAREN, SEMI, AMP, LT] := by
  simp only [symbols, List.mem_cons, List.not_mem_nil, or_false]
  tauto

/-- The tokens of the line from `s` on. -/
def lex (l : List UInt8) (s : ℕ) : List Tok :=
  let s₁ := skipWhile l (strchr whitespace) s
  let c := l.getD s₁ 0
  if hc : c ∈ symbols then
    if c = GT ∧ l.getD (s₁ + 1) 0 = GT then .sym PLUS :: lex l (s₁ + 2)
    else .sym c :: lex l (s₁ + 1)
  else if _hw : wordByte c then
    .word s₁ (skipWhile l wordByte s₁) :: lex l (skipWhile l wordByte s₁)
  else []
termination_by l.length - s
decreasing_by
  all_goals
    have h₁ := le_skipWhile l (strchr whitespace) s
    have h₂ : skipWhile l (strchr whitespace) s < l.length := lt_length_of_getD_ne (by
      first
      | exact fun h => zero_not_mem_symbols (h ▸ hc)
      | exact wordByte_ne_zero _hw)
  · omega
  · omega
  · have := lt_skipWhile h₂ _hw
    omega

theorem lex_skip (l : List UInt8) (s : ℕ) : lex l (skipWhile l (strchr whitespace) s) = lex l s := by
  conv_lhs => rw [lex]
  conv_rhs => rw [lex]
  simp only [skipWhile_idem]

theorem getD_eq_zero_of {l : List UInt8} {s : ℕ} (hs : strchr whitespace (l.getD s 0) = false ∨ l.length ≤ s)
    (hc : l.getD s 0 ∉ symbols) (hw : wordByte (l.getD s 0) = false) : l.getD s 0 = 0 := by
  by_contra h0
  have hlt := lt_length_of_getD_ne h0
  rcases hs with hs | hs
  · rw [wordByte_of h0 hs hc] at hw
    exact Bool.noConfusion hw
  · omega

theorem skipWhile_le {l : List UInt8} {q : UInt8 → Bool} {s : ℕ} (h : s ≤ l.length) :
    skipWhile l q s ≤ l.length := by
  rw [skipWhile]
  split_ifs with hs
  · exact skipWhile_le hs.1
  · exact h
termination_by l.length - s

section Lex

variable {l : List UInt8} {s p : ℕ}

/-- The next token, as `lex` and `gettoken` both see it past the white space at `p`: the
end, a symbol (`>>` taking two bytes), or a word. -/
theorem next_cases (hp : skipWhile l (strchr whitespace) s = p) :
    (l.getD p 0 = 0 ∧ lex l s = [] ∧ gettoken l s = (0, p, p, p)) ∨
    (∃ c n, l.getD p 0 ∈ symbols ∧ (if c = PLUS then GT else c) = l.getD p 0 ∧ p + n ≤ l.length ∧
      lex l s = .sym c :: lex l (p + n) ∧
      gettoken l s = (c, p, p + n, skipWhile l (strchr whitespace) (p + n))) ∨
    (∃ e, wordByte (l.getD p 0) ∧ e = skipWhile l wordByte p ∧ e ≤ l.length ∧
      lex l s = .word p e :: lex l e ∧ gettoken l s = (WORD, p, e, skipWhile l (strchr whitespace) e)) := by
  have hpp : skipWhile l (strchr whitespace) p = p := hp ▸ skipWhile_idem l _ s
  have hlex := lex.eq_def l s
  simp only [hp] at hlex
  have hg : gettoken l s = gettoken l p := by
    rw [← hp]
    simp only [gettoken, skipWhile_idem]
  rw [hg, hlex]
  simp only [gettoken, hpp]
  have hws : p < l.length → strchr whitespace (l.getD p 0) = false := fun h => hp ▸ skipWhile_stop l _ s (hp ▸ h)
  by_cases hc : l.getD p 0 ∈ symbols
  · -- a symbol: one byte, or two for `>>`
    have h0 : l.getD p 0 ≠ 0 := fun h => zero_not_mem_symbols (h ▸ hc)
    have hlt : p < l.length := lt_length_of_getD_ne h0
    rw [dif_pos hc]
    right; left
    by_cases h2 : l.getD p 0 = GT ∧ l.getD (p + 1) 0 = GT
    · have hlt2 : p + 1 < l.length := lt_length_of_getD_ne (by rw [h2.2]; decide)
      refine ⟨PLUS, 2, hc, by rw [if_pos rfl, h2.1], by omega, if_pos h2, ?_⟩
      rw [h2.1, h2.2]
      simp +decide
    · have hplus : l.getD p 0 ≠ PLUS := fun h => by rw [h] at hc; exact absurd hc (by decide)
      refine ⟨l.getD p 0, 1, hc, if_neg hplus, hlt, if_neg h2, ?_⟩
      generalize l.getD p 0 = c at hc h0 h2 hplus ⊢
      by_cases hgt : c = GT
      · subst hgt
        have h3 : l.getD (p + 1) 0 ≠ GT := fun h => h2 ⟨rfl, h⟩
        rw [if_neg h0, if_neg (by decide), if_pos rfl, if_neg h3]
      · have hmem : c ∈ [PIPE, LPAREN, RPAREN, SEMI, AMP, LT] :=
          (mem_symbols.mp hc).resolve_left hgt
        simp [h0, hmem]
  · rw [dif_neg hc]
    by_cases hw : wordByte (l.getD p 0)
    · -- a word: the longest run of word bytes
      have h0 := wordByte_ne_zero hw
      have hlt : p < l.length := lt_length_of_getD_ne h0
      rw [dif_pos hw]
      right; right
      refine ⟨_, hw, rfl, skipWhile_le hlt.le, rfl, ?_⟩
      have hmem : l.getD p 0 ∉ [PIPE, LPAREN, RPAREN, SEMI, AMP, LT] := fun h =>
        hc (mem_symbols.mpr (.inr h))
      have hgt : l.getD p 0 ≠ GT := fun h => hc (h ▸ by decide)
      rw [if_neg h0, if_neg hmem, if_neg hgt]
    · -- neither: the byte is the NUL at the end
      have h0 : l.getD p 0 = 0 := by
        refine getD_eq_zero_of ?_ hc (by simpa using hw)
        by_cases h : p < l.length
        · exact .inl (hws h)
        · exact .inr (Nat.le_of_not_lt h)
      rw [dif_neg hw]
      left
      rw [if_pos h0, hpp]
      exact ⟨h0, rfl, rfl⟩

theorem gettoken_nil (h : lex l s = []) :
    (gettoken l s).1 = 0 ∧ (gettoken l s).2.2.2 = skipWhile l (strchr whitespace) s := by
  rcases next_cases (l := l) (s := s) rfl with ⟨-, -, hg⟩ | ⟨c, n, -, -, -, hl, -⟩ | ⟨e, -, -, -, hl, -⟩
  · rw [hg]
    exact ⟨rfl, rfl⟩
  all_goals
    rw [hl] at h
    cases h

/-- Otherwise `gettoken` takes the first token: its code, and for a word where it starts and
ends, and leaves the line at the next one. -/
theorem gettoken_cons {t : Tok} {ts : List Tok} (h : lex l s = t :: ts) :
    (gettoken l s).1 = t.code ∧ lex l (gettoken l s).2.2.2 = ts ∧ (gettoken l s).2.2.2 ≤ l.length ∧
      ∀ q eq, t = .word q eq → (gettoken l s).2.1 = q ∧ (gettoken l s).2.2.1 = eq := by
  rcases next_cases (l := l) (s := s) rfl with ⟨-, hl, -⟩ | ⟨c, n, -, -, hn, hl, hg⟩ | ⟨e, -, -, he, hl, hg⟩
  · rw [hl] at h
    cases h
  · rw [hl] at h
    obtain ⟨rfl, rfl⟩ := List.cons.inj h
    rw [hg]
    refine ⟨rfl, lex_skip l _, skipWhile_le hn, ?_⟩
    rintro q eq ⟨⟩
  · rw [hl] at h
    obtain ⟨rfl, rfl⟩ := List.cons.inj h
    rw [hg]
    refine ⟨rfl, lex_skip l _, skipWhile_le he, ?_⟩
    rintro q eq ⟨⟩
    exact ⟨rfl, rfl⟩

theorem lex_cons_sym {c : UInt8} {ts : List Tok} (h : lex l s = .sym c :: ts) : c ∈ PLUS :: symbols := by
  rcases next_cases (l := l) (s := s) rfl with ⟨-, hl, -⟩ | ⟨c', n, hc, hc', -, hl, -⟩ | ⟨e, -, -, -, hl, -⟩
  · rw [hl] at h
    cases h
  · rw [hl] at h
    obtain ⟨⟨⟩, rfl⟩ := List.cons.inj h
    by_cases hp : c = PLUS
    · exact hp ▸ List.mem_cons_self
    · rw [if_neg hp] at hc'
      exact List.mem_cons_of_mem _ (hc' ▸ hc)
  · rw [hl] at h
    cases h

theorem peek_lex {toks : List UInt8} (htoks : toks ⊆ symbols) :
    (peek l s toks).2 = peeks toks (lex l s) := by
  have hpk : (peek l s toks).2 = (l.getD (skipWhile l (strchr whitespace) s) 0 != 0 &&
      strchr toks (l.getD (skipWhile l (strchr whitespace) s) 0)) := rfl
  rw [hpk]
  rcases next_cases (l := l) (s := s) rfl with ⟨h0, hl, -⟩ | ⟨c, n, hc, hc', -, hl, -⟩ | ⟨e, hw, -, -, hl, -⟩
  · rw [hl, h0]
    rfl
  · rw [hl, peeks, hc']
    generalize l.getD (skipWhile l (strchr whitespace) s) 0 = b at hc ⊢
    have hb : b ≠ 0 := fun h => zero_not_mem_symbols (h ▸ hc)
    simp [strchr, beq_eq_false_iff_ne.mpr hb, hb]
  · rw [hl]
    change _ = false
    generalize l.getD (skipWhile l (strchr whitespace) s) 0 = b at hw ⊢
    have hb : b ∉ toks := fun h => by
      simp [wordByte, strchr, htoks h] at hw
    simp [strchr, hb]

/-! ## Positions that read as tokens -/

/-- From `s` on the line reads as the tokens `ts`, `s` being inside the line or at its end. -/
def Lexes (l : List UInt8) (s : ℕ) (ts : List Tok) : Prop := s ≤ l.length ∧ lex l s = ts

theorem Lexes.peek {ts : List Tok} (h : Lexes l s ts) (toks : List UInt8) : Lexes l (peek l s toks).1 ts :=
  ⟨skipWhile_le h.1, (lex_skip l s).trans h.2⟩

theorem Lexes.peek_eq {ts : List Tok} (h : Lexes l s ts) (toks : List UInt8) (htoks : toks ⊆ symbols) :
    (Sh.peek l s toks).2 = peeks toks ts := by
  rw [peek_lex htoks, h.2]

theorem Lexes.gettoken_nil (h : Lexes l s []) : (gettoken l s).1 = 0 ∧ Lexes l (gettoken l s).2.2.2 [] := by
  obtain ⟨h0, he⟩ := Sh.gettoken_nil h.2
  rw [he]
  exact ⟨h0, h.peek []⟩

theorem Lexes.gettoken_cons {t : Tok} {ts : List Tok} (h : Lexes l s (t :: ts)) :
    (gettoken l s).1 = t.code ∧ Lexes l (gettoken l s).2.2.2 ts ∧
      ∀ q eq, t = .word q eq → (gettoken l s).2.1 = q ∧ (gettoken l s).2.2.1 = eq := by
  obtain ⟨hc, hl, hle, hw⟩ := Sh.gettoken_cons h.2
  exact ⟨hc, ⟨hle, hl⟩, hw⟩

theorem lex_peek (toks : List UInt8) : lex l (peek l s toks).1 = lex l s := lex_skip l s

theorem lex_of_gettoken_word (h : (gettoken l s).1 = WORD) :
    ∃ q eq ts, lex l s = .word q eq :: ts := by
  rcases hl : lex l s with _ | ⟨c | ⟨q, eq⟩, ts⟩
  · rw [(gettoken_nil hl).1] at h
    exact absurd h (by decide)
  · have hc := lex_cons_sym hl
    have hw : _ = WORD := (gettoken_cons hl).1.symm.trans h
    rw [show c = WORD from hw] at hc
    exact absurd hc (by decide)
  · exact ⟨q, eq, ts, rfl⟩

theorem lex_of_gettoken_zero (h : (gettoken l s).1 = 0) : lex l s = [] := by
  rcases hl : lex l s with _ | ⟨c | ⟨q, eq⟩, ts⟩
  · rfl
  · have hc := lex_cons_sym hl
    have h0 : c = 0 := (gettoken_cons hl).1.symm.trans h
    rw [h0] at hc
    exact absurd hc (by decide)
  · have h0 : WORD = 0 := (gettoken_cons hl).1.symm.trans h
    exact absurd h0 (by decide)

theorem lexes_nil_iff (hl : 0 ∉ l) : Lexes l s [] ↔ (peek l s []).1 = l.length := by
  constructor
  · rintro ⟨hs, hnil⟩
    rcases next_cases (l := l) (s := s) rfl with ⟨h0, -, -⟩ | ⟨c, n, -, -, -, hl', -⟩ | ⟨e, -, -, -, hl', -⟩
    · refine Nat.le_antisymm (skipWhile_le hs) (Nat.le_of_not_lt fun (hlt : skipWhile l _ s < _) => hl ?_)
      rw [← h0, List.getD_eq_getElem _ _ hlt]
      exact List.getElem_mem hlt
    all_goals
      rw [hl'] at hnil
      cases hnil
  · intro hend
    have hs : s ≤ l.length := hend ▸ le_peek l s []
    refine ⟨hs, ?_⟩
    rcases next_cases (l := l) (s := s) rfl with ⟨-, hnil, -⟩ | ⟨c, n, hc, -, -, -, -⟩ | ⟨e, hw, -, -, -, -⟩
    · exact hnil
    · rw [show skipWhile l (strchr whitespace) s = l.length from hend, getD_of_le le_rfl] at hc
      exact absurd hc zero_not_mem_symbols
    · rw [show skipWhile l (strchr whitespace) s = l.length from hend, getD_of_le le_rfl] at hw
      exact absurd hw (by decide)

end Lex

/-! ## The grammar -/

/-- `redir*`: the redirections in order, each with the mode and descriptor of its token. -/
inductive Redirs : List Tok → List Redir → Prop
  | nil : Redirs [] []
  | input {ts rs} (q eq : ℕ) : Redirs ts rs →
      Redirs (.sym LT :: .word q eq :: ts) (⟨q, eq, O_RDONLY, 0⟩ :: rs)
  | output {ts rs} (q eq : ℕ) : Redirs ts rs →
      Redirs (.sym GT :: .word q eq :: ts) (⟨q, eq, O_WRONLY ||| O_CREATE ||| O_TRUNC, 1⟩ :: rs)
  | append {ts rs} (q eq : ℕ) : Redirs ts rs →
      Redirs (.sym PLUS :: .word q eq :: ts) (⟨q, eq, O_WRONLY ||| O_CREATE, 1⟩ :: rs)

/-- `(WORD redir*)*`: the words, and the redirections after them in order. -/
inductive Args : List Tok → List (ℕ × ℕ) → List Redir → Prop
  | nil : Args [] [] []
  | word {ts ts' argv rs rs'} (q eq : ℕ) : Redirs ts rs → Args ts' argv rs' →
      Args (.word q eq :: ts ++ ts') ((q, eq) :: argv) (rs ++ rs')

mutual

/-- `line ::= pipe '&'* [';' line]`: a `backcmd` for each `&`, a `listcmd` for the `;`. -/
inductive Line : List Tok → Cmd → Prop
  | pipe {ts c} (k : ℕ) : Pipe ts c → Line (ts ++ List.replicate k (.sym AMP)) (Cmd.back^[k] c)
  | list {ts ts' c d} (k : ℕ) : Pipe ts c → Line ts' d →
      Line (ts ++ List.replicate k (.sym AMP) ++ .sym SEMI :: ts') (.list (Cmd.back^[k] c) d)

/-- `pipe ::= exec ['|' pipe]`. -/
inductive Pipe : List Tok → Cmd → Prop
  | exec {ts c} : Exec ts c → Pipe ts c
  | pipe {ts ts' c d} : Exec ts c → Pipe ts' d → Pipe (ts ++ .sym PIPE :: ts') (.pipe c d)

/-- `exec ::= '(' line ')' redir* | redir* (WORD redir*)*`, with at most `MAXARGS - 1`
words; the redirections wrap the command, the first innermost. -/
inductive Exec : List Tok → Cmd → Prop
  | block {ts ts' c rs} : Line ts c → Redirs ts' rs →
      Exec (.sym LPAREN :: ts ++ .sym RPAREN :: ts') (c.redirs rs)
  | simple {ts ts' rs argv rs'} : Redirs ts rs → Args ts' argv rs' → argv.length < MAXARGS →
      Exec (ts ++ ts') ((Cmd.exec argv).redirs (rs ++ rs'))

end

theorem peeks_eq_true {toks : List UInt8} {ts : List Tok} (h : peeks toks ts = true) :
    ∃ c rest, ts = .sym c :: rest ∧ (if c = PLUS then GT else c) ∈ toks := by
  rcases ts with _ | ⟨_ | _, rest⟩
  · exact absurd h Bool.false_ne_true
  · exact ⟨_, rest, rfl, by simpa [peeks] using h⟩
  · exact absurd h Bool.false_ne_true

theorem peeks_singleton {x : UInt8} {ts : List Tok} (h : peeks [x] ts = true) (hx : x ≠ GT) :
    ∃ rest, ts = .sym x :: rest := by
  obtain ⟨c, rest, rfl, hc⟩ := peeks_eq_true h
  refine ⟨rest, ?_⟩
  split_ifs at hc
  · exact absurd (List.mem_singleton.mp hc).symm hx
  · rw [List.mem_singleton.mp hc]

/-- After a `peek` for one symbol other than `>` that accepts, the line reads as that symbol
and what follows the token `gettoken` takes. -/
theorem peek_sym {l : List UInt8} {s : ℕ} {x : UInt8} (hx : [x] ⊆ symbols) (hgt : x ≠ GT)
    (hp : (peek l s [x]).2 = true) : lex l s = .sym x :: lex l (gettoken l (peek l s [x]).1).2.2.2 := by
  obtain ⟨rest, hlex⟩ := peeks_singleton ((peek_lex hx).symm.trans hp) hgt
  obtain ⟨-, hrest, -⟩ := gettoken_cons ((lex_peek [x]).trans hlex)
  rw [hlex, hrest]

theorem peeks_false_of_disjoint {toks toks' : List UInt8} {ts : List Tok} (h : peeks toks ts = true)
    (hd : toks.all (· ∉ toks') = true) : peeks toks' ts = false := by
  obtain ⟨c, rest, rfl, hc⟩ := peeks_eq_true h
  exact decide_eq_false (of_decide_eq_true (List.all_eq_true.mp hd _ hc))

theorem peeks_mono {toks toks' : List UInt8} {ts : List Tok} (h : peeks toks ts = true)
    (hs : toks ⊆ toks') : peeks toks' ts = true := by
  obtain ⟨c, rest, rfl, hc⟩ := peeks_eq_true h
  exact decide_eq_true (hs hc)

/-- What may follow an `exec`: the end, or `|`, `)`, `&`, `;`. -/
def ExecEnd (ts : List Tok) : Prop := ts = [] ∨ peeks [PIPE, RPAREN, AMP, SEMI] ts

/-- What may follow a `pipe`: the end, or `)`, `&`, `;`. -/
def PipeEnd (ts : List Tok) : Prop := ts = [] ∨ peeks [RPAREN, AMP, SEMI] ts

/-- What may follow a `line`: the end, or `)`. -/
def LineEnd (ts : List Tok) : Prop := ts = [] ∨ peeks [RPAREN] ts

theorem LineEnd.pipeEnd {ts : List Tok} (h : LineEnd ts) : PipeEnd ts :=
  h.imp_right fun h => peeks_mono h (by decide)

theorem PipeEnd.execEnd {ts : List Tok} (h : PipeEnd ts) : ExecEnd ts :=
  h.imp_right fun h => peeks_mono h (by decide)

theorem ExecEnd.peeks_false {ts : List Tok} (h : ExecEnd ts) {toks : List UInt8}
    (hd : [PIPE, RPAREN, AMP, SEMI].all (· ∉ toks) = true) : peeks toks ts = false := by
  rcases h with rfl | h
  · rfl
  · exact peeks_false_of_disjoint h hd

theorem PipeEnd.peeks_false {ts : List Tok} (h : PipeEnd ts) {toks : List UInt8}
    (hd : [RPAREN, AMP, SEMI].all (· ∉ toks) = true) : peeks toks ts = false := by
  rcases h with rfl | h
  · rfl
  · exact peeks_false_of_disjoint h hd

theorem LineEnd.peeks_false {ts : List Tok} (h : LineEnd ts) {toks : List UInt8}
    (hd : RPAREN ∉ toks) : peeks toks ts = false := by
  rcases h with rfl | h
  · rfl
  · exact peeks_false_of_disjoint h (by simpa using hd)

theorem PipeEnd.replicate_amp {ts : List Tok} (h : PipeEnd ts) (k : ℕ) :
    PipeEnd (List.replicate k (.sym AMP) ++ ts) := by
  cases k with
  | zero => exact h
  | succ k => exact .inr rfl

/-! ## Redirections -/

section Redirs

variable {l : List UInt8}

theorem Redirs.cons_redirOf {c : UInt8} {q eq : ℕ} {ts : List Tok} {rs : List Redir}
    (hc : (if c = PLUS then GT else c) ∈ [LT, GT]) (h : Redirs ts rs) :
    Redirs (.sym c :: .word q eq :: ts) ((redirOf c q eq).toList ++ rs) := by
  by_cases hp : c = PLUS
  · subst hp
    exact .append q eq h
  · rw [if_neg hp] at hc
    rcases List.mem_pair.mp hc with rfl | rfl
    · exact .input q eq h
    · exact .output q eq h

@[simp] theorem redirOf_LT (q eq : ℕ) : redirOf LT q eq = some ⟨q, eq, O_RDONLY, 0⟩ := rfl

@[simp] theorem redirOf_GT (q eq : ℕ) : redirOf GT q eq = some ⟨q, eq, O_WRONLY ||| O_CREATE ||| O_TRUNC, 1⟩ :=
  rfl

@[simp] theorem redirOf_PLUS (q eq : ℕ) : redirOf PLUS q eq = some ⟨q, eq, O_WRONLY ||| O_CREATE, 1⟩ := rfl

theorem parseredirs_sound {s : ℕ} {rs : List Redir} {s' : {s' // s ≤ s'}} (h : parseredirs l s = .ok (rs, s')) :
    ∃ ts, lex l s = ts ++ lex l s'.1 ∧ Redirs ts rs := by
  rw [parseredirs] at h
  split_ifs at h with hp
  · -- a redirection token, then its file
    obtain ⟨c, ts, hlex, hc⟩ := peeks_eq_true ((peek_lex (by decide)).symm.trans hp)
    obtain ⟨hc₁, hlex₁, -, -⟩ := gettoken_cons ((lex_peek _).trans hlex)
    simp only at h
    split_ifs at h with hf
    obtain ⟨q, eq, ts', hlex₂⟩ := lex_of_gettoken_word (not_not.mp hf)
    rw [hlex₁] at hlex₂
    subst hlex₂
    obtain ⟨-, hlex₃, -, hw⟩ := gettoken_cons (hlex₁.trans rfl)
    obtain ⟨hq, heq⟩ := hw q eq rfl
    obtain ⟨⟨rs₁, s₁, hs₁⟩, hrec, hret⟩ := Except.bind_eq_ok.mp h
    obtain ⟨ts'', hlex₄, hrs⟩ := parseredirs_sound hrec
    simp only [Except.pure_eq_ok, Except.ok.injEq, Prod.mk.injEq] at hret
    obtain ⟨rfl, rfl⟩ := hret
    refine ⟨.sym c :: .word q eq :: ts'', ?_, ?_⟩
    · rw [hlex, ← hlex₃, hlex₄]
      rfl
    · rw [hc₁, hq, heq]
      exact hrs.cons_redirOf hc
  · -- no redirection
    cases h
    exact ⟨[], (lex_peek [LT, GT]).symm, .nil⟩
termination_by l.length - s
decreasing_by
  have := le_gettoken l (gettoken l (peek l s [LT, GT]).1).2.2.2
  have := sub_gettoken_lt hp
  omega

theorem parseredirs_complete_cons {s : ℕ} {c : UInt8} {q eq : ℕ} {ts rest : List Tok} {rs : List Redir}
    (hc : (if c = PLUS then GT else c) ∈ [LT, GT]) (h : Lexes l s (.sym c :: .word q eq :: ts ++ rest))
    (ih : ∀ {e}, Lexes l e (ts ++ rest) → ∃ s', parseredirs l e = .ok (rs, s') ∧ Lexes l s'.1 rest) :
    ∃ s', parseredirs l s = .ok ((redirOf c q eq).toList ++ rs, s') ∧ Lexes l s'.1 rest := by
  have hp : (peek l s [LT, GT]).2 = true := by
    rw [h.peek_eq [LT, GT] (by decide)]
    exact decide_eq_true hc
  obtain ⟨hc₁, h₁, -⟩ := (h.peek [LT, GT]).gettoken_cons
  obtain ⟨hc₂, h₂, hw⟩ := h₁.gettoken_cons
  have hc₂ : _ = WORD := hc₂
  obtain ⟨hq, heq⟩ := hw q eq rfl
  obtain ⟨⟨s', hs'⟩, hrec, h'⟩ := ih h₂
  have hle : s ≤ s' :=
    (le_peek l s _).trans ((le_gettoken l _).trans ((le_gettoken l _).trans hs'))
  refine ⟨⟨s', hle⟩, ?_, h'⟩
  rw [parseredirs, dif_pos hp]
  simp only
  rw [if_neg (not_not.mpr hc₂), hrec, Except.ok_bind, hc₁, hq, heq]
  rfl

theorem parseredirs_complete {ts rest : List Tok} {rs : List Redir} (hr : Redirs ts rs) {s : ℕ}
    (h : Lexes l s (ts ++ rest)) (hrest : peeks [LT, GT] rest = false) :
    ∃ s', parseredirs l s = .ok (rs, s') ∧ Lexes l s'.1 rest := by
  induction hr generalizing s with
  | nil =>
    have hp : (peek l s [LT, GT]).2 = false := by
      rw [h.peek_eq [LT, GT] (by decide)]
      exact hrest
    refine ⟨⟨(peek l s [LT, GT]).1, le_peek l s _⟩, ?_, h.peek [LT, GT]⟩
    rw [parseredirs, dif_neg (by simp [hp])]
    rfl
  | input q eq _ ih =>
    simpa using parseredirs_complete_cons (c := LT) (by decide) h ih
  | output q eq _ ih =>
    simpa using parseredirs_complete_cons (c := GT) (by decide) h ih
  | append q eq _ ih =>
    simpa using parseredirs_complete_cons (c := PLUS) (by decide) h ih

end Redirs

/-! ## The loops of `parseline` and `parseexec` -/

section Loops

variable {l : List UInt8}

theorem parseBacks_sound {s : ℕ} (c : Cmd) :
    ∃ k, lex l s = List.replicate k (.sym AMP) ++ lex l (parseBacks l c s).2.1 ∧
      (parseBacks l c s).1 = Cmd.back^[k] c := by
  rw [parseBacks]
  split_ifs with hp
  · -- an `&`: one more `backcmd`
    have hlex := peek_sym (by decide) (by decide) hp
    obtain ⟨k, hk, hc⟩ := parseBacks_sound (s := (gettoken l (peek l s [AMP]).1).2.2.2) (.back c)
    rcases hr : parseBacks l c.back (gettoken l (peek l s [AMP]).1).2.2.2 with ⟨c', s', hs'⟩
    rw [hr] at hk hc
    refine ⟨k + 1, ?_, hc⟩
    rw [hlex, hk]
    rfl
  · exact ⟨0, (lex_peek [AMP]).symm, rfl⟩
termination_by l.length - s
decreasing_by exact sub_gettoken_lt hp

theorem parseBacks_complete {rest : List Tok} (hrest : peeks [AMP] rest = false) (k : ℕ) :
    ∀ {s : ℕ} (c : Cmd), Lexes l s (List.replicate k (.sym AMP) ++ rest) →
      (parseBacks l c s).1 = Cmd.back^[k] c ∧ Lexes l (parseBacks l c s).2.1 rest := by
  induction k with
  | zero =>
    intro s c h
    have hp : (peek l s [AMP]).2 = false := by
      rw [h.peek_eq [AMP] (by decide)]
      exact hrest
    rw [parseBacks, dif_neg (by simp [hp])]
    exact ⟨rfl, h.peek [AMP]⟩
  | succ k ih =>
    intro s c h
    rw [List.replicate_succ, List.cons_append] at h
    have hp : (peek l s [AMP]).2 = true := by
      rw [h.peek_eq [AMP] (by decide)]
      rfl
    obtain ⟨-, h₁, -⟩ := (h.peek [AMP]).gettoken_cons
    obtain ⟨ih₁, ih₂⟩ := ih (.back c) h₁
    rw [parseBacks, dif_pos hp]
    rcases hr : parseBacks l c.back (gettoken l (peek l s [AMP]).1).2.2.2 with ⟨c', s', hs'⟩
    rw [hr] at ih₁ ih₂
    exact ⟨ih₁, ih₂⟩

theorem parseargs_sound {s : ℕ} {argv argv' : List (ℕ × ℕ)} {rs : List Redir} {s' : {s' // s ≤ s'}}
    (h : parseargs l argv s = .ok (argv', rs, s')) (hargv : argv.length < MAXARGS) :
    ∃ ts args, lex l s = ts ++ lex l s'.1 ∧ Args ts args rs ∧ argv' = argv ++ args ∧
      argv'.length < MAXARGS := by
  rw [parseargs] at h
  simp only at h
  split_ifs at h with hp ht hw hmax
  · -- `|`, `)`, `&` or `;` ends the command
    simp only [Except.pure_eq_ok, Except.ok.injEq, Prod.mk.injEq] at h
    obtain ⟨rfl, rfl, rfl⟩ := h
    exact ⟨[], [], (lex_peek [PIPE, RPAREN, AMP, SEMI]).symm, .nil, (List.append_nil _).symm, hargv⟩
  · -- the end of the line
    simp only [Except.pure_eq_ok, Except.ok.injEq, Prod.mk.injEq] at h
    obtain ⟨rfl, rfl, rfl⟩ := h
    have hnil := lex_of_gettoken_zero ht
    have hend : lex l (gettoken l (peek l s [PIPE, RPAREN, AMP, SEMI]).1).2.2.2 = [] := by
      rw [(gettoken_nil hnil).2, lex_skip, hnil]
    refine ⟨[], [], ?_, .nil, (List.append_nil _).symm, hargv⟩
    rw [← lex_peek [PIPE, RPAREN, AMP, SEMI], hnil]
    exact hend.symm
  · -- a word, its redirections, and the words after them
    obtain ⟨q, eq, ts₀, hlex⟩ := lex_of_gettoken_word (not_not.mp hw)
    obtain ⟨-, hlex₁, -, hqe⟩ := gettoken_cons hlex
    obtain ⟨hq, heq⟩ := hqe q eq rfl
    rw [hq, heq] at h hmax
    obtain ⟨⟨rs₁, s₁, hs₁⟩, hr, h⟩ := Except.bind_eq_ok.mp h
    obtain ⟨⟨argv₁, rs₂, s₂, hs₂⟩, ha, h⟩ := Except.bind_eq_ok.mp h
    simp only [Except.pure_eq_ok, Except.ok.injEq, Prod.mk.injEq] at h
    obtain ⟨rfl, rfl, rfl⟩ := h
    obtain ⟨tsr, hlexr, hrs⟩ := parseredirs_sound hr
    obtain ⟨ts, args, hlexa, hargs, rfl, hlen⟩ := parseargs_sound ha (Nat.lt_of_not_le hmax)
    refine ⟨.word q eq :: tsr ++ ts, (q, eq) :: args, ?_, .word q eq hrs hargs, by simp, hlen⟩
    rw [← lex_peek [PIPE, RPAREN, AMP, SEMI], hlex, ← hlex₁, hlexr, hlexa]
    simp
termination_by l.length - s
decreasing_by
  have := lt_gettoken_of_ne ht
  have := le_peek l s [PIPE, RPAREN, AMP, SEMI]
  omega

theorem Args.peeks_redir {ts rest : List Tok} {args : List (ℕ × ℕ)} {rs : List Redir}
    (ha : Args ts args rs) (hrest : ExecEnd rest) : peeks [LT, GT] (ts ++ rest) = false := by
  cases ha with
  | nil =>
    rcases hrest with rfl | hrest
    · rfl
    · exact peeks_false_of_disjoint hrest (by decide)
  | word => rfl

theorem parseargs_complete {ts rest : List Tok} {args : List (ℕ × ℕ)} {rs : List Redir}
    (ha : Args ts args rs) (hrest : ExecEnd rest) {s : ℕ} (argv : List (ℕ × ℕ))
    (h : Lexes l s (ts ++ rest)) (hlen : (argv ++ args).length < MAXARGS) :
    ∃ s', parseargs l argv s = .ok (argv ++ args, rs, s') ∧ Lexes l s'.1 rest := by
  induction ha generalizing s argv with
  | nil =>
    rw [List.nil_append] at h
    rcases hrest with rfl | hrest
    · -- the end of the line
      have hp : (peek l s [PIPE, RPAREN, AMP, SEMI]).2 = false := by
        rw [h.peek_eq [PIPE, RPAREN, AMP, SEMI] (by decide)]
        rfl
      obtain ⟨ht, h'⟩ := (h.peek [PIPE, RPAREN, AMP, SEMI]).gettoken_nil
      refine ⟨⟨_, (le_peek l s _).trans (le_gettoken l _)⟩, ?_, h'⟩
      rw [parseargs, if_neg (by simp [hp])]
      simp only
      rw [dif_pos ht]
      simp
    · -- `|`, `)`, `&` or `;`
      have hp : (peek l s [PIPE, RPAREN, AMP, SEMI]).2 = true := by
        rw [h.peek_eq [PIPE, RPAREN, AMP, SEMI] (by decide)]
        exact hrest
      refine ⟨⟨_, le_peek l s [PIPE, RPAREN, AMP, SEMI]⟩, ?_, h.peek [PIPE, RPAREN, AMP, SEMI]⟩
      rw [parseargs, if_pos hp]
      simp
  | word q eq hr ha ih =>
    simp only [List.cons_append, List.append_assoc] at h
    have hp : (peek l s [PIPE, RPAREN, AMP, SEMI]).2 = false := by
      rw [h.peek_eq [PIPE, RPAREN, AMP, SEMI] (by decide)]
      rfl
    obtain ⟨hc, h₁, hw⟩ := (h.peek [PIPE, RPAREN, AMP, SEMI]).gettoken_cons
    have hc : _ = WORD := hc
    obtain ⟨hq, heq⟩ := hw q eq rfl
    obtain ⟨⟨s₁, hs₁⟩, hr', h₂⟩ := parseredirs_complete hr h₁ (ha.peeks_redir hrest)
    obtain ⟨⟨s₂, hs₂⟩, ha', h₃⟩ := ih (argv ++ [(q, eq)]) h₂ (by simpa using hlen)
    refine ⟨⟨s₂, (le_peek l s _).trans ((le_gettoken l _).trans (hs₁.trans hs₂))⟩, ?_, h₃⟩
    rw [parseargs, if_neg (by simp [hp])]
    simp only
    rw [dif_neg (by rw [hc]; decide), if_neg (not_not.mpr hc), hq, heq,
      if_neg (by simp at hlen ⊢; omega), hr', Except.ok_bind]
    simp [ha']

end Loops

/-! ## Soundness -/

section Sound

variable {l : List UInt8}

mutual

theorem parseline_sound {s : ℕ} {c : Cmd} {s' : {s' // s ≤ s'}} (h : parseline l s = .ok (c, s')) :
    ∃ ts, lex l s = ts ++ lex l s'.1 ∧ Line ts c := by
  rw [parseline] at h
  obtain ⟨⟨c₁, s₁, hs₁⟩, hp₁, h⟩ := Except.bind_eq_ok.mp h
  obtain ⟨ts₁, hlex₁, hpipe⟩ := parsepipe_sound hp₁
  obtain ⟨k, hlex₂, hc₂⟩ := parseBacks_sound (l := l) (s := s₁) c₁
  rcases hb : parseBacks l c₁ s₁ with ⟨c₂, s₂, hs₂⟩
  simp only at h
  rw [hb] at h hlex₂ hc₂
  simp only at h hlex₂ hc₂
  subst hc₂
  split_ifs at h with hp
  · -- `;` and the rest of the line
    have hlex₃ := peek_sym (by decide) (by decide) hp
    obtain ⟨⟨d, s₃, hs₃⟩, hl, h⟩ := Except.bind_eq_ok.mp h
    obtain ⟨ts₂, hlex₅, hline⟩ := parseline_sound hl
    simp only [Except.pure_eq_ok, Except.ok.injEq, Prod.mk.injEq] at h
    obtain ⟨rfl, rfl⟩ := h
    refine ⟨ts₁ ++ List.replicate k (.sym AMP) ++ .sym SEMI :: ts₂, ?_, .list k hpipe hline⟩
    rw [hlex₁, hlex₂, hlex₃, hlex₅]
    simp
  · simp only [Except.pure_eq_ok, Except.ok.injEq, Prod.mk.injEq] at h
    obtain ⟨rfl, rfl⟩ := h
    refine ⟨ts₁ ++ List.replicate k (.sym AMP), ?_, .pipe k hpipe⟩
    rw [hlex₁, hlex₂, lex_peek, List.append_assoc]
termination_by (l.length - s, 3)
decreasing_by
  · exact Prod.Lex.right _ (by decide)
  · have := sub_gettoken_lt hp
    have := peek_lt hp
    exact Prod.Lex.left _ _ (by omega)

theorem parsepipe_sound {s : ℕ} {c : Cmd} {s' : {s' // s ≤ s'}} (h : parsepipe l s = .ok (c, s')) :
    ∃ ts, lex l s = ts ++ lex l s'.1 ∧ Pipe ts c := by
  rw [parsepipe] at h
  obtain ⟨⟨c₁, s₁, hs₁⟩, he, h⟩ := Except.bind_eq_ok.mp h
  obtain ⟨ts₁, hlex₁, hexec⟩ := parseexec_sound he
  simp only at h
  split_ifs at h with hp
  · -- `|` and the rest of the pipeline
    have hlex₂ := peek_sym (by decide) (by decide) hp
    obtain ⟨⟨d, s₂, hs₂⟩, hpp, h⟩ := Except.bind_eq_ok.mp h
    obtain ⟨ts₂, hlex₄, hpipe⟩ := parsepipe_sound hpp
    simp only [Except.pure_eq_ok, Except.ok.injEq, Prod.mk.injEq] at h
    obtain ⟨rfl, rfl⟩ := h
    refine ⟨ts₁ ++ .sym PIPE :: ts₂, ?_, .pipe hexec hpipe⟩
    rw [hlex₁, hlex₂, hlex₄]
    simp
  · simp only [Except.pure_eq_ok, Except.ok.injEq, Prod.mk.injEq] at h
    obtain ⟨rfl, rfl⟩ := h
    exact ⟨ts₁, by rw [hlex₁, lex_peek], .exec hexec⟩
termination_by (l.length - s, 2)
decreasing_by
  · exact Prod.Lex.right _ (by decide)
  · have := sub_gettoken_lt hp
    have := peek_lt hp
    exact Prod.Lex.left _ _ (by omega)

theorem parseexec_sound {s : ℕ} {c : Cmd} {s' : {s' // s ≤ s'}} (h : parseexec l s = .ok (c, s')) :
    ∃ ts, lex l s = ts ++ lex l s'.1 ∧ Exec ts c := by
  rw [parseexec] at h
  split_ifs at h with hp
  · -- `(`: a block
    obtain ⟨⟨c₁, s₁, hs₁⟩, hb, h⟩ := Except.bind_eq_ok.mp h
    obtain ⟨ts, hlex, hexec⟩ := parseblock_sound hb
    simp only [Except.pure_eq_ok, Except.ok.injEq, Prod.mk.injEq] at h
    obtain ⟨rfl, rfl⟩ := h
    exact ⟨ts, by rw [← lex_peek [LPAREN], hlex], hexec⟩
  · -- redirections, then words and their redirections
    obtain ⟨⟨rs, s₁, hs₁⟩, hr, h⟩ := Except.bind_eq_ok.mp h
    obtain ⟨⟨argv, rs', s₂, hs₂⟩, ha, h⟩ := Except.bind_eq_ok.mp h
    simp only [Except.pure_eq_ok, Except.ok.injEq, Prod.mk.injEq] at h
    obtain ⟨rfl, rfl⟩ := h
    obtain ⟨ts₁, hlex₁, hrs⟩ := parseredirs_sound hr
    obtain ⟨ts₂, args, hlex₂, hargs, rfl, hlen⟩ := parseargs_sound ha (by decide)
    refine ⟨ts₁ ++ ts₂, ?_, .simple hrs hargs hlen⟩
    rw [← lex_peek [LPAREN], hlex₁, hlex₂, List.append_assoc]
termination_by (l.length - s, 1)
decreasing_by
  have := le_peek l s [LPAREN]
  rcases Nat.lt_or_ge (l.length - (peek l s [LPAREN]).1) (l.length - s) with h | h
  · exact Prod.Lex.left _ _ h
  · have : l.length - (peek l s [LPAREN]).1 = l.length - s := by omega
    rw [this]
    exact Prod.Lex.right _ (by decide)

theorem parseblock_sound {s : ℕ} {c : Cmd} {s' : {s' // s ≤ s'}} (h : parseblock l s = .ok (c, s')) :
    ∃ ts, lex l s = ts ++ lex l s'.1 ∧ Exec ts c := by
  rw [parseblock] at h
  split_ifs at h with hp
  have hlex₀ := peek_sym (by decide) (by decide) hp
  obtain ⟨⟨c₁, s₁, hs₁⟩, hl, h⟩ := Except.bind_eq_ok.mp h
  obtain ⟨ts₁, hlex₂, hline⟩ := parseline_sound hl
  simp only at h
  split_ifs at h with hp'
  have hlex₃ := peek_sym (by decide) (by decide) hp'
  obtain ⟨⟨rs, s₂, hs₂⟩, hr, h⟩ := Except.bind_eq_ok.mp h
  obtain ⟨ts₂, hlex₅, hrs⟩ := parseredirs_sound hr
  simp only [Except.pure_eq_ok, Except.ok.injEq, Prod.mk.injEq] at h
  obtain ⟨rfl, rfl⟩ := h
  refine ⟨.sym LPAREN :: ts₁ ++ .sym RPAREN :: ts₂, ?_, .block hline hrs⟩
  rw [hlex₀, hlex₂, hlex₃, hlex₅]
  simp
termination_by (l.length - s, 0)
decreasing_by
  exact Prod.Lex.left _ _ (sub_gettoken_lt hp)

end

end Sound

/-! ## Completeness -/

section Complete

variable {l : List UInt8}

theorem Redirs.peeks_lparen {ts ts' rest : List Tok} {rs rs' : List Redir} {argv : List (ℕ × ℕ)}
    (hr : Redirs ts rs) (ha : Args ts' argv rs') (hrest : ExecEnd rest) :
    peeks [LPAREN] (ts ++ (ts' ++ rest)) = false := by
  cases hr with
  | nil =>
    cases ha with
    | nil => exact hrest.peeks_false (by decide)
    | word => rfl
  | input | output | append => rfl

theorem parseexec_complete_simple {ts ts' rest : List Tok} {rs rs' : List Redir} {argv : List (ℕ × ℕ)}
    (hr : Redirs ts rs) (ha : Args ts' argv rs') (hlen : argv.length < MAXARGS) (hrest : ExecEnd rest)
    {s : ℕ} (h : Lexes l s (ts ++ (ts' ++ rest))) :
    ∃ s', parseexec l s = .ok ((Cmd.exec argv).redirs (rs ++ rs'), s') ∧ Lexes l s'.1 rest := by
  have hp : (peek l s [LPAREN]).2 = false := by
    rw [h.peek_eq [LPAREN] (by decide)]
    exact hr.peeks_lparen ha hrest
  obtain ⟨⟨s₁, hs₁⟩, hr', h₁⟩ := parseredirs_complete hr (h.peek [LPAREN]) (ha.peeks_redir hrest)
  obtain ⟨⟨s₂, hs₂⟩, ha', h₂⟩ := parseargs_complete ha hrest [] h₁ (by simpa using hlen)
  refine ⟨⟨s₂, (le_peek l s _).trans (hs₁.trans hs₂)⟩, ?_, h₂⟩
  rw [parseexec, if_neg (by simp [hp]), hr', Except.ok_bind]
  simp only
  rw [ha', Except.ok_bind, List.nil_append]
  rfl

theorem parseblock_complete {ts ts' rest : List Tok} {c : Cmd} {rs : List Redir}
    (hline : ∀ {e : ℕ}, Lexes l e (ts ++ .sym RPAREN :: (ts' ++ rest)) →
      ∃ s', parseline l e = .ok (c, s') ∧ Lexes l s'.1 (.sym RPAREN :: (ts' ++ rest)))
    (hr : Redirs ts' rs) (hrest : ExecEnd rest) {s : ℕ}
    (h : Lexes l s (.sym LPAREN :: (ts ++ .sym RPAREN :: (ts' ++ rest)))) :
    ∃ s', parseblock l s = .ok (c.redirs rs, s') ∧ Lexes l s'.1 rest := by
  have hp : (peek l s [LPAREN]).2 = true := by
    rw [h.peek_eq [LPAREN] (by decide)]
    rfl
  obtain ⟨-, h₁, -⟩ := (h.peek [LPAREN]).gettoken_cons
  obtain ⟨⟨s₁, hs₁⟩, hl, h₂⟩ := hline h₁
  have hp' : (peek l s₁ [RPAREN]).2 = true := by
    rw [h₂.peek_eq [RPAREN] (by decide)]
    rfl
  obtain ⟨-, h₃, -⟩ := (h₂.peek [RPAREN]).gettoken_cons
  obtain ⟨⟨s₂, hs₂⟩, hr', h₄⟩ := parseredirs_complete hr h₃ (hrest.peeks_false (by decide))
  have hle : s ≤ s₂ := (le_peek l s _).trans ((le_gettoken l _).trans (hs₁.trans
    ((le_peek l s₁ _).trans ((le_gettoken l _).trans hs₂))))
  refine ⟨⟨s₂, hle⟩, ?_, h₄⟩
  rw [parseblock, dif_pos hp]
  simp only
  rw [hl, Except.ok_bind]
  simp only
  rw [if_pos hp', hr', Except.ok_bind]
  rfl

mutual

theorem parseline_complete {ts : List Tok} {c : Cmd} (hd : Line ts c) {rest : List Tok}
    (hrest : LineEnd rest) {s : ℕ} (h : Lexes l s (ts ++ rest)) :
    ∃ s', parseline l s = .ok (c, s') ∧ Lexes l s'.1 rest := by
  match hd with
  | .pipe (c := c) k hp =>
    rw [List.append_assoc] at h
    obtain ⟨⟨s₁, hs₁⟩, hp', h₁⟩ := parsepipe_complete hp (hrest.pipeEnd.replicate_amp k) h
    obtain ⟨hb, h₂⟩ := parseBacks_complete (hrest.peeks_false (by decide)) k c h₁
    rcases hB : parseBacks l c s₁ with ⟨c₂, s₂, hs₂⟩
    rw [hB] at hb h₂
    have hsemi : (peek l s₂ [SEMI]).2 = false := by
      rw [h₂.peek_eq [SEMI] (by decide)]
      exact hrest.peeks_false (by decide)
    refine ⟨⟨_, hs₁.trans (hs₂.trans (le_peek l s₂ [SEMI]))⟩, ?_, h₂.peek [SEMI]⟩
    rw [parseline, hp', Except.ok_bind]
    simp only
    rw [hB]
    rw [dif_neg (by simp [hsemi]), ← hb]
    rfl
  | .list (c := c) k hp hl =>
    simp only [List.append_assoc, List.cons_append] at h
    obtain ⟨⟨s₁, hs₁⟩, hp', h₁⟩ := parsepipe_complete hp (PipeEnd.replicate_amp (.inr rfl) k) h
    obtain ⟨hb, h₂⟩ := parseBacks_complete (by rfl) k c h₁
    rcases hB : parseBacks l c s₁ with ⟨c₂, s₂, hs₂⟩
    rw [hB] at hb h₂
    have hsemi : (peek l s₂ [SEMI]).2 = true := by
      rw [h₂.peek_eq [SEMI] (by decide)]
      rfl
    obtain ⟨-, h₃, -⟩ := (h₂.peek [SEMI]).gettoken_cons
    obtain ⟨⟨s₃, hs₃⟩, hl', h₄⟩ := parseline_complete hl hrest h₃
    have hle : s ≤ s₃ := hs₁.trans (hs₂.trans ((le_peek l s₂ _).trans ((le_gettoken l _).trans hs₃)))
    refine ⟨⟨s₃, hle⟩, ?_, h₄⟩
    rw [parseline, hp', Except.ok_bind]
    simp only
    rw [hB]
    rw [dif_pos hsemi, hl', Except.ok_bind, ← hb]
    rfl

theorem parsepipe_complete {ts : List Tok} {c : Cmd} (hd : Pipe ts c) {rest : List Tok}
    (hrest : PipeEnd rest) {s : ℕ} (h : Lexes l s (ts ++ rest)) :
    ∃ s', parsepipe l s = .ok (c, s') ∧ Lexes l s'.1 rest := by
  match hd with
  | .exec he =>
    obtain ⟨⟨s₁, hs₁⟩, he', h₁⟩ := parseexec_complete he hrest.execEnd h
    have hp : (peek l s₁ [PIPE]).2 = false := by
      rw [h₁.peek_eq [PIPE] (by decide)]
      exact hrest.peeks_false (by decide)
    refine ⟨⟨_, hs₁.trans (le_peek l s₁ [PIPE])⟩, ?_, h₁.peek [PIPE]⟩
    rw [parsepipe, he', Except.ok_bind]
    simp only
    rw [dif_neg (by simp [hp])]
    rfl
  | .pipe he hp =>
    rw [List.append_assoc, List.cons_append] at h
    obtain ⟨⟨s₁, hs₁⟩, he', h₁⟩ := parseexec_complete he (.inr rfl) h
    have hp' : (peek l s₁ [PIPE]).2 = true := by
      rw [h₁.peek_eq [PIPE] (by decide)]
      rfl
    obtain ⟨-, h₂, -⟩ := (h₁.peek [PIPE]).gettoken_cons
    obtain ⟨⟨s₂, hs₂⟩, hpp, h₃⟩ := parsepipe_complete hp hrest h₂
    have hle : s ≤ s₂ := hs₁.trans ((le_peek l s₁ _).trans ((le_gettoken l _).trans hs₂))
    refine ⟨⟨s₂, hle⟩, ?_, h₃⟩
    rw [parsepipe, he', Except.ok_bind]
    simp only
    rw [dif_pos hp', hpp, Except.ok_bind]
    rfl

theorem parseexec_complete {ts : List Tok} {c : Cmd} (hd : Exec ts c) {rest : List Tok}
    (hrest : ExecEnd rest) {s : ℕ} (h : Lexes l s (ts ++ rest)) :
    ∃ s', parseexec l s = .ok (c, s') ∧ Lexes l s'.1 rest := by
  match hd with
  | .block hl hr =>
    simp only [List.cons_append, List.append_assoc] at h
    have hp : (peek l s [LPAREN]).2 = true := by
      rw [h.peek_eq [LPAREN] (by decide)]
      rfl
    obtain ⟨⟨s₁, hs₁⟩, hb, h₁⟩ :=
      parseblock_complete (fun he => parseline_complete hl (.inr rfl) he) hr hrest (h.peek [LPAREN])
    refine ⟨⟨s₁, (le_peek l s _).trans hs₁⟩, ?_, h₁⟩
    rw [parseexec, if_pos hp, hb, Except.ok_bind]
    rfl
  | .simple hr ha hlen =>
    rw [List.append_assoc] at h
    exact parseexec_complete_simple hr ha hlen hrest h

end

end Complete

/-! ## Words and `nulterminate` -/

/-- The words of a tree as `(q, eq)`: the arguments, and each redirection's file. -/
def Cmd.words : Cmd → List (ℕ × ℕ)
  | .exec argv => argv
  | .redir c r => c.words ++ [(r.file, r.efile)]
  | .pipe c d => c.words ++ d.words
  | .list c d => c.words ++ d.words
  | .back c => c.words

/-- The NUL-terminated string at `q` of a buffer. -/
def cstr (b : List UInt8) (q : ℕ) : List UInt8 := (b.drop q).takeWhile (· != 0)

section Words

variable {l : List UInt8}

theorem Cmd.words_redirs (c : Cmd) (rs : List Redir) :
    (c.redirs rs).words = c.words ++ rs.map fun r => (r.file, r.efile) := by
  induction rs generalizing c with
  | nil => simp [Cmd.redirs]
  | cons r rs ih =>
    have h : (c.redirs (r :: rs)) = (Cmd.redir c r).redirs rs := rfl
    rw [h, ih]
    simp [Cmd.words]

theorem Cmd.words_back_iterate (k : ℕ) (c : Cmd) : (Cmd.back^[k] c).words = c.words := by
  induction k generalizing c with
  | zero => rfl
  | succ k ih =>
    rw [Function.iterate_succ_apply, ih]
    rfl

theorem Redirs.words_mem {ts : List Tok} {rs : List Redir} (hr : Redirs ts rs) :
    ∀ r ∈ rs, Tok.word r.file r.efile ∈ ts := by
  induction hr with
  | nil => simp
  | input q eq _ ih | output q eq _ ih | append q eq _ ih =>
    intro r hr
    rcases List.mem_cons.mp hr with rfl | hr
    · simp
    · exact List.mem_cons_of_mem _ (List.mem_cons_of_mem _ (ih r hr))

theorem Args.words_mem {ts : List Tok} {argv : List (ℕ × ℕ)} {rs : List Redir} (ha : Args ts argv rs) :
    (∀ w ∈ argv, Tok.word w.1 w.2 ∈ ts) ∧ ∀ r ∈ rs, Tok.word r.file r.efile ∈ ts := by
  induction ha with
  | nil => simp
  | word q eq hr _ ih =>
    refine ⟨fun w hw => ?_, fun r hr' => ?_⟩
    · rcases List.mem_cons.mp hw with rfl | hw
      · simp
      · simp [ih.1 w hw]
    · rcases List.mem_append.mp hr' with hr' | hr'
      · simp [hr.words_mem r hr']
      · simp [ih.2 r hr']

mutual

theorem Line.words_mem {ts : List Tok} {c : Cmd} (hd : Line ts c) : ∀ w ∈ c.words, Tok.word w.1 w.2 ∈ ts := by
  match hd with
  | .pipe k hp =>
    intro w hw
    rw [Cmd.words_back_iterate] at hw
    exact List.mem_append_left _ (hp.words_mem w hw)
  | .list k hp hl =>
    intro w hw
    rw [Cmd.words, List.mem_append, Cmd.words_back_iterate] at hw
    rcases hw with hw | hw
    · simp [hp.words_mem w hw]
    · simp [hl.words_mem w hw]

theorem Pipe.words_mem {ts : List Tok} {c : Cmd} (hd : Pipe ts c) : ∀ w ∈ c.words, Tok.word w.1 w.2 ∈ ts := by
  match hd with
  | .exec he => exact he.words_mem
  | .pipe he hp =>
    intro w hw
    rw [Cmd.words, List.mem_append] at hw
    rcases hw with hw | hw
    · simp [he.words_mem w hw]
    · simp [hp.words_mem w hw]

theorem Exec.words_mem {ts : List Tok} {c : Cmd} (hd : Exec ts c) : ∀ w ∈ c.words, Tok.word w.1 w.2 ∈ ts := by
  match hd with
  | .block hl hr =>
    intro w hw
    rw [Cmd.words_redirs, List.mem_append] at hw
    rcases hw with hw | hw
    · simp [hl.words_mem w hw]
    · obtain ⟨r, hr', rfl⟩ := List.mem_map.mp hw
      simp [hr.words_mem r hr']
  | .simple hr ha _ =>
    intro w hw
    rw [Cmd.words_redirs, List.mem_append, List.map_append, List.mem_append] at hw
    rcases hw with hw | hw | hw
    · simp [ha.words_mem.1 w hw]
    · obtain ⟨r, hr', rfl⟩ := List.mem_map.mp hw
      simp [hr.words_mem r hr']
    · obtain ⟨r, hr', rfl⟩ := List.mem_map.mp hw
      simp [ha.words_mem.2 r hr']

end

theorem skipWhile_all {q : UInt8 → Bool} {s i : ℕ} (h₁ : s ≤ i) (h₂ : i < skipWhile l q s) :
    q (l.getD i 0) = true := by
  rw [skipWhile] at h₂
  split_ifs at h₂ with hs
  · rcases Nat.eq_or_lt_of_le h₁ with rfl | h₁
    · exact hs.2
    · exact skipWhile_all h₁ h₂
  · omega
termination_by l.length - s

theorem lex_word_mem {s q eq : ℕ} (h : Tok.word q eq ∈ lex l s) :
    q < eq ∧ eq ≤ l.length ∧ (∀ i, q ≤ i → i < eq → wordByte (l.getD i 0) = true) ∧
      wordByte (l.getD eq 0) = false := by
  fun_induction lex l s with
  | case1 s p c hc h2 ih =>
    exact ih (List.mem_of_ne_of_mem (by simp) h)
  | case2 s p c hc h2 ih =>
    exact ih (List.mem_of_ne_of_mem (by simp) h)
  | case3 s p c hc hw ih =>
    rcases List.mem_cons.mp h with he | h
    · obtain ⟨rfl, rfl⟩ := Tok.word.inj he
      have hlt : p < l.length := lt_length_of_getD_ne (wordByte_ne_zero hw)
      refine ⟨lt_skipWhile hlt hw, skipWhile_le hlt.le, fun i h₁ h₂ => skipWhile_all h₁ h₂, ?_⟩
      by_cases he : skipWhile l wordByte p < l.length
      · exact skipWhile_stop l wordByte p he
      · rw [getD_of_le (Nat.le_of_not_lt he)]
        decide
    · exact ih h
  | case4 => simp at h

theorem getD_set_zero (b : List UInt8) (i j : ℕ) :
    (b.set j 0).getD i 0 = if i = j then 0 else b.getD i 0 := by
  by_cases hij : i = j
  · subst hij
    rw [if_pos rfl]
    by_cases hi : i < b.length
    · simp [List.getD_eq_getElem?_getD, hi]
    · exact getD_of_le (by simpa using Nat.le_of_not_lt hi)
  · rw [if_neg hij, List.getD_eq_getElem?_getD, List.getElem?_set_ne (Ne.symm hij),
      ← List.getD_eq_getElem?_getD]

theorem getD_foldl_set (argv : List (ℕ × ℕ)) (b : List UInt8) (i : ℕ) :
    (argv.foldl (fun b w => b.set w.2 0) b).getD i 0 = if i ∈ argv.map Prod.snd then 0 else b.getD i 0 := by
  induction argv generalizing b with
  | nil => simp
  | cons w argv ih =>
    rw [List.foldl_cons, ih, getD_set_zero]
    by_cases h₁ : i ∈ argv.map Prod.snd <;> by_cases h₂ : i = w.2 <;> simp [h₁, h₂]

theorem getD_nulterminate (c : Cmd) (b : List UInt8) (i : ℕ) :
    (nulterminate c b).getD i 0 = if i ∈ c.words.map Prod.snd then 0 else b.getD i 0 := by
  induction c generalizing b with
  | exec argv => exact getD_foldl_set argv b i
  | redir c r ih =>
    rw [nulterminate, getD_set_zero, ih]
    by_cases h₁ : i ∈ c.words.map Prod.snd <;> by_cases h₂ : i = r.efile <;> simp [Cmd.words, h₁, h₂]
  | pipe c d ihc ihd | list c d ihc ihd =>
    rw [nulterminate, ihd, ihc]
    by_cases h₁ : i ∈ c.words.map Prod.snd <;> by_cases h₂ : i ∈ d.words.map Prod.snd <;>
      simp [Cmd.words, h₁, h₂]
  | back c ih => exact ih b

theorem length_nulterminate (c : Cmd) (b : List UInt8) : (nulterminate c b).length = b.length := by
  induction c generalizing b with
  | exec argv =>
    simp only [nulterminate]
    induction argv generalizing b with
    | nil => rfl
    | cons w argv ih => rw [List.foldl_cons, ih, List.length_set]
  | redir c r ih => rw [nulterminate, List.length_set, ih]
  | pipe c d ihc ihd | list c d ihc ihd => rw [nulterminate, ihd, ihc]
  | back c ih => exact ih b

theorem cstr_eq_take {b : List UInt8} {q eq : ℕ} (hqe : q ≤ eq) (hlen : eq ≤ l.length)
    (hb : b.length = l.length) (hsame : ∀ i, q ≤ i → i < eq → b.getD i 0 = l.getD i 0 ∧ l.getD i 0 ≠ 0)
    (hend : b.getD eq 0 = 0) : cstr b q = (l.drop q).take (eq - q) := by
  obtain ⟨n, rfl⟩ := Nat.exists_eq_add_of_le hqe
  induction n generalizing q with
  | zero =>
    rw [Nat.add_zero, Nat.sub_self, List.take_zero, cstr]
    by_cases hq : q < b.length
    · have hbq : b[q] = 0 := by
        rw [← List.getD_eq_getElem _ 0 hq]
        simpa using hend
      rw [List.drop_eq_getElem_cons hq, List.takeWhile_cons_of_neg (by simp [hbq])]
    · rw [List.drop_of_length_le (Nat.le_of_not_lt hq), List.takeWhile_nil]
  | succ n ih =>
    have hq : q < l.length := by omega
    obtain ⟨hbq, hlq⟩ := hsame q le_rfl (by omega)
    have ih' := ih (q := q + 1) (by omega) (by omega)
      (fun i h₁ h₂ => hsame i (by omega) (by omega)) (by rw [show q + 1 + n = q + (n + 1) by omega]; exact hend)
    rw [cstr, List.drop_eq_getElem_cons (hb ▸ hq), List.takeWhile_cons_of_pos, List.drop_eq_getElem_cons hq,
      show q + (n + 1) - q = n + 1 by omega, List.take_succ_cons]
    · rw [← cstr, ih', show q + 1 + n - (q + 1) = n by omega]
      congr 1
      rw [← List.getD_eq_getElem _ 0, ← List.getD_eq_getElem _ 0, hbq]
    · rw [← List.getD_eq_getElem _ 0, hbq]
      simpa using hlq

/-- After `nulterminate` the C string at the start of a word of a derivation's tree is that
word of the line: the NULs go where words end, and no word ends inside another. -/
theorem cstr_nulterminate {c : Cmd} {ts : List Tok} (hts : lex l 0 = ts) (hd : Line ts c) {q eq : ℕ}
    (hw : (q, eq) ∈ c.words) : cstr (nulterminate c l) q = (l.drop q).take (eq - q) := by
  obtain ⟨hqe, hlen, hbytes, hend⟩ := lex_word_mem (hts ▸ hd.words_mem _ hw)
  -- a word's end is a byte no word has
  have hends : ∀ i, q ≤ i → i < eq → i ∉ c.words.map Prod.snd := by
    intro i h₁ h₂ hi
    obtain ⟨⟨q', e'⟩, hw', rfl⟩ := List.mem_map.mp hi
    have hend' := (lex_word_mem (hts ▸ hd.words_mem _ hw')).2.2.2
    rw [hbytes _ h₁ h₂] at hend'
    exact Bool.noConfusion hend'
  refine cstr_eq_take hqe.le hlen (length_nulterminate c l) (fun i h₁ h₂ => ⟨?_, ?_⟩) ?_
  · rw [getD_nulterminate, if_neg (hends i h₁ h₂)]
  · exact wordByte_ne_zero (hbytes i h₁ h₂)
  · rw [getD_nulterminate, if_pos (List.mem_map.mpr ⟨(q, eq), hw, rfl⟩)]

end Words

/-! ## `parsecmd` -/

/-- `parsecmd` returns exactly for a NUL-free line whose tokens derive from `line`. -/
theorem parsecmd_eq_ok_iff {l : List UInt8} (hl : 0 ∉ l) {c : Cmd} {b : List UInt8} :
    parsecmd l = .ok (c, b) ↔ Line (lex l 0) c ∧ b = nulterminate c l := by
  constructor
  · intro h
    rw [parsecmd] at h
    obtain ⟨⟨c₁, s₁, hs₁⟩, hline, h⟩ := Except.bind_eq_ok.mp h
    simp only at h
    split_ifs at h with hend
    simp only [Except.pure_eq_ok, Except.ok.injEq, Prod.mk.injEq] at h
    obtain ⟨rfl, rfl⟩ := h
    obtain ⟨ts, hlex, hd⟩ := parseline_sound hline
    have hnil : lex l s₁ = [] := ((lexes_nil_iff hl).mpr (not_not.mp hend)).2
    rw [hnil, List.append_nil] at hlex
    exact ⟨hlex ▸ hd, rfl⟩
  · rintro ⟨hd, rfl⟩
    obtain ⟨⟨s₁, hs₁⟩, hline, hend⟩ :=
      parseline_complete hd (.inl rfl) ⟨Nat.zero_le _, (List.append_nil _).symm⟩
    rw [parsecmd, hline, Except.ok_bind]
    simp only
    rw [if_neg (not_not.mpr ((lexes_nil_iff hl).mp hend))]
    rfl

/-- The shell's parser accepts exactly its grammar. A NUL-free line is parsed exactly when
its tokens derive from `line`, into the tree of the derivation, and then, after
`nulterminate`, the C string at the start of each word of the tree, an argument or a
redirection's file, is that word token of the line. -/
theorem parsecmd_grammar (l : List UInt8) (hl : 0 ∉ l) (c : Cmd) (b : List UInt8) :
    (parsecmd l = .ok (c, b) ↔ Line (lex l 0) c ∧ b = nulterminate c l) ∧
    (parsecmd l = .ok (c, b) → ∀ q eq, (q, eq) ∈ c.words →
      Tok.word q eq ∈ lex l 0 ∧ cstr b q = (l.drop q).take (eq - q)) := by
  refine ⟨parsecmd_eq_ok_iff hl, fun h q eq hw => ?_⟩
  obtain ⟨hd, rfl⟩ := (parsecmd_eq_ok_iff hl).mp h
  exact ⟨hd.words_mem _ hw, cstr_nulterminate rfl hd hw⟩

/-- The line `echo hi > out`. -/
def echoLine : List UInt8 := [101, 99, 104, 111, 32, 104, 105, 32, 62, 32, 111, 117, 116]

/-- `echo hi > out` is parsed into `echo hi` with its output sent to `out`, and `echo` and
`hi` are NUL-terminated in place. -/
theorem parsecmd_grammar_echo :
    0 ∉ echoLine ∧
      parsecmd echoLine = .ok ((Cmd.exec [(0, 4), (5, 7)]).redir ⟨10, 13, O_WRONLY ||| O_CREATE ||| O_TRUNC, 1⟩,
        [101, 99, 104, 111, 0, 104, 105, 0, 62, 32, 111, 117, 116]) := by
  have hl : 0 ∉ echoLine := by decide
  have hlex : lex echoLine 0 = [.word 0 4, .word 5 7, .sym GT, .word 10 13] := by
    simp +decide [lex, skipWhile, echoLine]
  have hd : Line (lex echoLine 0)
      ((Cmd.exec [(0, 4), (5, 7)]).redir ⟨10, 13, O_WRONLY ||| O_CREATE ||| O_TRUNC, 1⟩) := by
    rw [hlex]
    exact .pipe 0 (.exec (.simple .nil (.word 0 4 .nil (.word 5 7 (.output 10 13 .nil) .nil)) (by decide)))
  exact ⟨hl, (parsecmd_grammar echoLine hl _ _).1.mpr ⟨hd, rfl⟩⟩

end Sh

end Xv6
