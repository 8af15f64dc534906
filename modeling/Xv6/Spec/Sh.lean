import Xv6.Spec.File

/-! The command parser of `sh.c`: `gettoken`, `peek`, the recursive descent of `parseline`,
`parsepipe`, `parseexec`, `parseblock` and `parseredirs`, `parsecmd` and `nulterminate`.

The line is the list of its bytes before the NUL, and a pointer into it an index: `*s` is the
byte at `s`, the NUL at the end `es` and past it. A tree keeps a word as the pair `q`, `eq`
the parser records. `parseexec` adds words to its `execcmd` after redirections have wrapped
it, so it collects the words and the redirections and wraps at the end, the first
innermost, as the pointers leave it. `panic` is an error. Each parse function returns a
position no smaller than the one it was given; with the positions consumed and the order
`parseblock < parseexec < parsepipe < parseline` at one position, that is what ends the
mutual recursion. -/

namespace Xv6

namespace Sh

def PIPE : UInt8 := '|'.toUInt8
def LPAREN : UInt8 := '('.toUInt8
def RPAREN : UInt8 := ')'.toUInt8
def SEMI : UInt8 := ';'.toUInt8
def AMP : UInt8 := '&'.toUInt8
def LT : UInt8 := '<'.toUInt8
def GT : UInt8 := '>'.toUInt8
/-- `gettoken`'s code for `>>`. -/
def PLUS : UInt8 := '+'.toUInt8
/-- `gettoken`'s code for a word. -/
def WORD : UInt8 := 'a'.toUInt8

def MAXARGS : ℕ := 10

/-- `whitespace[] = " \t\r\n\v"`. -/
def whitespace : List UInt8 := [32, 9, 13, 10, 11]

/-- `symbols[] = "<|>&;()"`. -/
def symbols : List UInt8 := [LT, PIPE, GT, AMP, SEMI, LPAREN, RPAREN]

/-- `strchr(str, c) != 0`: the terminating NUL is found as well. -/
def strchr (str : List UInt8) (c : UInt8) : Bool := c == 0 || str.contains c

/-- A byte of a word: neither white space nor a symbol. -/
def wordByte (c : UInt8) : Bool := !strchr whitespace c && !strchr symbols c

/-- `while(s < es && p(*s)) s++;`. -/
def skipWhile (l : List UInt8) (p : UInt8 → Bool) (s : ℕ) : ℕ :=
  if s < l.length ∧ p (l.getD s 0) then skipWhile l p (s + 1) else s
termination_by l.length - s

/-- `gettoken(ps, es, q, eq)`: the token's code (its byte, `PLUS` for `>>`, `WORD` for a
word, `0` at the end), `*q`, `*eq` and the new `*ps`. -/
def gettoken (l : List UInt8) (s : ℕ) : UInt8 × ℕ × ℕ × ℕ :=
  let s := skipWhile l (strchr whitespace) s
  let c := l.getD s 0
  let (ret, e) :=
    if c = 0 then (0, s)
    else if c ∈ [PIPE, LPAREN, RPAREN, SEMI, AMP, LT] then (c, s + 1)
    else if c = GT then (if l.getD (s + 1) 0 = GT then (PLUS, s + 2) else (GT, s + 1))
    else (WORD, skipWhile l wordByte s)
  (ret, s, e, skipWhile l (strchr whitespace) e)

/-- `peek(ps, es, toks)`: the new `*ps`, and whether the byte there is one of `toks`. -/
def peek (l : List UInt8) (s : ℕ) (toks : List UInt8) : ℕ × Bool :=
  let s := skipWhile l (strchr whitespace) s
  (s, l.getD s 0 != 0 && strchr toks (l.getD s 0))

/-- `struct redircmd` without its command: `file`, `efile`, `mode`, `fd`. -/
structure Redir where
  file : ℕ
  efile : ℕ
  mode : ℕ
  fd : ℕ
  deriving DecidableEq, Repr

/-- `struct cmd`; an `execcmd` holds `argv[i]` and `eargv[i]` as pairs. -/
inductive Cmd
  | exec (argv : List (ℕ × ℕ))
  | redir (cmd : Cmd) (r : Redir)
  | pipe (left right : Cmd)
  | list (left right : Cmd)
  | back (cmd : Cmd)
  deriving DecidableEq, Repr

/-- `cmd` wrapped in the redirections `rs`, the first innermost. -/
def Cmd.redirs (c : Cmd) (rs : List Redir) : Cmd := rs.foldl .redir c

/-! ## Positions only move forward -/

theorem getD_of_le {l : List UInt8} {s : ℕ} (h : l.length ≤ s) : l.getD s 0 = 0 := by
  simp [List.getD_eq_getElem?_getD, List.getElem?_eq_none h]

theorem le_skipWhile (l : List UInt8) (p : UInt8 → Bool) (s : ℕ) : s ≤ skipWhile l p s := by
  rw [skipWhile]
  split_ifs
  · exact Nat.le_of_succ_le (le_skipWhile l p (s + 1))
  · exact le_refl s
termination_by l.length - s

theorem skipWhile_stop (l : List UInt8) (p : UInt8 → Bool) (s : ℕ) (h : skipWhile l p s < l.length) :
    p (l.getD (skipWhile l p s) 0) = false := by
  rw [skipWhile] at h ⊢
  split_ifs at h ⊢ with hs
  · exact skipWhile_stop l p (s + 1) h
  · simpa [h] using hs
termination_by l.length - s

theorem le_peek (l : List UInt8) (s : ℕ) (toks : List UInt8) : s ≤ (peek l s toks).1 :=
  le_skipWhile l _ s

theorem peek_lt {l : List UInt8} {s : ℕ} {toks : List UInt8} (h : (peek l s toks).2 = true) :
    (peek l s toks).1 < l.length := by
  simp only [peek, Bool.and_eq_true, bne_iff_ne, ne_eq] at h
  by_contra hge
  exact h.1 (getD_of_le (Nat.le_of_not_lt hge))

theorem le_gettoken (l : List UInt8) (s : ℕ) : s ≤ (gettoken l s).2.2.2 := by
  have h := le_skipWhile l (strchr whitespace) s
  simp only [gettoken]
  split_ifs <;>
    first
    | exact h.trans (le_skipWhile l _ _)
    | exact h.trans ((Nat.le_succ _).trans (le_skipWhile l _ _))
    | exact h.trans ((Nat.le_add_right _ 2).trans (le_skipWhile l _ _))
    | exact h.trans ((le_skipWhile l _ _).trans (le_skipWhile l _ _))

theorem lt_gettoken {l : List UInt8} {s : ℕ} (h : l.getD s 0 ≠ 0) (hs : strchr whitespace (l.getD s 0) = false) :
    s < (gettoken l s).2.2.2 := by
  have hskip : skipWhile l (strchr whitespace) s = s := by
    rw [skipWhile, if_neg fun h' => by rw [hs] at h'; exact Bool.false_ne_true h'.2]
  have hword : s < skipWhile l wordByte s ∨ ¬ wordByte (l.getD s 0) := by
    by_cases hw : wordByte (l.getD s 0)
    · left
      have hlt : s < l.length := by
        by_contra hge
        exact h (getD_of_le (Nat.le_of_not_lt hge))
      rw [skipWhile, if_pos ⟨hlt, hw⟩]
      exact Nat.lt_of_lt_of_le (Nat.lt_succ_self s) (le_skipWhile l _ _)
    · exact .inr hw
  simp only [gettoken, hskip, if_neg h]
  split_ifs with h1 h2 h3
  · exact Nat.lt_of_lt_of_le (Nat.lt_succ_self s) (le_skipWhile l _ _)
  · exact Nat.lt_of_lt_of_le (by omega) (le_skipWhile l _ _)
  · exact Nat.lt_of_lt_of_le (Nat.lt_succ_self s) (le_skipWhile l _ _)
  · rcases hword with hw | hw
    · exact Nat.lt_of_lt_of_le hw (le_skipWhile l _ _)
    · -- a byte that is no symbol and no white space is a word's
      exfalso
      apply hw
      generalize l.getD s 0 = c at h hs h1 h2
      simp only [List.mem_cons, List.not_mem_nil, or_false] at h1
      simp [strchr, h] at hs
      simp [wordByte, strchr, symbols, h]
      tauto

theorem peek_gettoken_lt {l : List UInt8} {s : ℕ} {toks : List UInt8} (h : (peek l s toks).2 = true) :
    s < (gettoken l (peek l s toks).1).2.2.2 := by
  have hc : l.getD (peek l s toks).1 0 ≠ 0 := by
    simp only [peek, Bool.and_eq_true, bne_iff_ne, ne_eq] at h
    exact h.1
  have hws : strchr whitespace (l.getD (peek l s toks).1 0) = false :=
    skipWhile_stop l _ s (peek_lt h)
  exact Nat.lt_of_le_of_lt (le_peek l s toks) (lt_gettoken hc hws)

theorem lt_gettoken_of_ne {l : List UInt8} {s : ℕ} (h : (gettoken l s).1 ≠ 0) :
    s < (gettoken l s).2.2.2 ∧ s < l.length := by
  have hle := le_skipWhile l (strchr whitespace) s
  have hc : l.getD (skipWhile l (strchr whitespace) s) 0 ≠ 0 := fun hc => h (by simp only [gettoken, hc, if_true])
  have hlt : skipWhile l (strchr whitespace) s < l.length := by
    by_contra hge
    exact hc (getD_of_le (Nat.le_of_not_lt hge))
  have hws := skipWhile_stop l _ s hlt
  have hskip : skipWhile l (strchr whitespace) (skipWhile l (strchr whitespace) s) =
      skipWhile l (strchr whitespace) s := by
    rw [skipWhile, if_neg fun h' => by rw [hws] at h'; exact Bool.false_ne_true h'.2]
  have heq : gettoken l s = gettoken l (skipWhile l (strchr whitespace) s) := by
    simp only [gettoken, hskip]
  rw [heq]
  exact ⟨Nat.lt_of_le_of_lt hle (lt_gettoken hc hws), Nat.lt_of_le_of_lt hle hlt⟩

theorem sub_gettoken_lt {l : List UInt8} {s : ℕ} {toks : List UInt8} (h : (peek l s toks).2 = true) :
    l.length - (gettoken l (peek l s toks).1).2.2.2 < l.length - s := by
  have h1 := peek_gettoken_lt h
  have h2 := peek_lt h
  have h3 := le_peek l s toks
  omega

/-! ## The parser -/

/-- The redirection `parseredirs`'s `switch(tok)` builds for `q`, `eq`. -/
def redirOf (tok : UInt8) (q eq : ℕ) : Option Redir :=
  if tok = LT then some ⟨q, eq, O_RDONLY, 0⟩
  else if tok = GT then some ⟨q, eq, O_WRONLY ||| O_CREATE ||| O_TRUNC, 1⟩
  else if tok = PLUS then some ⟨q, eq, O_WRONLY ||| O_CREATE, 1⟩
  else none

/-- `parseredirs(cmd, ps, es)`: the redirections from `s` on, in order. -/
def parseredirs (l : List UInt8) (s : ℕ) : Except String (List Redir × {s' : ℕ // s ≤ s'}) :=
  let p := peek l s [LT, GT]
  if _hp : p.2 then
    let t := gettoken l p.1
    let f := gettoken l t.2.2.2
    if f.1 ≠ WORD then throw "missing file for redirection"
    else do
      let (rs, ⟨s', hs'⟩) ← parseredirs l f.2.2.2
      return ((redirOf t.1 f.2.1 f.2.2.1).toList ++ rs,
        ⟨s', (le_peek l s _).trans ((le_gettoken l _).trans ((le_gettoken l _).trans hs'))⟩)
  else return ([], ⟨p.1, le_peek l s _⟩)
termination_by l.length - s
decreasing_by
  have := le_gettoken l (gettoken l (peek l s [LT, GT]).1).2.2.2
  have := sub_gettoken_lt _hp
  omega

/-- The loop of `parseline` over `&`: `cmd` wrapped in a `backcmd` for each. -/
def parseBacks (l : List UInt8) (c : Cmd) (s : ℕ) : Cmd × {s' : ℕ // s ≤ s'} :=
  let p := peek l s [AMP]
  if _hp : p.2 then
    let (c, ⟨s', hs'⟩) := parseBacks l (.back c) (gettoken l p.1).2.2.2
    (c, ⟨s', (le_peek l s _).trans ((le_gettoken l _).trans hs')⟩)
  else (c, ⟨p.1, le_peek l s _⟩)
termination_by l.length - s
decreasing_by exact sub_gettoken_lt _hp

/-- The loop of `parseexec` after its first `parseredirs`: the words `argv` gets and the
redirections after them, up to a `|`, `)`, `&`, `;` or the end. -/
def parseargs (l : List UInt8) (argv : List (ℕ × ℕ)) (s : ℕ) :
    Except String (List (ℕ × ℕ) × List Redir × {s' : ℕ // s ≤ s'}) :=
  let p := peek l s [PIPE, RPAREN, AMP, SEMI]
  if p.2 then return (argv, [], ⟨p.1, le_peek l s _⟩)
  else
    let t := gettoken l p.1
    if _ht : t.1 = 0 then return (argv, [], ⟨t.2.2.2, (le_peek l s _).trans (le_gettoken l _)⟩)
    else if t.1 ≠ WORD then throw "syntax"
    else
      let argv := argv ++ [(t.2.1, t.2.2.1)]
      if MAXARGS ≤ argv.length then throw "too many args"
      else do
        let (rs, ⟨s₁, h₁⟩) ← parseredirs l t.2.2.2
        let (argv, rs', ⟨s₂, h₂⟩) ← parseargs l argv s₁
        return (argv, rs ++ rs', ⟨s₂, (le_peek l s _).trans ((le_gettoken l _).trans (h₁.trans h₂))⟩)
termination_by l.length - s
decreasing_by
  have h₃ : t.2.2.2 = (gettoken l p.1).2.2.2 := rfl
  have h₄ : p.1 = (peek l s [PIPE, RPAREN, AMP, SEMI]).1 := rfl
  have := lt_gettoken_of_ne _ht
  have := le_peek l s [PIPE, RPAREN, AMP, SEMI]
  omega

mutual

/-- `parseline(ps, es)`: a pipeline, its `&`s, and after a `;` the rest of the line. -/
def parseline (l : List UInt8) (s : ℕ) : Except String (Cmd × {s' : ℕ // s ≤ s'}) := do
  let (c, ⟨s₁, h₁⟩) ← parsepipe l s
  let (c, ⟨s₂, h₂⟩) := parseBacks l c s₁
  let p := peek l s₂ [SEMI]
  if _hp : p.2 then do
    let (c', ⟨s₃, h₃⟩) ← parseline l (gettoken l p.1).2.2.2
    return (.list c c', ⟨s₃, h₁.trans (h₂.trans ((le_peek l s₂ _).trans ((le_gettoken l _).trans h₃)))⟩)
  else return (c, ⟨p.1, h₁.trans (h₂.trans (le_peek l s₂ _))⟩)
termination_by (l.length - s, 3)
decreasing_by
  · exact Prod.Lex.right _ (by decide)
  · have := sub_gettoken_lt _hp
    have := peek_lt _hp
    exact Prod.Lex.left _ _ (by omega)

/-- `parsepipe(ps, es)`: a command, and after a `|` the rest of the pipeline. -/
def parsepipe (l : List UInt8) (s : ℕ) : Except String (Cmd × {s' : ℕ // s ≤ s'}) := do
  let (c, ⟨s₁, h₁⟩) ← parseexec l s
  let p := peek l s₁ [PIPE]
  if _hp : p.2 then do
    let (c', ⟨s₂, h₂⟩) ← parsepipe l (gettoken l p.1).2.2.2
    return (.pipe c c', ⟨s₂, h₁.trans ((le_peek l s₁ _).trans ((le_gettoken l _).trans h₂))⟩)
  else return (c, ⟨p.1, h₁.trans (le_peek l s₁ _)⟩)
termination_by (l.length - s, 2)
decreasing_by
  · exact Prod.Lex.right _ (by decide)
  · have := sub_gettoken_lt _hp
    have := peek_lt _hp
    exact Prod.Lex.left _ _ (by omega)

/-- `parseexec(ps, es)`: a block, or a command with its words and redirections. -/
def parseexec (l : List UInt8) (s : ℕ) : Except String (Cmd × {s' : ℕ // s ≤ s'}) :=
  let p := peek l s [LPAREN]
  if p.2 then do
    let (c, ⟨s₁, h₁⟩) ← parseblock l p.1
    return (c, ⟨s₁, (le_peek l s _).trans h₁⟩)
  else do
    let (rs, ⟨s₁, h₁⟩) ← parseredirs l p.1
    let (argv, rs', ⟨s₂, h₂⟩) ← parseargs l [] s₁
    return ((Cmd.exec argv).redirs (rs ++ rs'), ⟨s₂, (le_peek l s _).trans (h₁.trans h₂)⟩)
termination_by (l.length - s, 1)
decreasing_by
  have h₄ : p.1 = (peek l s [LPAREN]).1 := rfl
  have := le_peek l s [LPAREN]
  rcases Nat.lt_or_ge (l.length - p.1) (l.length - s) with h | h
  · exact Prod.Lex.left _ _ h
  · have : l.length - p.1 = l.length - s := by omega
    rw [this]
    exact Prod.Lex.right _ (by decide)

/-- `parseblock(ps, es)`: `(`, a line, `)` and redirections. -/
def parseblock (l : List UInt8) (s : ℕ) : Except String (Cmd × {s' : ℕ // s ≤ s'}) :=
  let p := peek l s [LPAREN]
  if _hp : p.2 then do
    let (c, ⟨s₁, h₁⟩) ← parseline l (gettoken l p.1).2.2.2
    let p' := peek l s₁ [RPAREN]
    if p'.2 then do
      let (rs, ⟨s₂, h₂⟩) ← parseredirs l (gettoken l p'.1).2.2.2
      return (c.redirs rs, ⟨s₂, (le_peek l s _).trans ((le_gettoken l _).trans (h₁.trans
        ((le_peek l s₁ _).trans ((le_gettoken l _).trans h₂))))⟩)
    else throw "syntax - missing )"
  else throw "parseblock"
termination_by (l.length - s, 0)
decreasing_by
  have := sub_gettoken_lt _hp
  exact Prod.Lex.left _ _ this

end

/-- `nulterminate(cmd)`: a NUL after every word of the tree. -/
def nulterminate : Cmd → List UInt8 → List UInt8
  | .exec argv, b => argv.foldl (fun b w => b.set w.2 0) b
  | .redir c r, b => (nulterminate c b).set r.efile 0
  | .pipe c d, b => nulterminate d (nulterminate c b)
  | .list c d, b => nulterminate d (nulterminate c b)
  | .back c, b => nulterminate c b

/-- `parsecmd(s)`: the tree of the whole line and the line after `nulterminate`. -/
def parsecmd (l : List UInt8) : Except String (Cmd × List UInt8) := do
  let (c, ⟨s, _⟩) ← parseline l 0
  if (peek l s []).1 ≠ l.length then throw "syntax"
  else return (c, nulterminate c l)

end Sh

end Xv6
