import Mathlib.Tactic

/-! Runs of a system given by a partial transition function `next : σ → ε → Option σ`
(an event either is enabled and leads to one state, or is not enabled), the states
reachable from an initial state, and the rule that proves an invariant of all of them:
it holds initially and every enabled event keeps it. -/

namespace Run

variable {σ ε : Type*}

/-- The states reachable from `init` by enabled events. -/
inductive Reachable (next : σ → ε → Option σ) (init : σ) : σ → Prop
  | init : Reachable next init init
  | step {s s' : σ} (e : ε) : Reachable next init s → next s e = some s' → Reachable next init s'

/-- Run a list of events in order; `none` as soon as one is not enabled. -/
def run (next : σ → ε → Option σ) : σ → List ε → Option σ
  | s, [] => some s
  | s, e :: es => (next s e).bind fun s' => run next s' es

variable {next : σ → ε → Option σ} {init : σ}

theorem Reachable.run_of {s s' : σ} (hs : Reachable next init s) :
    ∀ {es : List ε}, run next s es = some s' → Reachable next init s'
  | [], h => by simp only [run, Option.some.injEq] at h; exact h ▸ hs
  | e :: es, h => by
    simp only [run] at h
    cases he : next s e with
    | none => simp [he] at h
    | some s₁ => rw [he, Option.bind_some] at h; exact (hs.step e he).run_of h

theorem reachable_of_run {es : List ε} {s : σ} (h : run next init es = some s) :
    Reachable next init s :=
  Reachable.init.run_of h

/-- A run whose last state passes the test `p` ends in a state passing it; with `decide` this
turns an evaluated run into an existence statement. -/
theorem exists_of_run_map {es : List ε} {p : σ → Bool} (h : (run next init es).map p = some true) :
    ∃ s, run next init es = some s ∧ p s = true := by
  cases hr : run next init es with
  | none => simp [hr] at h
  | some s =>
    rw [hr, Option.map_some, Option.some.injEq] at h
    exact ⟨s, rfl, h⟩

theorem exists_reachable_of_run (next : σ → ε → Option σ) (init : σ) (es : List ε) (p : σ → Bool)
    (h : (run next init es).map p = some true) : ∃ s, Reachable next init s ∧ p s = true :=
  let ⟨s, hr, hp⟩ := exists_of_run_map h
  ⟨s, reachable_of_run hr, hp⟩

theorem run_append (s : σ) (es fs : List ε) :
    run next s (es ++ fs) = (run next s es).bind fun s' => run next s' fs := by
  induction es generalizing s with
  | nil => simp [run]
  | cons e es ih =>
    simp only [List.cons_append, run]
    cases next s e <;> simp [ih]

theorem run_concat_eq_some {s s' : σ} {es : List ε} {e : ε} :
    run next s (es ++ [e]) = some s' ↔ ∃ s₀, run next s es = some s₀ ∧ next s₀ e = some s' := by
  rw [run_append]
  cases run next s es with
  | none => simp
  | some s₀ => cases h : next s₀ e <;> simp [run, h]

/-- Lock-step simulation: a relation that every enabled event of `next` keeps, the other
system taking the same event, relates the ends of the two runs of the same events. -/
theorem run_simulate {τ : Type*} {next' : τ → ε → Option τ} (R : σ → τ → Prop)
    (hstep : ∀ s t e s', R s t → next s e = some s' → ∃ t', next' t e = some t' ∧ R s' t') :
    ∀ (es : List ε) {s s' : σ} {t : τ}, R s t → run next s es = some s' → ∃ t', run next' t es = some t' ∧ R s' t'
  | [], _, _, t, h, hs => by
    simp only [run, Option.some.injEq] at hs
    exact ⟨t, rfl, hs ▸ h⟩
  | e :: es, s, s', t, h, hs => by
    simp only [run] at hs
    cases hse : next s e with
    | none => simp [hse] at hs
    | some s₁ =>
      rw [hse, Option.bind_some] at hs
      obtain ⟨t₁, ht₁, h₁⟩ := hstep s t e s₁ h hse
      obtain ⟨t', ht', h'⟩ := run_simulate R hstep es h₁ hs
      exact ⟨t', by simp only [run, ht₁, Option.bind_some, ht'], h'⟩

/-- The invariant rule along one run whose events all pass `ok`. -/
theorem run_invariant {P : σ → Prop} {ok : ε → Prop}
    (hstep : ∀ s s' e, ok e → P s → next s e = some s' → P s') :
    ∀ (es : List ε) {s s' : σ}, (∀ e ∈ es, ok e) → P s → run next s es = some s' → P s'
  | [], _, _, _, h, hs => by
    simp only [run, Option.some.injEq] at hs
    exact hs ▸ h
  | e :: es, s, s', hok, h, hs => by
    simp only [run] at hs
    cases hse : next s e with
    | none => simp [hse] at hs
    | some s₁ =>
      rw [hse, Option.bind_some] at hs
      have h₁ := hstep s s₁ e (hok e List.mem_cons_self) h hse
      exact run_invariant hstep es (fun e' he' => hok e' (List.mem_cons_of_mem e he')) h₁ hs

/-- The invariant rule: what holds initially and is kept by every enabled event holds in
every reachable state. -/
theorem Reachable.induction {P : σ → Prop} (h0 : P init)
    (hstep : ∀ s s' e, P s → next s e = some s' → P s') {s : σ}
    (hs : Reachable next init s) : P s := by
  induction hs with
  | init => exact h0
  | step e _ he ih => exact hstep _ _ e ih he

end Run
