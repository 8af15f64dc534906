import Mathlib.Tactic

/-! A minimum scan that starts from `0` and reads `0` as "no minimum yet", the idiom
`min = 0; for (...) if (min == 0 || x < min) min = x;`, and the selection that follows
it: the first candidate whose key equals the scanned minimum. Once no key is `0` the
scan is the ordinary minimum, and the selection picks a least key. -/

namespace Scan

variable {α ι : Type*} [LinearOrder α]

/-- The selection: the first candidate that is `chosen` and whose key equals `m`. -/
def selectEq (chosen : ι → Bool) (key : ι → α) (m : α) (cands : List ι) : Option ι :=
  cands.find? fun i => chosen i && key i == m

theorem selectEq_some {chosen : ι → Bool} {key : ι → α} {cands : List ι} {m : α} {i : ι}
    (h : selectEq chosen key m cands = some i) : i ∈ cands ∧ chosen i = true ∧ key i = m := by
  have hmem := List.mem_of_find?_eq_some h
  have hp := List.find?_some h
  simp only [Bool.and_eq_true, beq_iff_eq] at hp
  exact ⟨hmem, hp.1, hp.2⟩

theorem selectEq_isSome {chosen : ι → Bool} {key : ι → α} {cands : List ι} {m : α} {i : ι}
    (hi : i ∈ cands) (hc : chosen i = true) (hk : key i = m) :
    (selectEq chosen key m cands).isSome := by
  rw [selectEq, List.find?_isSome]
  exact ⟨i, hi, by simp [hc, hk]⟩

theorem find?_finRange_eq_some {n : ℕ} {p : Fin n → Bool} {i : Fin n} :
    (List.finRange n).find? p = some i ↔ p i = true ∧ ∀ j < i, p j = false := by
  induction n with
  | zero => exact i.elim0
  | succ n ih =>
    rw [List.finRange_succ, List.find?_cons]
    cases h0 : p 0 with
    | true =>
      simp only [Option.some.injEq]
      constructor
      · rintro rfl; exact ⟨h0, fun j hj => absurd hj (Fin.not_lt_zero j)⟩
      · rintro ⟨-, hlt⟩
        by_contra hne
        have := hlt 0 (Fin.pos_iff_ne_zero.mpr (Ne.symm hne))
        rw [h0] at this; exact Bool.noConfusion this
    | false =>
      rw [List.find?_map]
      cases i using Fin.cases with
      | zero =>
        simp only [h0, Bool.false_eq_true, false_and, iff_false]
        intro h
        obtain ⟨k, -, hk⟩ := Option.map_eq_some_iff.mp h
        exact Fin.succ_ne_zero k hk
      | succ k =>
        rw [Option.map_eq_some_iff]
        constructor
        · rintro ⟨k', hk', he⟩
          rw [Fin.succ_inj.mp he] at hk'
          obtain ⟨hp, hlt⟩ := ih.mp hk'
          refine ⟨hp, fun j hj => ?_⟩
          cases j using Fin.cases with
          | zero => exact h0
          | succ j => exact hlt j (Fin.succ_lt_succ_iff.mp hj)
        · rintro ⟨hp, hlt⟩
          exact ⟨k, ih.mpr ⟨hp, fun j hj => hlt j.succ (Fin.succ_lt_succ_iff.mpr hj)⟩, rfl⟩

theorem find?_finRange_eq_none {n : ℕ} {p : Fin n → Bool} :
    (List.finRange n).find? p = none ↔ ∀ j, p j = false := by
  simp [List.find?_eq_none, List.mem_finRange]

variable [Zero α]

/-- One step of the scan: take `x` when nothing is held yet or `x` is smaller. -/
def minStep (m x : α) : α := if m = 0 ∨ x < m then x else m

/-- The value the scan holds after reading `xs`. -/
def sentinelMin (xs : List α) : α := xs.foldl minStep 0

@[simp] theorem sentinelMin_nil : sentinelMin ([] : List α) = 0 := rfl

theorem minStep_zero (x : α) : minStep 0 x = x := by simp [minStep]

theorem minStep_of_ne {m : α} (x : α) (hm : m ≠ 0) : minStep m x = min m x := by
  unfold minStep
  by_cases hx : x < m
  · simp [hm, hx, min_eq_right hx.le]
  · simp [hm, hx, min_eq_left (not_lt.mp hx)]

theorem foldl_minStep_of_ne (ys : List α) {m : α} (hm : m ≠ 0) (hys : ∀ y ∈ ys, y ≠ 0) :
    ys.foldl minStep m = ys.foldl min m := by
  induction ys generalizing m with
  | nil => rfl
  | cons y ys ih =>
    have hy : y ≠ 0 := hys y (by simp)
    have hmin : min m y ≠ 0 := by rcases min_choice m y with h | h <;> rw [h] <;> assumption
    simp only [List.foldl_cons, minStep_of_ne y hm]
    exact ih hmin fun x hx => hys x (by simp [hx])

theorem sentinelMin_eq_min? {xs : List α} (hxs : ∀ x ∈ xs, x ≠ 0) :
    sentinelMin xs = xs.min?.getD 0 := by
  cases xs with
  | nil => rfl
  | cons y ys =>
    have hy : y ≠ 0 := hxs y (by simp)
    rw [sentinelMin, List.foldl_cons, minStep_zero, List.min?_cons',
      foldl_minStep_of_ne ys hy fun x hx => hxs x (by simp [hx])]
    rfl

theorem sentinelMin_spec {xs : List α} (hxs : ∀ x ∈ xs, x ≠ 0) (hne : xs ≠ []) :
    sentinelMin xs ∈ xs ∧ ∀ x ∈ xs, sentinelMin xs ≤ x := by
  obtain ⟨m, hm⟩ := Option.isSome_iff_exists.mp (List.isSome_min?_iff.mpr hne)
  rw [sentinelMin_eq_min? hxs, hm]
  exact List.min?_eq_some_iff.mp hm

/-- The minimum the scan finds over the keys of the `eligible` candidates. -/
def scanMin (eligible : ι → Bool) (key : ι → α) (cands : List ι) : α :=
  sentinelMin ((cands.filter eligible).map key)

section select

variable {eligible chosen : ι → Bool} {key : ι → α} {cands : List ι}

/-- With no eligible key `0` and some candidate eligible, the scan finds the least eligible key. -/
theorem scanMin_spec (hkey : ∀ i ∈ cands, eligible i = true → key i ≠ 0) {i : ι} (hi : i ∈ cands)
    (he : eligible i = true) :
    (∃ j ∈ cands, eligible j = true ∧ key j = scanMin eligible key cands) ∧
      ∀ j ∈ cands, eligible j = true → scanMin eligible key cands ≤ key j := by
  have hnz : ∀ x ∈ (cands.filter eligible).map key, x ≠ 0 := by
    simp only [List.mem_map, List.mem_filter]
    rintro x ⟨j, ⟨hj, he⟩, rfl⟩
    exact hkey j hj he
  have hne : (cands.filter eligible).map key ≠ [] := by
    simpa [List.filter_eq_nil_iff] using ⟨i, hi, he⟩
  obtain ⟨hmem, hmin⟩ := sentinelMin_spec hnz hne
  obtain ⟨j, hj, hjk⟩ := List.mem_map.mp hmem
  rw [List.mem_filter] at hj
  exact ⟨⟨j, hj.1, hj.2, hjk⟩, fun j hj he => hmin _ (List.mem_map.mpr ⟨j, List.mem_filter.mpr ⟨hj, he⟩, rfl⟩)⟩

/-- With every `chosen` candidate `eligible` and no eligible key `0`, a selected candidate
has the least key among the eligible ones. -/
theorem selectEq_scanMin_le (hsub : ∀ i, chosen i = true → eligible i = true)
    (hkey : ∀ i ∈ cands, eligible i = true → key i ≠ 0) {i : ι}
    (h : selectEq chosen key (scanMin eligible key cands) cands = some i) :
    chosen i = true ∧ ∀ j ∈ cands, eligible j = true → key i ≤ key j := by
  obtain ⟨hmem, hc, hk⟩ := selectEq_some h
  refine ⟨hc, fun j hj he => ?_⟩
  rw [hk]
  exact (scanMin_spec hkey hmem (hsub i hc)).2 j hj he

/-- Under the same conditions the selection succeeds exactly when some `chosen`
candidate carries the least eligible key. -/
theorem selectEq_scanMin_isSome (hsub : ∀ i, chosen i = true → eligible i = true)
    (hkey : ∀ i ∈ cands, eligible i = true → key i ≠ 0) :
    (selectEq chosen key (scanMin eligible key cands) cands).isSome ↔
      ∃ i ∈ cands, chosen i = true ∧ ∀ j ∈ cands, eligible j = true → key i ≤ key j := by
  constructor
  · intro h
    obtain ⟨i, hi⟩ := Option.isSome_iff_exists.mp h
    exact ⟨i, (selectEq_some hi).1, selectEq_scanMin_le hsub hkey hi⟩
  · rintro ⟨i, hi, hc, hle⟩
    obtain ⟨⟨j, hj, hej, hjk⟩, hmin⟩ := scanMin_spec hkey hi (hsub i hc)
    have h1 := hle j hj hej
    rw [hjk] at h1
    exact selectEq_isSome hi hc (le_antisymm h1 (hmin i hi (hsub i hc)))

end select

end Scan
