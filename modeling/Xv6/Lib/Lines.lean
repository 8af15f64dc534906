import Mathlib.Data.List.Basic

/-! A list cut into lines at a separator: the lines that a separator ends, and the open line
after the last one. A reader that takes its input in pieces has to keep only the open line
from one piece to the next (`splitOn_append`). -/

namespace Lines

variable {α : Type*} [BEq α] [LawfulBEq α] (sep : α)

/-- The lines of `t` that a `sep` ends, without it. -/
def closed (t : List α) : List (List α) := (t.splitOn sep).dropLast

/-- What follows the last `sep` of `t`: the open line. -/
def last (t : List α) : List α := (t.splitOn sep).getLast (List.splitOn_ne_nil sep t)

omit [LawfulBEq α] in
theorem splitOn_eq_closed_append (t : List α) : t.splitOn sep = closed sep t ++ [last sep t] :=
  (List.dropLast_append_getLast _).symm

theorem closed_of_not_mem {t : List α} (h : sep ∉ t) : closed sep t = [] := by
  simp [closed, List.splitOn_eq_singleton h]

theorem last_of_not_mem {t : List α} (h : sep ∉ t) : last sep t = t := by
  simp [last, List.splitOn_eq_singleton h]

@[simp] theorem last_nil : last sep ([] : List α) = [] := last_of_not_mem sep List.not_mem_nil

theorem closed_line {l : List α} (h : sep ∉ l) (r : List α) :
    closed sep (l ++ sep :: r) = l :: closed sep r := by
  rw [closed, List.splitOn_append_cons_self_of_not_mem h,
    List.dropLast_cons_of_ne_nil (List.splitOn_ne_nil _ _)]
  rfl

theorem last_line {l : List α} (h : sep ∉ l) (r : List α) :
    last sep (l ++ sep :: r) = last sep r := by
  simp [last, List.splitOn_append_cons_self_of_not_mem h]

omit [BEq α] [LawfulBEq α] in
theorem exists_first (t : List α) : sep ∉ t ∨ ∃ l r, sep ∉ l ∧ t = l ++ sep :: r := by
  induction t with
  | nil => exact .inl List.not_mem_nil
  | cons x t ih =>
    by_cases hx : x = sep
    · exact .inr ⟨[], t, List.not_mem_nil, by simp [hx]⟩
    rcases ih with h | ⟨l, r, hl, rfl⟩
    · exact .inl (by simp [h, Ne.symm hx])
    · exact .inr ⟨x :: l, r, by simp [hl, Ne.symm hx], rfl⟩

omit [BEq α] [LawfulBEq α] in
/-- Induction over the lines of a list: from the lists without `sep`, and from `r` to
`l ++ sep :: r` for a line `l`. -/
@[elab_as_elim]
theorem induction {motive : List α → Prop} (free : ∀ t, sep ∉ t → motive t)
    (line : ∀ l r, sep ∉ l → motive r → motive (l ++ sep :: r)) (t : List α) : motive t := by
  -- on the length: the rest after the first line is shorter
  induction h : t.length using Nat.strongRecOn generalizing t with
  | _ n ih =>
    rcases exists_first sep t with ht | ⟨l, r, hl, rfl⟩
    · exact free t ht
    · refine line l r hl (ih r.length ?_ r rfl)
      simp only [List.length_append, List.length_cons] at h
      omega

theorem not_mem_last (t : List α) : sep ∉ last sep t := by
  refine induction sep (fun t h => ?_) (fun l r hl ih => ?_) t
  · rwa [last_of_not_mem sep h]
  · rwa [last_line sep hl]

theorem last_suffix (t : List α) : last sep t <:+ t := by
  refine induction sep (fun t h => ?_) (fun l r hl ih => ?_) t
  · calc last sep t = t := last_of_not_mem sep h
      _ <:+ t := List.suffix_refl t
  · rw [last_line sep hl]
    exact ih.trans ((List.suffix_cons sep r).trans (List.suffix_append l _))

theorem splitOn_append (a b : List α) :
    (a ++ b).splitOn sep = closed sep a ++ (last sep a ++ b).splitOn sep := by
  refine induction sep (fun a h => ?_) (fun l r hl ih => ?_) a
  · rw [closed_of_not_mem sep h, last_of_not_mem sep h, List.nil_append]
  · rw [List.append_assoc, List.cons_append, List.splitOn_append_cons_self_of_not_mem hl, ih,
      closed_line sep hl, last_line sep hl, List.cons_append]

theorem closed_append_and_last_append (a b : List α) :
    closed sep (a ++ b) = closed sep a ++ closed sep (last sep a ++ b) ∧
      last sep (a ++ b) = last sep (last sep a ++ b) := by
  have h := splitOn_append sep a b
  rw [splitOn_eq_closed_append, splitOn_eq_closed_append sep (last sep a ++ b),
    ← List.append_assoc] at h
  obtain ⟨h₁, h₂⟩ := List.append_inj' h rfl
  exact ⟨h₁, List.singleton_inj.mp h₂⟩

theorem closed_append (a b : List α) :
    closed sep (a ++ b) = closed sep a ++ closed sep (last sep a ++ b) :=
  (closed_append_and_last_append sep a b).1

theorem last_append (a b : List α) : last sep (a ++ b) = last sep (last sep a ++ b) :=
  (closed_append_and_last_append sep a b).2

theorem exists_last_prefix (a b : List α) :
    ∃ l ∈ (a ++ b).splitOn sep, last sep a <+: l := by
  rw [splitOn_append]
  have ha := not_mem_last sep a
  rcases exists_first sep b with hb | ⟨l, r, hl, rfl⟩
  · refine ⟨last sep a ++ b, ?_, List.prefix_append _ _⟩
    rw [List.splitOn_eq_singleton (by simp [ha, hb])]
    simp
  · refine ⟨last sep a ++ l, ?_, List.prefix_append _ _⟩
    rw [← List.append_assoc, List.splitOn_append_cons_self_of_not_mem (by simp [ha, hl])]
    simp

theorem length_le_add_last {pre x c : List α} (hx : sep ∉ x) (hc : c <+: pre ++ x) :
    c.length ≤ pre.length + (last sep c).length := by
  by_cases hle : c.length ≤ pre.length
  · omega
  -- past `pre`, `c` is `pre` followed by a part of `x`, which no `sep` cuts
  obtain ⟨u, rfl⟩ := List.prefix_of_prefix_length_le (List.prefix_append pre x) hc (by omega)
  have hu : sep ∉ u := fun h => hx (((List.prefix_append_right_inj pre).mp hc).subset h)
  have hfree : sep ∉ last sep pre ++ u := by simp [not_mem_last sep pre, hu]
  rw [last_append, last_of_not_mem sep hfree]
  simp

theorem splitOn_flatMap {ls : List (List α)} (h : ∀ l ∈ ls, sep ∉ l) :
    (ls.flatMap (· ++ [sep])).splitOn sep = ls ++ [[]] := by
  induction ls with
  | nil => simp
  | cons l ls ih =>
    rw [List.flatMap_cons, List.append_assoc, List.singleton_append,
      List.splitOn_append_cons_self_of_not_mem (h l (by simp)),
      ih fun l' hl' => h l' (by simp [hl'])]
    rfl

theorem closed_flatMap_and_last {ls : List (List α)} (h : ∀ l ∈ ls, sep ∉ l) :
    closed sep (ls.flatMap (· ++ [sep])) = ls ∧ last sep (ls.flatMap (· ++ [sep])) = [] := by
  have h' := splitOn_flatMap sep h
  rw [splitOn_eq_closed_append] at h'
  obtain ⟨h₁, h₂⟩ := List.append_inj' h' rfl
  exact ⟨h₁, List.singleton_inj.mp h₂⟩

end Lines
