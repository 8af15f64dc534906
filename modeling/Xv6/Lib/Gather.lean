import Mathlib.Data.List.FinRange
import Mathlib.Data.List.Perm.Basic
import Mathlib.Data.List.Nodup
import Mathlib.Data.List.Pairwise

/-! Lists gathered from a table: `gather g F` collects `F (g a)` over every slot `a` of a
table `g : Fin n → α`, in slot order. An ownership invariant says that the parts the slots
hold are disjoint, and that together they are the resource; a change to one slot changes
the gathered list by that slot's part only. -/

namespace Gather

variable {n : ℕ} {α α' β β' : Type*}

def gather (g : Fin n → α) (F : α → List β) : List β := (List.finRange n).flatMap fun a => F (g a)

theorem mem_gather {g : Fin n → α} {F : α → List β} {x : β} : x ∈ gather g F ↔ ∃ a, x ∈ F (g a) := by
  simp [gather]

theorem gather_eq_nil {g : Fin n → α} {F : α → List β} (h : ∀ a, F (g a) = []) : gather g F = [] := by
  simp [gather, h]

theorem flatMap_perm_of_eq_off {g : Fin n → α} {g' : Fin n → α'} {F : α → List β} {F' : α' → List β} {p : Fin n}
    (h : ∀ a, a ≠ p → F' (g' a) = F (g a)) :
    ∀ (l : List (Fin n)), l.Nodup → p ∈ l →
      (l.flatMap (fun a => F' (g' a)) ++ F (g p)).Perm (l.flatMap (fun a => F (g a)) ++ F' (g' p))
  | [], _, hp => absurd hp List.not_mem_nil
  | a :: l, hl, hp => by
    rw [List.nodup_cons] at hl
    simp only [List.flatMap_cons, List.append_assoc]
    by_cases hap : a = p
    · -- the changed slot: the rest of the list is the same on both sides
      subst hap
      have hrest : l.flatMap (fun a => F' (g' a)) = l.flatMap (fun a => F (g a)) :=
        List.flatMap_congr fun x hx => h x fun e => hl.1 (e ▸ hx)
      rw [hrest]
      calc List.Perm (F' (g' a) ++ ((l.flatMap fun a => F (g a)) ++ F (g a)))
            ((l.flatMap fun a => F (g a)) ++ F (g a) ++ F' (g' a)) := List.perm_append_comm
        _ = _ := rfl
        List.Perm _ (F (g a) ++ (l.flatMap fun a => F (g a)) ++ F' (g' a)) :=
          List.perm_append_comm.append_right _
        _ = F (g a) ++ ((l.flatMap fun a => F (g a)) ++ F' (g' a)) := List.append_assoc _ _ _
    · rw [h a hap]
      exact (flatMap_perm_of_eq_off h l hl.2 ((List.mem_cons.mp hp).resolve_left (Ne.symm hap))).append_left _

theorem perm_of_eq_off (g : Fin n → α) (g' : Fin n → α') (F : α → List β) (F' : α' → List β) (p : Fin n)
    (h : ∀ a, a ≠ p → F' (g' a) = F (g a)) :
    (gather g' F' ++ F (g p)).Perm (gather g F ++ F' (g' p)) :=
  flatMap_perm_of_eq_off h _ (List.nodup_finRange n) (List.mem_finRange p)

theorem perm_update (g : Fin n → α) (F : α → List β) (p : Fin n) (v : α) [DecidableEq (Fin n)] :
    (gather (Function.update g p v) F ++ F (g p)).Perm (gather g F ++ F v) := by
  have := perm_of_eq_off g (Function.update g p v) F F p fun a ha => by rw [Function.update_of_ne ha]
  rwa [Function.update_self] at this

theorem owner_unique {g : Fin n → α} {F : α → List β} (h : (gather g F).Nodup) {x : β} {a b : Fin n}
    (ha : x ∈ F (g a)) (hb : x ∈ F (g b)) : a = b := by
  by_contra hab
  rw [gather, List.nodup_flatMap] at h
  have : Std.Symm (Function.onFun List.Disjoint fun a => F (g a)) := ⟨fun _ _ hd _ ha hb => hd hb ha⟩
  exact h.2.forall (List.mem_finRange a) (List.mem_finRange b) hab ha hb

theorem nodup_gather_iff {g : Fin n → α} {F : α → List β} :
    (gather g F).Nodup ↔ (∀ a, (F (g a)).Nodup) ∧ ∀ a b, a ≠ b → (F (g a)).Disjoint (F (g b)) := by
  rw [gather, List.nodup_flatMap]
  have : Std.Symm (Function.onFun List.Disjoint fun a => F (g a)) := ⟨fun _ _ hd _ ha hb => hd hb ha⟩
  constructor
  · rintro ⟨hn, hp⟩
    exact ⟨fun a => hn a (List.mem_finRange a),
      fun a b hab => hp.forall (List.mem_finRange a) (List.mem_finRange b) hab⟩
  · rintro ⟨hn, hd⟩
    exact ⟨fun a _ => hn a, (List.nodup_finRange n).pairwise_of_forall_ne fun a _ b _ hab => hd a b hab⟩

/-- Giving slot `p` a part without repeats that no other slot shares keeps the gathered list
without repeats. -/
theorem nodup_gather_update [DecidableEq (Fin n)] {g : Fin n → α} {F : α → List β} {p : Fin n} {v : α}
    (h : (gather g F).Nodup) (hv : (F v).Nodup) (hfresh : ∀ a, a ≠ p → (F v).Disjoint (F (g a))) :
    (gather (Function.update g p v) F).Nodup := by
  obtain ⟨hn, hd⟩ := nodup_gather_iff.mp h
  refine nodup_gather_iff.mpr ⟨fun a => ?_, fun a b hab => ?_⟩
  · by_cases ha : a = p
    · subst ha
      simpa using hv
    · simpa [Function.update_of_ne ha] using hn a
  · by_cases ha : a = p
    · subst ha
      simpa [Function.update_of_ne (Ne.symm hab)] using hfresh b (Ne.symm hab)
    · by_cases hb : b = p
      · subst hb
        rw [Function.update_of_ne ha, Function.update_self]
        exact fun x hx hx' => hfresh a ha hx' hx
      · simpa [Function.update_of_ne ha, Function.update_of_ne hb] using hd a b hab

theorem length_gather_le {g : Fin n → α} {F : α → List β} {F' : α → List β'} {k : ℕ}
    (h : ∀ a, k * (F (g a)).length ≤ (F' (g a)).length) : k * (gather g F).length ≤ (gather g F').length := by
  unfold gather
  induction List.finRange n with
  | nil => simp
  | cons a l ih =>
    simp only [List.flatMap_cons, List.length_append, Nat.mul_add]
    have := h a
    omega

end Gather
