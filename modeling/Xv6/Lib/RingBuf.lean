import Mathlib.Tactic

/-! A ring of `N` cells addressed by a free-running `UInt32` counter: counter value `i` is
cell `i % N`. When `N` divides `2 ^ 32` the wrap of the counter keeps consecutive values in
consecutive cells, so fewer than `N` cells from counter `i` on are distinct and read as a
list: writing a cell past them keeps the list, writing the next one extends it, and moving
`i` on drops its head. -/

namespace RingBuf

variable {α : Type*} {N : ℕ} [NeZero N]

/-- The cell of counter value `i`. -/
def cell (N : ℕ) [NeZero N] (i : UInt32) : Fin N := ⟨i.toNat % N, Nat.mod_lt _ (Nat.pos_of_neZero N)⟩

/-- The `k` cells from counter `i` on. -/
def view (buf : Fin N → α) (i : UInt32) (k : ℕ) : List α :=
  (List.range k).map fun j => buf (cell N (i + UInt32.ofNat j))

@[simp] theorem length_view (buf : Fin N → α) (i : UInt32) (k : ℕ) : (view buf i k).length = k := by
  simp [view]

@[simp] theorem view_zero (buf : Fin N → α) (i : UInt32) : view buf i 0 = [] := rfl

theorem view_succ (buf : Fin N → α) (i : UInt32) (k : ℕ) :
    view buf i (k + 1) = view buf i k ++ [buf (cell N (i + UInt32.ofNat k))] := by
  simp [view, List.range_succ]

theorem dropLast_view (buf : Fin N → α) (i : UInt32) (k : ℕ) : (view buf i (k + 1)).dropLast = view buf i k := by
  rw [view_succ, List.dropLast_concat]

theorem view_add (buf : Fin N → α) (i : UInt32) (a b : ℕ) :
    view buf i (a + b) = view buf i a ++ view buf (i + UInt32.ofNat a) b := by
  simp only [view, List.range_add, List.map_append, List.map_map]
  congr 1
  apply List.map_congr_left
  intro j _
  simp only [Function.comp_apply]
  congr 2
  rw [← UInt32.toNat_inj, UInt32.toNat_add, UInt32.toNat_add, UInt32.toNat_add, UInt32.toNat_ofNat',
    UInt32.toNat_ofNat', UInt32.toNat_ofNat']
  omega

theorem view_succ_head (buf : Fin N → α) (i : UInt32) (k : ℕ) :
    view buf i (k + 1) = buf (cell N i) :: view buf (i + 1) k := by
  rw [Nat.add_comm, view_add]
  simp [view]

section Dvd

variable (hN : N ∣ 2 ^ 32)
include hN

theorem cell_add_val (i : UInt32) (j : ℕ) : (cell N (i + UInt32.ofNat j)).val = (i.toNat + j) % N := by
  simp only [cell, UInt32.toNat_add, UInt32.toNat_ofNat']
  rw [Nat.mod_mod_of_dvd _ hN, Nat.add_mod, Nat.mod_mod_of_dvd _ hN, ← Nat.add_mod]

theorem cell_add_ne (i : UInt32) {j m : ℕ} (hjm : j ≠ m) (hj : j < N) (hm : m < N) :
    cell N (i + UInt32.ofNat j) ≠ cell N (i + UInt32.ofNat m) := by
  intro h
  have := congrArg Fin.val h
  rw [cell_add_val hN, cell_add_val hN] at this
  have hi := Nat.mod_lt i.toNat (Nat.pos_of_neZero N)
  rcases Nat.lt_or_gt_of_ne hjm with hlt | hlt
  · have := Nat.ModEq.add_left_cancel' i.toNat this
    rw [Nat.ModEq, Nat.mod_eq_of_lt hj, Nat.mod_eq_of_lt hm] at this
    omega
  · have := Nat.ModEq.add_left_cancel' i.toNat this
    rw [Nat.ModEq, Nat.mod_eq_of_lt hj, Nat.mod_eq_of_lt hm] at this
    omega

theorem view_update_of_le (buf : Fin N → α) (i : UInt32) {k m : ℕ} (hkm : k ≤ m) (hm : m < N) (v : α) :
    view (Function.update buf (cell N (i + UInt32.ofNat m)) v) i k = view buf i k := by
  apply List.map_congr_left
  intro j hj
  rw [List.mem_range] at hj
  exact Function.update_of_ne (cell_add_ne hN i (by omega) (by omega) hm) _ _

theorem view_update_succ (buf : Fin N → α) (i : UInt32) {k : ℕ} (hk : k < N) (v : α) :
    view (Function.update buf (cell N (i + UInt32.ofNat k)) v) i (k + 1) = view buf i k ++ [v] := by
  rw [view_succ, view_update_of_le hN buf i le_rfl hk, Function.update_self]

end Dvd

end RingBuf
