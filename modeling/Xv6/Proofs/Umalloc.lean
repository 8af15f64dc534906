import Xv6.Spec.Umalloc

/-! Requests near `2 ^ 32` bytes. `malloc` computes its unit count in 64-bit arithmetic,
which is right, but `morecore` passes `nu * sizeof(Header)` to `sbrk`'s `int` parameter. For
`nbytes >= 2 ^ 32 - 15` that is `(2 ^ 28 + 1) * 16`, which the conversion to `int` makes 16:
the heap grows by one header, the new block's header claims `2 ^ 28 + 1` units, and `malloc`
returns that block, which starts at the new break. -/

namespace Xv6

open UHeap

theorem free_first (fuel : ℕ) (h : UHeap) (bp : ℕ) (hf : h.freep = h.base) (hb : h.mem h.base = ⟨h.base, 0⟩)
    (hlt : h.base < bp) :
    free (fuel + 1) h (bp + HDRSZ) = some { (h.setPtr bp h.base).setPtr h.base bp with freep := h.base } := by
  have hne : h.base ≠ bp := Nat.ne_of_lt hlt
  have hfind : freeFind h bp (fuel + 1) h.base = some h.base := by
    simp [freeFind, hb, hlt]
  have hjoin : bp + HDRSZ * (h.mem bp).size ≠ h.base := by omega
  simp only [free, Nat.add_sub_cancel, hf, hfind]
  simp [hjoin, hne, hb]

/-- The unit count of a request of `2 ^ 32 - 15` bytes or more. -/
theorem nunits_huge {nbytes : ℕ} (h1 : 2 ^ 32 - 15 ≤ nbytes) (h2 : nbytes < 2 ^ 32) :
    (nbytes + HDRSZ - 1) / HDRSZ + 1 = 2 ^ 28 + 1 := by
  simp only [HDRSZ]
  omega

theorem morecore_arg_huge : int32 (((2 ^ 28 + 1 : ℕ) : ℤ) * (HDRSZ : ℤ)) = 16 := by decide

/-- On a heap with no free list yet, whose `base` lies below the break, and for any `sbrk`
that grants 16 bytes when asked for them, `malloc` of `2 ^ 32 - 15` bytes or more returns the
new break itself: the block it hands out lies wholly outside the memory `sbrk` gave, although
its header claims `2 ^ 28 + 1` units, room for the request. -/
theorem malloc_huge_past_break (sbrk : ℕ → ℤ → ℕ × ℕ) (h : UHeap) (nbytes fuel : ℕ)
    (h1 : 2 ^ 32 - 15 ≤ nbytes) (h2 : nbytes < 2 ^ 32) (hfresh : h.freep = 0) (hbase : 0 < h.base)
    (hbrk : h.base < h.brk) (hmax : h.brk < 2 ^ 64 - 1) (hsbrk : sbrk h.brk 16 = (h.brk, h.brk + 16)) :
    ∃ h', malloc sbrk (fuel + 2) h nbytes = some (h.brk + HDRSZ, h') ∧ h'.brk = h.brk + HDRSZ ∧
      (h'.mem h.brk).size = 2 ^ 28 + 1 ∧ nbytes ≤ ((h'.mem h.brk).size - 1) * HDRSZ := by
  have hne : h.brk ≠ h.base := Nat.ne_of_gt hbrk
  have hsb : h.brk ≠ 2 ^ 64 - 1 := Nat.ne_of_lt hmax
  let h₀ : UHeap := { h with mem := Function.update h.mem h.base ⟨h.base, 0⟩, freep := h.base }
  have hstart : malloc sbrk (fuel + 2) h nbytes = mallocLoop sbrk (2 ^ 28 + 1) (fuel + 2) h₀ h.base h.base := by
    simp only [malloc, nunits_huge h1 h2, hfresh, if_true, Function.update_self]
    rfl
  let h₁ : UHeap := { h₀ with brk := h.brk + 16 }
  let h₂ : UHeap :=
    { ((h₁.setSize h.brk (2 ^ 28 + 1)).setPtr h.brk h.base).setPtr h.base h.brk with freep := h.base }
  have hmore : morecore sbrk (fuel + 1) h₀ (2 ^ 28 + 1) = some (h.base, h₂) := by
    have hfree := free_first fuel (h₁.setSize h.brk (2 ^ 28 + 1)) h.brk rfl (by simp [h₁, h₀, hne.symm]) hbrk
    have hbig : ¬(2 ^ 28 + 1 : ℕ) < 4096 := by norm_num
    have hsbrk' : sbrk h₀.brk (int32 (((2 ^ 28 + 1 : ℕ) : ℤ) * (HDRSZ : ℤ))) = (h.brk, h.brk + 16) := by
      rw [morecore_arg_huge]
      exact hsbrk
    simp only [morecore, hbig, if_false, hsbrk', hsb]
    rw [hfree]
    rfl
  have hloop : mallocLoop sbrk (2 ^ 28 + 1) (fuel + 2) h₀ h.base h.base =
      mallocLoop sbrk (2 ^ 28 + 1) (fuel + 1) h₂ h.base h.brk := by
    have hb0 : h.base ≠ 0 := Nat.ne_of_gt hbase
    have hmem : h₀.mem h.base = ⟨h.base, 0⟩ := Function.update_self _ _ _
    have hptr : (h₂.mem h.base).ptr = h.brk := by simp [h₂]
    have hsmall : ¬2 ^ 28 + 1 ≤ (h₀.mem h.base).size := by simp [hmem]
    rw [mallocLoop, if_neg hsmall, if_pos (show h.base = h₀.freep from rfl), hmore]
    simp only [hb0, if_false, hptr]
  have htake : (h₂.mem h.brk).size = 2 ^ 28 + 1 := by simp [h₂, h₁, hne]
  let h₃ : UHeap := { h₂.setPtr h.base (h₂.mem h.brk).ptr with freep := h.base }
  have hlast : mallocLoop sbrk (2 ^ 28 + 1) (fuel + 1) h₂ h.base h.brk = some (h.brk + HDRSZ, h₃) := by
    rw [mallocLoop, if_pos htake.symm.le, if_pos htake]
  have hsize : (h₃.mem h.brk).size = 2 ^ 28 + 1 := by simp [h₃, hne, htake]
  refine ⟨h₃, hstart.trans (hloop.trans hlast), rfl, hsize, ?_⟩
  rw [hsize, HDRSZ]
  omega

/-- An `sbrk` that grants every request. -/
def grantSbrk (brk : ℕ) (n : ℤ) : ℕ × ℕ := (brk, (brk + n).toNat)

/-- A program with `base` at `0x1000` and its break at `0x4000` that has not called `malloc`. -/
def freshHeap : UHeap := { mem := fun _ => ⟨0, 0⟩, base := 0x1000, freep := 0, brk := 0x4000 }

theorem malloc_huge_past_break_fresh :
    ∃ h', malloc grantSbrk 2 freshHeap (2 ^ 32 - 1) = some (0x4010, h') ∧ h'.brk = 0x4010 ∧
      (h'.mem 0x4000).size = 2 ^ 28 + 1 := by
  obtain ⟨h', hm, hb, hs, -⟩ := malloc_huge_past_break grantSbrk freshHeap (2 ^ 32 - 1) 0 (by norm_num)
    (by norm_num) rfl (by decide) (by decide) (by decide) rfl
  exact ⟨h', hm, hb, hs⟩

end Xv6
