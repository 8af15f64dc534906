import Xv6.Spec.Kernel

/-! Growing and shrinking user memory. `uvmalloc` reports failure with `0`, a value that
its success also returns when there is nothing to map from size `0`. `growproc` forms the
target size `sz + n` in `uint64`: a shrink by more than `sz` wraps above `sz`, which
`uvmdealloc` reads as nothing to free, and `sys_sbrk` reports success. -/

namespace Xv6

/-- From size `0` to size `0` there is no page to map: `uvmalloc` succeeds without changing
memory and returns `newsz`, which is `0`. -/
theorem uvmalloc_zero (m : Phys) (pagetable xperm : ℕ) : uvmalloc m pagetable 0 0 xperm = .ok (0, m) := by
  simp [uvmalloc, uvmallocLoop, PGROUNDUP, PGSIZE]

theorem uvmdealloc_of_le {m : Phys} {pagetable oldsz newsz : ℕ} (h : oldsz ≤ newsz) :
    uvmdealloc m pagetable oldsz newsz = .ok (oldsz, m) := by
  simp [uvmdealloc, h]

namespace Kernel

/-- `sbrk(n)` with `n < -sz` returns the old size, as a success, and leaves the process
and memory as they were, its size `sz` and not `sz + n`. -/
theorem sbrk_wraps (k : Kernel) (p : Fin NPROC) (n : ℤ) (hn : -2 ^ 31 ≤ n)
    (hbelow : (k.sys.proc p).sz + n < 0) : sysSbrk k p n = .ok ((k.sys.proc p).sz, k) := by
  have hneg : n < 0 := by omega
  -- the target wraps to `2 ^ 64 + sz + n`, above `sz`
  have hwrap : (k.sys.proc p).sz ≤ ((((k.sys.proc p).sz : ℤ) + n) % 2 ^ 64).toNat := by
    rw [Int.emod_eq_add_self_emod, Int.emod_eq_of_lt (by omega) (by omega)]
    omega
  have hset : ({ sys := k.sys.setProc p { k.sys.proc p with sz := (k.sys.proc p).sz }, phys := k.phys } : Kernel) = k := by
    simp [Sys.setProc]
  simp only [sysSbrk, growproc, hneg, not_lt_of_gt hneg, if_false, if_true, uvmdealloc_of_le hwrap,
    Except.ok_bind, hset]
  rfl

/-- `init` with one page of user memory. -/
def onePage : Kernel :=
  { sys := boot.setProc 0 { boot.proc 0 with sz := PGSIZE }, phys := { mem := fun _ => 0, freelist := 0, kend := 0 } }

/-- `sbrk(-8192)` by a process of one page returns `4096` and leaves it one page large. -/
theorem sbrk_wraps_onePage :
    (-2 ^ 31 ≤ (-8192 : ℤ) ∧ ((onePage.sys.proc 0).sz : ℤ) + -8192 < 0) ∧
      sysSbrk onePage 0 (-8192) = .ok ((onePage.sys.proc 0).sz, onePage) :=
  ⟨⟨by norm_num, by norm_num [onePage, Sys.setProc, PGSIZE]⟩,
    sbrk_wraps onePage 0 (-8192) (by norm_num) (by norm_num [onePage, Sys.setProc, PGSIZE])⟩

end Kernel

end Xv6
