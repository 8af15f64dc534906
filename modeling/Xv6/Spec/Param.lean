import Mathlib.Tactic

/-! The constants of `param.h`, `riscv.h`, `memlayout.h` and `fs.h` that the model reads,
and the C integer conversions the kernel relies on (`int` arithmetic wraps at 32 bits,
`long long` at 64, and RISC-V `divw` returns `-1` on a zero divisor). -/

namespace Xv6

def NPROC : ℕ := 64
def NCPU : ℕ := 8

instance : NeZero NPROC := ⟨by decide⟩
instance : NeZero NCPU := ⟨by decide⟩
def MAXOPBLOCKS : ℕ := 10
def LOGSIZE : ℕ := MAXOPBLOCKS * 3
def NBUF : ℕ := MAXOPBLOCKS * 3
def FSSIZE : ℕ := 2000

def PGSIZE : ℕ := 4096
def MAXVA : ℕ := 2 ^ (9 + 9 + 9 + 12 - 1)
def TRAMPOLINE : ℕ := MAXVA - PGSIZE
def TRAPFRAME : ℕ := TRAMPOLINE - PGSIZE
def KERNBASE : ℕ := 0x80000000
def PHYSTOP : ℕ := KERNBASE + 128 * 1024 * 1024

def PTE_V : ℕ := 1
def PTE_R : ℕ := 2
def PTE_W : ℕ := 4
def PTE_X : ℕ := 8
def PTE_U : ℕ := 16

def BSIZE : ℕ := 1024

def PGROUNDUP (sz : ℕ) : ℕ := (sz + PGSIZE - 1) / PGSIZE * PGSIZE
def PGROUNDDOWN (a : ℕ) : ℕ := a / PGSIZE * PGSIZE

/-- `PX(level, va)`: the nine index bits of `va` for page-table level `level`. -/
def PX (level va : ℕ) : ℕ := va / 2 ^ (12 + 9 * level) % 512
def PA2PTE (pa : ℕ) : ℕ := pa / 2 ^ 12 * 2 ^ 10
def PTE2PA (pte : ℕ) : ℕ := pte / 2 ^ 10 * 2 ^ 12
def PTE_FLAGS (pte : ℕ) : ℕ := pte % 0x400

/-- The value of a two's-complement `w`-bit register holding `x`. -/
def wrap (w : ℕ) (x : ℤ) : ℤ := (x + 2 ^ (w - 1)) % 2 ^ w - 2 ^ (w - 1)

/-- `int` arithmetic: the low 32 bits, read as signed. -/
def int32 (x : ℤ) : ℤ := wrap 32 x
/-- `long long` arithmetic: the low 64 bits, read as signed. -/
def int64 (x : ℤ) : ℤ := wrap 64 x

/-- Signed division as `divw` computes it: truncated, and `-1` for a zero divisor. -/
def divw (a b : ℤ) : ℤ := if b = 0 then -1 else int32 (a.tdiv b)

theorem wrap_of_range {w : ℕ} {x : ℤ} (h1 : -2 ^ (w - 1) ≤ x) (h2 : x < 2 ^ (w - 1))
    (hw : 0 < w) : wrap w x = x := by
  have hp : (2 : ℤ) ^ w = 2 * 2 ^ (w - 1) := by
    rw [← pow_succ']; congr 1; omega
  unfold wrap
  rw [Int.emod_eq_of_lt (by omega) (by omega)]
  ring

theorem int32_of_range {x : ℤ} (h1 : -2 ^ 31 ≤ x) (h2 : x < 2 ^ 31) : int32 x = x :=
  wrap_of_range h1 h2 (by norm_num)

theorem int32_lt (x : ℤ) : int32 x < 2 ^ 31 := by
  have := Int.emod_lt_of_pos (x + 2 ^ 31) (by norm_num : (0 : ℤ) < 2 ^ 32)
  simp only [int32, wrap]
  omega

end Xv6
