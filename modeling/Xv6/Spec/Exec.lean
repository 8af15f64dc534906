import Xv6.Spec.Vm

/-! `exec.c`: `flags2perm`, and `exec` from the point where its two stack pages are
mapped at `[sz - 2*PGSIZE, sz)`: the argument strings and the `argv[]` array pushed onto
the stack page, and `p->trapframe->a1 = sp`.

The argument strings are the kernel copies `sys_exec` made with `fetchstr(uarg, argv[i],
PGSIZE)`: each is the bytes before its NUL, shorter than a page, and there are at most
`MAXARG - 1` of them. `sp` starts at `sz >= 2*PGSIZE` and never goes below
`stackbase - PGSIZE`, so its `uint64` subtractions do not wrap and are those of `ℕ`. -/

namespace Xv6

open ByteMem

def MAXARG : ℕ := 32

/-- The offset of `a1` in `struct trapframe`. -/
def TRAPFRAME_A1 : ℕ := 120

/-- `flags2perm(flags)`: the PTE bits for an ELF segment's flags; `PTE_R` and `PTE_U` are
added by `uvmalloc`. -/
def flags2perm (flags : ℕ) : ℕ :=
  let perm := if flags &&& 0x1 ≠ 0 then PTE_X else 0
  if flags &&& 0x2 ≠ 0 then perm ||| PTE_W else perm

/-- `sp -= sp % 16`. -/
def alignDown16 (sp : ℕ) : ℕ := sp - sp % 16

/-- The loop that pushes `argv[argc]`, `argv[argc + 1]`, ...: the stack pointer and
`ustack[0..argc)` when it ends, or `none` for `goto bad`. -/
def pushArgs (pagetable stackbase : ℕ) :
    List (List UInt8) → ℕ → ℕ → List ℕ → Phys → Except String (Option (ℕ × List ℕ) × Phys)
  | [], _, sp, ustack, m => return (some (sp, ustack), m)
  | arg :: argv, argc, sp, ustack, m =>
    if MAXARG ≤ argc then return (none, m)
    else
      let sp := alignDown16 (sp - (arg.length + 1))
      if sp < stackbase then return (none, m)
      else do
        let (r, m) ← copyout m pagetable sp (arg ++ [0])
        if r < 0 then return (none, m)
        else pushArgs pagetable stackbase argv (argc + 1) sp (ustack ++ [sp]) m

/-- `exec`'s lines from `sp = sz` to `p->trapframe->a1 = sp`: `argc` and `sp`, or `none`
for `goto bad`. `ustack[argc] = 0` ends the array, which is copied as `argc + 1` 64-bit
words. -/
def execStack (m : Phys) (pagetable sz trapframe : ℕ) (argv : List (List UInt8)) :
    Except String (Option (ℕ × ℕ) × Phys) := do
  let stackbase := sz - PGSIZE
  let (r, m) ← pushArgs pagetable stackbase argv 0 sz [] m
  match r with
  | none => return (none, m)
  | some (sp, ustack) =>
    let argc := ustack.length
    let sp := alignDown16 (sp - (argc + 1) * 8)
    if sp < stackbase then return (none, m)
    else do
      let (r, m) ← copyout m pagetable sp ((ustack ++ [0]).flatMap (leBytes 8))
      if r < 0 then return (none, m)
      else return (some (argc, sp), m.store (trapframe + TRAPFRAME_A1) sp)

end Xv6
