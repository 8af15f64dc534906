import Xv6.Spec.Machine
import Xv6.Spec.Vm

/-! The kernel with its memory: the process table of `Xv6.Machine` together with physical
memory, for the calls whose effect goes through user page tables. These are `wait` (the
status and message copies and `freeproc`), `sys_exit` (the message that `argstr` fetches),
`sys_get_cfs_stats`, and `sys_sbrk` with `growproc`. Each of the first three refines the
table-only step of `Xv6.Machine`: its effect on the table is that step's, for the outcome
its memory side produced. -/

namespace Xv6

open ByteMem

/-- The four bytes of an `int` as it lies in memory. -/
def intBytes (x : ℤ) : List UInt8 := leBytes 4 (x % 2 ^ 32).toNat

/-- An `int` stored into a `char`: its low byte. -/
def toChar (x : ℤ) : UInt8 := UInt8.ofNat (x % 256).toNat

/-- `char ans[4]` of `sys_get_cfs_stats`: the priority and the three counters of `p`. -/
def cfsStats (p : Proc) : List UInt8 := [toChar p.cfsPriority, toChar p.rtime, toChar p.stime, toChar p.retime]

structure Kernel where
  sys : Sys
  phys : Phys

namespace Kernel

/-- `freeproc(p)`: the trapframe page and the user page table go back to the allocator,
then the fields are reset. -/
def freeproc (k : Kernel) (i : Fin NPROC) : Except String Kernel := do
  let p := k.sys.proc i
  let m ← (if p.trapframe ≠ 0 then kfree k.phys p.trapframe else pure k.phys)
  let m ← (if p.pagetable ≠ 0 then procFreepagetable m p.pagetable p.sz else pure m)
  return { sys := k.sys.setProc i p.freed, phys := m }

/-- One scan of `wait(addr, p_exit_msg)`'s loop by `p`. The status is copied only for a
nonzero `addr`; the 32-byte message is copied to `p_exit_msg` whatever it is, and the
result of that copy is not looked at. -/
def wait (k : Kernel) (p : Fin NPROC) (addr pExitMsg : ℕ) : Except String (Option ℤ × Kernel) :=
  match zombieChild k.sys.proc p with
  | some i => do
    let pt := (k.sys.proc p).pagetable
    let pp := k.sys.proc i
    let (r, m) ← (if addr ≠ 0 then copyout k.phys pt addr (intBytes pp.xstate) else pure (0, k.phys))
    if r < 0 then return (some (-1), { k with phys := m })
    else
      let (_, m) ← copyout m pt pExitMsg pp.exitMsg.toList
      let k' ← freeproc { k with phys := m } i
      return (some pp.pid, k')
  | none => return ((Xv6.wait k.sys p true).1, { k with sys := (Xv6.wait k.sys p true).2 })

/-- `sys_exit()` by `p`: `argstr(1, msg, 32)` copies the user string at `addr` into the
stack buffer `char msg[32]`, whose other bytes are the `stale` ones, and its result is
ignored; then `exit(n, msg)`. -/
def sysExit (k : Kernel) (p : Fin NPROC) (n : ℤ) (addr : ℕ) (stale : ℕ → UInt8) :
    Except String Kernel := do
  let (_, stored) ← copyinstr k.phys (k.sys.proc p).pagetable addr 32
  if p = k.sys.initproc then throw "init exiting"
  else return { k with sys := exit k.sys p n (writeBytes stale 0 stored) }

/-- `sys_get_cfs_stats()`, by any caller: the counters of the process `getProc(pid)` finds,
whatever its state, copied through that process's own page table; the call returns 0
whatever the copy returns. -/
def sysGetCfsStats (k : Kernel) (pid : ℤ) (addr : ℕ) : Except String (ℤ × Kernel) :=
  match getProc k.sys.proc pid with
  | none => return (-1, k)
  | some i => do
    let (_, m) ← copyout k.phys (k.sys.proc i).pagetable addr (cfsStats (k.sys.proc i))
    return (0, { k with phys := m })

/-- `growproc(n)` by `p`: `0` and the process at its new size, or `-1`. The target
`sz + n` is computed in `uint64`, the `int` `n` sign-extended. -/
def growproc (k : Kernel) (p : Fin NPROC) (n : ℤ) : Except String (ℤ × Kernel) :=
  let q := k.sys.proc p
  let target := (((q.sz : ℤ) + n) % 2 ^ 64).toNat
  let set (sz : ℕ) (m : Phys) : Kernel := { sys := k.sys.setProc p { q with sz := sz }, phys := m }
  if 0 < n then do
    let (sz, m) ← uvmalloc k.phys q.pagetable q.sz target PTE_W
    if sz = 0 then return (-1, { k with phys := m }) else return (0, set sz m)
  else if n < 0 then do
    let (sz, m) ← uvmdealloc k.phys q.pagetable q.sz target
    return (0, set sz m)
  else return (0, set q.sz k.phys)

/-- `sys_sbrk()` by `p` with `argint(0, &n)` giving `n`: the old size, or `-1` as a
`uint64`. -/
def sysSbrk (k : Kernel) (p : Fin NPROC) (n : ℤ) : Except String (ℕ × Kernel) := do
  let addr := (k.sys.proc p).sz
  let (r, k) ← growproc k p n
  if r < 0 then return (2 ^ 64 - 1, k) else return (addr, k)

/-! ## Refinement of the table-only steps -/

theorem freeproc_sys {k k' : Kernel} {i : Fin NPROC} (h : freeproc k i = .ok k') :
    k'.sys = k.sys.setProc i (k.sys.proc i).freed := by
  unfold freeproc at h
  obtain ⟨m₁, -, h⟩ := Except.bind_eq_ok.mp h
  obtain ⟨m₂, -, h⟩ := Except.bind_eq_ok.mp h
  cases h
  rfl

/-- `wait` with memory does to the table what the table-only `wait` does, for the outcome
of its status copy. -/
theorem wait_refines {k k' : Kernel} {p : Fin NPROC} {addr msg : ℕ} {r : Option ℤ}
    (h : wait k p addr msg = .ok (r, k')) : ∃ copyOk, Xv6.wait k.sys p copyOk = (r, k'.sys) := by
  unfold wait at h
  cases hz : zombieChild k.sys.proc p with
  | none =>
    rw [hz] at h
    cases h
    exact ⟨true, rfl⟩
  | some i =>
    simp only [hz] at h
    obtain ⟨⟨r₁, m₁⟩, -, h⟩ := Except.bind_eq_ok.mp h
    dsimp only at h
    by_cases hr : r₁ < 0
    · -- the status copy failed: `-1`, and the child stays a zombie
      simp only [hr, if_true] at h
      cases h
      exact ⟨false, by simp [Xv6.wait, hz]⟩
    · simp only [hr, if_false] at h
      obtain ⟨⟨_, m₂⟩, -, h⟩ := Except.bind_eq_ok.mp h
      dsimp only at h
      obtain ⟨k₂, hfree, h⟩ := Except.bind_eq_ok.mp h
      cases h
      exact ⟨true, by simp [Xv6.wait, hz, freeproc_sys hfree]⟩

theorem sysExit_refines {k k' : Kernel} {p : Fin NPROC} {n : ℤ} {addr : ℕ} {stale : ℕ → UInt8}
    (h : sysExit k p n addr stale = .ok k') :
    p ≠ k.sys.initproc ∧ ∃ msg, k'.sys = exit k.sys p n msg ∧ k'.phys = k.phys := by
  unfold sysExit at h
  obtain ⟨⟨_, stored⟩, -, h⟩ := Except.bind_eq_ok.mp h
  dsimp only at h
  by_cases hp : p = k.sys.initproc
  · simp only [hp, if_true] at h
    cases h
  · simp only [hp, if_false] at h
    cases h
    exact ⟨hp, _, rfl, rfl⟩

end Kernel

end Xv6
