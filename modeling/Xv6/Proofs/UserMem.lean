import Xv6.Spec.Kernel

/-! User memory through the calls of `Xv6.Kernel`.

`sys_exit` fetches the message with `argstr(1, msg, 32)` into an uninitialised stack
buffer and ignores its result, and `exit` copies it with `strncpy(p->exit_msg, msg, 32)`:
a string of 32 bytes or more leaves a message with no NUL. `wait` copies the message to
`p_exit_msg` even when it is 0, so `wait(0, 0)` writes over the caller's first user page. `sys_get_cfs_stats` finds a process
by pid alone, UNUSED slots included, and copies through that process's page table: for pid
0 the table is null, and the call returns 0 or panics where it should return -1. -/

namespace Xv6

open ByteMem

/-! ## Exit messages -/

theorem writeBytes_string (stale s : ℕ → UInt8) (addr : ℕ) {i : ℕ} (hi : i < 32) :
    writeBytes stale 0 ((List.range 32).map fun j => s (addr + j)) i = s (addr + i) := by
  have h : writeBytes stale 0 ((List.range 32).map fun j => s (addr + j)) (0 + i) =
      ((List.range 32).map fun j => s (addr + j)).getD i 0 := writeBytes_add (by simpa using hi)
  rw [Nat.zero_add] at h
  rw [h]
  simp [List.getD_eq_getElem?_getD, hi]

/-- A user string whose first 32 bytes are readable and not NUL becomes an exit message
of exactly those 32 bytes: no NUL ends it. -/
theorem exit_msg_unterminated (k : Kernel) (p : Fin NPROC) (n : ℤ) (addr : ℕ)
    (stale s : ℕ → UInt8) (hp : p ≠ k.sys.initproc)
    (hs : ∀ j < 32, uread k.phys (k.sys.proc p).pagetable (addr + j) = some (s (addr + j)) ∧
      s (addr + j) ≠ 0) :
    ∃ k', Kernel.sysExit k p n addr stale = .ok k' ∧
      (k'.sys.proc p).exitMsg = Vector.ofFn fun j => s (addr + j) := by
  -- `copyinstr` runs out of its 32 bytes before it meets a NUL
  have hnz : ∀ b ∈ (List.range 32).map (fun j => s (addr + j)), b ≠ 0 := by
    simp only [List.mem_map, List.mem_range]
    rintro b ⟨j, hj, rfl⟩
    exact (hs j hj).2
  have hcopy : copyinstr k.phys (k.sys.proc p).pagetable addr 32 =
      .ok (-1, (List.range 32).map fun j => s (addr + j)) := by
    rw [copyinstr, copyinstrLoop_readable s 33 addr 32 (by omega) fun j hj => (hs j hj).1]
    simp [copyinstrResult, copyinstrPage_of_ne_zero hnz]
  have hexit : Kernel.sysExit k p n addr stale =
      .ok { k with sys := exit k.sys p n (writeBytes stale 0 ((List.range 32).map fun j => s (addr + j))) } := by
    simp [Kernel.sysExit, hcopy, hp]
  refine ⟨_, hexit, ?_⟩
  rw [exit_exitMsg]
  congr 1
  funext j
  -- `strncpy` copies all 32 bytes, since none of them is NUL
  have hall : j.val < 32 ∧ ∀ i ≤ j.val,
      writeBytes stale 0 ((List.range 32).map fun j => s (addr + j)) i ≠ 0 := by
    refine ⟨j.isLt, fun i hi => ?_⟩
    rw [writeBytes_string stale s addr (by omega)]
    exact (hs i (by omega)).2
  rw [getD_strncpy, if_pos hall, writeBytes_string stale s addr j.isLt]

/-! ## A machine with two processes

`init` in slot 0 and its child, pid 2, in slot 1, each with the page table that
`proc_pagetable` and one user page give: the user page at virtual address 0, the
trapframe, and the trampoline. The image of a process takes seven pages from `root`: the
root table, the two tables on the way to address 0, the two on the way to the trampoline,
the user page and the trapframe. -/

def trampolinePA : ℕ := KERNBASE + 0x1000

def imageTable (m : ℕ → UInt8) (root : ℕ) : ℕ → UInt8 :=
  let pte (pa flags : ℕ) : ℕ := PA2PTE pa ||| flags
  let m := writeWord m (root + 8 * PX 2 0) 8 (pte (root + PGSIZE) PTE_V)
  let m := writeWord m (root + PGSIZE + 8 * PX 1 0) 8 (pte (root + 2 * PGSIZE) PTE_V)
  let m := writeWord m (root + 2 * PGSIZE + 8 * PX 0 0) 8
    (pte (root + 5 * PGSIZE) (PTE_R ||| PTE_W ||| PTE_X ||| PTE_U ||| PTE_V))
  let m := writeWord m (root + 8 * PX 2 TRAMPOLINE) 8 (pte (root + 3 * PGSIZE) PTE_V)
  let m := writeWord m (root + 3 * PGSIZE + 8 * PX 1 TRAMPOLINE) 8 (pte (root + 4 * PGSIZE) PTE_V)
  let m := writeWord m (root + 4 * PGSIZE + 8 * PX 0 TRAMPOLINE) 8
    (pte trampolinePA (PTE_R ||| PTE_X ||| PTE_V))
  writeWord m (root + 4 * PGSIZE + 8 * PX 0 TRAPFRAME) 8
    (pte (root + 6 * PGSIZE) (PTE_R ||| PTE_W ||| PTE_V))

def initRoot : ℕ := 0x87f00000
def childRoot : ℕ := 0x87e00000

/-- The child's string at its address `0x100`: forty letters, `abc...`. -/
def longMsg : List UInt8 := (List.range 40).map fun j => UInt8.ofNat (97 + j % 26)

/-- `init`'s user page holds code (`0x13` bytes); the child's holds `longMsg` at `0x100`. -/
def twoProcMem : ℕ → UInt8 :=
  let m := fill (fun _ => 0) (initRoot + 5 * PGSIZE) PGSIZE 0x13
  let m := writeBytes m (childRoot + 5 * PGSIZE + 0x100) longMsg
  imageTable (imageTable m initRoot) childRoot

def initRunning : Proc :=
  { initProc with state := .running, pagetable := initRoot, sz := PGSIZE,
                  trapframe := initRoot + 6 * PGSIZE }

def childProc (st : Procstate) (msg : Vector UInt8 32) : Proc :=
  { initProc with pid := 2, parent := some 0, state := st, pagetable := childRoot, sz := PGSIZE,
                  trapframe := childRoot + 6 * PGSIZE, exitMsg := msg }

def twoProcs (child : Proc) : Kernel where
  sys := { boot with proc := Function.update (Function.update boot.proc 0 initRunning) 1 child,
                     nextpid := 3 }
  phys := { mem := twoProcMem, freelist := 0, kend := KERNBASE + 0x100000 }

/-- The child runs and is about to call `exit(0, (char *) 0x100)`. -/
def exitState : Kernel := twoProcs (childProc .running (Vector.replicate 32 0))

/-- The byte of the child's string at user address `va`. -/
def longByte (va : ℕ) : UInt8 := longMsg.getD (va - 0x100) 0

theorem exit_msg_unterminated_long :
    (1 : Fin NPROC) ≠ exitState.sys.initproc ∧
    (∀ j < 32, uread exitState.phys (exitState.sys.proc 1).pagetable (0x100 + j) =
      some (longByte (0x100 + j)) ∧ longByte (0x100 + j) ≠ 0) ∧
    ∃ k', Kernel.sysExit exitState 1 0 0x100 (fun _ => 0) = .ok k' ∧
      (k'.sys.proc 1).exitMsg = Vector.ofFn fun j => longByte (0x100 + j) := by
  have hp : (1 : Fin NPROC) ≠ exitState.sys.initproc := by decide
  have hs : ∀ j < 32, uread exitState.phys (exitState.sys.proc 1).pagetable (0x100 + j) =
      some (longByte (0x100 + j)) ∧ longByte (0x100 + j) ≠ 0 := by decide
  exact ⟨hp, hs, exit_msg_unterminated exitState 1 0 0x100 (fun _ => 0) longByte hp hs⟩

/-! ## `wait(0, 0)` -/

/-- `"done"`, the message the child left. -/
def doneMsg : List UInt8 := [100, 111, 110, 101]

/-- The child has exited with message `"done"`; `init` calls `wait(0, 0)`. -/
def waitState : Kernel := twoProcs (childProc .zombie (Vector.ofFn fun j => doneMsg.getD j 0))

/-- `wait(0, 0)` reaping a zombie child, in every state in which the caller maps user address
0: no status is copied, the child's 32 message bytes are written into the frame that address
0 maps, and only then is the child freed. -/
theorem wait_null_msg_overwrites (k : Kernel) (p i : Fin NPROC) (pa : ℕ)
    (hz : zombieChild k.sys.proc p = some i)
    (hpa : walkaddr k.phys (k.sys.proc p).pagetable 0 = .ok pa) (hpa0 : pa ≠ 0) :
    Kernel.wait k p 0 0 =
      (Kernel.freeproc { k with phys := k.phys.memmove pa (k.sys.proc i).exitMsg.toList } i).map
        fun k' => (some (k.sys.proc i).pid, k') := by
  have hfit : 0 % PGSIZE + (k.sys.proc i).exitMsg.toList.length ≤ PGSIZE := by
    simp [PGSIZE]
  have hcopy := @copyout_page k.phys (k.sys.proc p).pagetable 0 pa (k.sys.proc i).exitMsg.toList
    (by simpa [PGROUNDDOWN] using hpa) hpa0 hfit
  rw [Nat.zero_mod, Nat.add_zero] at hcopy
  -- no status copy for `addr = 0`, so `r = 0` and the message copy follows
  simp only [Kernel.wait, hz, ne_eq, not_true_eq_false, if_false, Except.pure_eq_ok,
    Except.ok_bind, lt_self_iff_false, hcopy]
  cases Kernel.freeproc { k with phys := k.phys.memmove pa (k.sys.proc i).exitMsg.toList } i <;> rfl

/-- In the two-process machine, `init`'s address 0 maps its code page, which holds `0x13`
bytes, and `wait(0, 0)` writes `"done"` and 28 NULs there. -/
theorem wait_null_msg_overwrites_waitState :
    zombieChild waitState.sys.proc 0 = some 1 ∧
    walkaddr waitState.phys (waitState.sys.proc 0).pagetable 0 = .ok (initRoot + 5 * PGSIZE) ∧
    initRoot + 5 * PGSIZE ≠ 0 ∧
    (List.range 32).map (fun j => waitState.phys.mem (initRoot + 5 * PGSIZE + j)) =
      List.replicate 32 0x13 ∧
    (waitState.sys.proc 1).exitMsg.toList = (List.range 32).map (fun j => doneMsg.getD j 0) ∧
    Kernel.wait waitState 0 0 0 =
      (Kernel.freeproc { waitState with
        phys := waitState.phys.memmove (initRoot + 5 * PGSIZE) ((List.range 32).map fun j => doneMsg.getD j 0) }
        1).map fun k' => (some 2, k') := by
  have hz : zombieChild waitState.sys.proc 0 = some 1 := by decide
  have hpa : walkaddr waitState.phys (waitState.sys.proc 0).pagetable 0 =
      .ok (initRoot + 5 * PGSIZE) := by decide
  have hpa0 : initRoot + 5 * PGSIZE ≠ 0 := by decide
  have hmsg : (waitState.sys.proc 1).exitMsg.toList = (List.range 32).map (fun j => doneMsg.getD j 0) := by
    decide
  have h := wait_null_msg_overwrites waitState 0 1 (initRoot + 5 * PGSIZE) hz hpa hpa0
  rw [hmsg] at h
  exact ⟨hz, hpa, hpa0, by decide, hmsg, h⟩

/-! ## `get_cfs_stats(pid, addr)` -/

/-- When the first slot with pid 0 has no page table, as every UNUSED slot, the call does not
return -1: it returns 0 for an address at or above `MAXVA` and panics below it. -/
theorem get_cfs_stats_pid_zero (k : Kernel) (i : Fin NPROC) (addr : ℕ)
    (hi : getProc k.sys.proc 0 = some i) (hpt : (k.sys.proc i).pagetable = 0) :
    Kernel.sysGetCfsStats k 0 addr = if MAXVA ≤ addr then .ok (0, k) else .error "kerneltrap" := by
  have hne : cfsStats (k.sys.proc i) ≠ [] := by simp [cfsStats]
  simp only [Kernel.sysGetCfsStats, hi, hpt]
  split_ifs with h
  · simp [copyout_of_le hne h]
  · simp [copyout_null hne (Nat.lt_of_not_le h)]

theorem get_cfs_stats_pid_zero_waitState :
    getProc waitState.sys.proc 0 = some 2 ∧ (waitState.sys.proc 2).pagetable = 0 ∧
    Kernel.sysGetCfsStats waitState 0 0x2000 = .error "kerneltrap" := by
  have hi : getProc waitState.sys.proc 0 = some 2 := by decide
  have hpt : (waitState.sys.proc 2).pagetable = 0 := rfl
  have h := get_cfs_stats_pid_zero waitState 2 0x2000 hi hpt
  rw [if_neg (by decide)] at h
  exact ⟨hi, hpt, h⟩

end Xv6
