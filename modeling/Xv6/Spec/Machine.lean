import Xv6.Spec.Sched
import Xv6.Lib.Run

/-! The process table as a system of CPUs: each event is one step some CPU takes, and
`next` says whether it is enabled and what it does to the table. The steps are those of
`proc.c`, `trap.c` and `sysproc.c` that change the table: one iteration of a scheduler
loop, a clock tick on CPU 0 (`clockintr` and `update_ticks`), a timer yield, `sleep`,
`wakeup` on any channel, `fork`, `exit`, `wait`, `kill` and the two priority calls.

Memory is not part of this system. Where the code's effect on the table depends on it
(kalloc and `uvmcopy` in `fork`, the status `copyout` in `wait`), the event carries the
outcome; the memory side of these calls is modelled in `Xv6.Kernel`. -/

namespace Xv6

/-- The slot after `i` in the scheduler loop; after the last one `for(;;)` starts over. -/
def nextSlot (i : Fin NPROC) : Fin NPROC := ⟨(i.val + 1) % NPROC, Nat.mod_lt _ (by decide)⟩

structure Cpu where
  /-- `c->proc`. -/
  proc : Option (Fin NPROC)
  /-- The slot `p` of the scheduler loop: the one running, or the next to examine. -/
  pos : Fin NPROC
  deriving DecidableEq, Repr

structure Sys where
  proc : Table
  nextpid : ℤ
  ticks : ℕ
  cpus : Fin NCPU → Cpu
  initproc : Fin NPROC

inductive Event
  | schedIter (c : Fin NCPU)
  | tick
  | timerYield (c : Fin NCPU)
  | sleep (c : Fin NCPU) (chan : Chan)
  | wakeup (c : Fin NCPU) (chan : Chan)
  | fork (c : Fin NCPU) (ok : Bool)
  | exit (c : Fin NCPU) (status : ℤ) (msg : ℕ → UInt8)
  | wait (c : Fin NCPU) (copyOk : Bool)
  | kill (c : Fin NCPU) (pid : ℤ)
  | setPsPriority (c : Fin NCPU) (n : ℤ)
  | setCfsPriority (c : Fin NCPU) (n : ℤ)

namespace Sys

/-- `myproc()` on CPU `c`, when it runs a process. -/
def cur (s : Sys) (c : Fin NCPU) : Option (Fin NPROC) :=
  match (s.cpus c).proc with
  | some i => if (s.proc i).state = .running then some i else none
  | none => none

def setProc (s : Sys) (i : Fin NPROC) (p : Proc) : Sys := { s with proc := Function.update s.proc i p }

/-- `sched()` back into CPU `c`'s scheduler: `c->proc = 0`, then the loop moves on. -/
def resched (s : Sys) (c : Fin NCPU) : Sys :=
  { s with cpus := Function.update s.cpus c { proc := none, pos := nextSlot (s.cpus c).pos } }

end Sys

/-- The first `UNUSED` slot, the one `allocproc` takes. -/
def freeSlot (t : Table) : Option (Fin NPROC) := slots.find? fun i => (t i).state == .unused

/-- The first child of `p` that is a `ZOMBIE`, the one `wait` reaps. -/
def zombieChild (t : Table) (p : Fin NPROC) : Option (Fin NPROC) :=
  slots.find? fun i => (t i).parent == some p && (t i).state == .zombie

def hasKids (t : Table) (p : Fin NPROC) : Bool := slots.any fun i => (t i).parent == some p

/-- One iteration of CPU `c`'s scheduler loop, at slot `(s.cpus c).pos`. -/
def schedIter (ty : ℕ) (s : Sys) (c : Fin NCPU) : Sys :=
  let i := (s.cpus c).pos
  if schedPick ty s.proc i then
    { s.setProc i { s.proc i with state := .running } with
      cpus := Function.update s.cpus c { proc := some i, pos := i } }
  else { s with cpus := Function.update s.cpus c { proc := none, pos := nextSlot i } }

/-- `fork()` by `p`. `allocproc` takes the first free slot and a pid whatever happens next;
when a later allocation fails (`ok = false`), `freeproc` releases the slot again. -/
def fork (s : Sys) (p : Fin NPROC) (ok : Bool) : Sys :=
  match freeSlot s.proc with
  | none => s
  | some i =>
    let s₁ := { s.setProc i { s.proc i with pid := s.nextpid, state := .used } with
                nextpid := int32 (s.nextpid + 1) }
    if ok then
      let s₂ := s₁.setProc i { s₁.proc i with sz := (s₁.proc p).sz, parent := some p,
                                              state := .runnable, psPriority := 5 }
      let s₃ := s₂.setProc i { s₂.proc i with accumulator := getMinAccumulator s₂.proc }
      s₃.setProc i
        { s₃.proc i with cfsPriority := (s₃.proc p).cfsPriority, rtime := 0, stime := 0, retime := 0 }
    else s₁.setProc i (s₁.proc i).freed

/-- `exit(status, msg)` by `p` (not `initproc`). Closing files and the final `iput` of
the working directory are not modelled. -/
def exit (s : Sys) (p : Fin NPROC) (status : ℤ) (msg : ℕ → UInt8) : Sys :=
  let s₁ := s.setProc p { s.proc p with exitMsg := Vector.ofFn fun j => (strncpy msg 32).getD j 0 }
  let t₂ := reparent p s.initproc s₁.proc
  let t₃ := wakeup (Chan.ofParent (t₂ p).parent) (some p) t₂
  { s₁ with proc := Function.update t₃ p { t₃ p with xstate := status, state := .zombie } }

/-- The message `exit` leaves: `strncpy(p->exit_msg, msg, 32)`, which reparenting and the
wakeup of the parent do not touch. -/
theorem exit_exitMsg (s : Sys) (p : Fin NPROC) (status : ℤ) (msg : ℕ → UInt8) :
    ((exit s p status msg).proc p).exitMsg = Vector.ofFn fun j => (strncpy msg 32).getD j 0 := by
  simp [exit, wakeup_exitMsg, reparent_exitMsg, Sys.setProc]

/-- One scan of `wait`'s loop by `p`: the pid it returns, or `none` when it goes to sleep. -/
def wait (s : Sys) (p : Fin NPROC) (copyOk : Bool) : Option ℤ × Sys :=
  match zombieChild s.proc p with
  | some i =>
    if copyOk then (some (s.proc i).pid, s.setProc i (s.proc i).freed) else (some (-1), s)
  | none =>
    if !hasKids s.proc p || (s.proc p).killed ≠ 0 then (some (-1), s)
    else (none, s.setProc p { s.proc p with chan := .proc p, state := .sleeping })

/-- The step CPU `c` takes for an event, when the event is enabled. -/
def next (ty : ℕ) (s : Sys) : Event → Option Sys
  | .schedIter c => if (s.cpus c).proc = none then some (schedIter ty s c) else none
  | .tick =>
    some { s with ticks := (s.ticks + 1) % 2 ^ 32,
                  proc := updateTicks (wakeup .ticks (s.cur 0) s.proc) }
  | .timerYield c => (s.cur c).map fun p =>
      (s.setProc p { s.proc p with
        accumulator := int64 ((s.proc p).accumulator + (s.proc p).psPriority),
        state := .runnable }).resched c
  | .sleep c chan => (s.cur c).map fun p =>
      (s.setProc p { s.proc p with chan := chan, state := .sleeping }).resched c
  | .wakeup c chan => some { s with proc := wakeup chan (s.cur c) s.proc }
  | .fork c ok => (s.cur c).map fun p => fork s p ok
  | .exit c status msg => (s.cur c).bind fun p =>
      if p = s.initproc then none else some ((exit s p status msg).resched c)
  | .wait c copyOk => (s.cur c).map fun p =>
      match wait s p copyOk with
      | (some _, s') => s'
      | (none, s') => s'.resched c
  | .kill c pid => (s.cur c).map fun _ => { s with proc := (kill s.proc pid).2 }
  | .setPsPriority c n => (s.cur c).map fun p => s.setProc p { s.proc p with psPriority := n }
  | .setCfsPriority c n => (s.cur c).map fun p =>
      if 0 ≤ n ∧ n ≤ 2 then s.setProc p { s.proc p with cfsPriority := n } else s

/-- `init` after `userinit()`: slot 0 with pid 1, RUNNABLE, every other slot zero. -/
def initProc : Proc :=
  { Proc.zero with pid := 1, state := .runnable, psPriority := 5, accumulator := 0,
                   cfsPriority := 1, rtime := 0, stime := 0, retime := 0 }

def boot : Sys where
  proc := Function.update (fun _ => Proc.zero) 0 initProc
  nextpid := 2
  ticks := 0
  cpus := fun _ => { proc := none, pos := 0 }
  initproc := 0

/-- The states of the table reachable from boot under scheduler type `ty`. -/
def Reachable (ty : ℕ) : Sys → Prop := Run.Reachable (next ty) boot

/-! ## `sys_sleep`

`ticks` is a `uint` and the argument an `int`, as `argint` leaves it. The loop tests, under
`tickslock`, whether to sleep on `&ticks` again; between its tests other CPUs run and
`clockintr` counts ticks, so the loop is given the values of `ticks` and of the caller's
`killed` at each test. -/

/-- The loop test `ticks - ticks0 < n`: the `uint` difference against `n`, which C's usual
arithmetic conversions turn into a `uint`. -/
def sleepMore (n : Int32) (ticks0 ticks : UInt32) : Bool := ticks - ticks0 < n.toUInt32

/-- `sys_sleep`'s loop over the values of `ticks` and `killed` at its tests: `-1` for a
killed caller, `0` once the test fails, `none` while it still sleeps. -/
def sysSleepLoop (n : Int32) (ticks0 : UInt32) : List (UInt32 × Bool) → Option ℤ
  | [] => none
  | (ticks, killed) :: rest =>
    if sleepMore n ticks0 ticks then
      if killed then some (-1) else sysSleepLoop n ticks0 rest
    else some 0

/-- `sys_sleep(n)` entered when `ticks` is `ticks0`: the first test reads that same value,
the later ones the values after each wake-up. -/
def sysSleep (n : Int32) (ticks0 : UInt32) (killed : Bool) (wakeups : List (UInt32 × Bool)) :
    Option ℤ :=
  sysSleepLoop n ticks0 ((ticks0, killed) :: wakeups)

end Xv6
