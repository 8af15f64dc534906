import Xv6.Spec.Param

/-! `spinlock.c`: `acquire`, `release`, `holding`, `push_off` and `pop_off`, on `NCPU` CPUs
sharing locks named by a type `κ`. A step is one atomic action of one CPU: the start of
`acquire` (its `push_off` and its `holding` check), one `amoswap` of its spin loop, the store
of `lk->cpu` after the loop, a whole `release` (only the holder stores to the lock, and the
store of `0` into `locked` is one `amoswap`), and the calls of `push_off`, `pop_off`,
`intr_on` and `intr_off` from the rest of the kernel.

Those other callers pair each `pop_off` with a `push_off` of their own (`myproc`, `uartputc`),
counted in `pushed`, and call `intr_on` only with no `push_off` outstanding, as `scheduler` and
`usertrap` do. `sched`'s save of `intena` across `swtch` is left out: one kernel thread runs
on each CPU here. `noff` is an `int` that never comes near its bounds. -/

namespace Xv6

/-- `struct spinlock` without its name: `locked`, and the CPU that `cpu` points to (`none`
for a null pointer). -/
structure Spinlock where
  locked : ℕ
  cpu : Option (Fin NCPU)
  deriving DecidableEq, Repr

/-- `initlock(lk, name)`. -/
def initlock : Spinlock := ⟨0, none⟩

/-- `holding(lk)` on CPU `id`: `lk->locked && lk->cpu == mycpu()`. -/
def holding (lk : Spinlock) (id : Fin NCPU) : Bool := lk.locked != 0 && lk.cpu == some id

/-- Where a CPU is in `acquire`: outside it, in its spin loop, or past an `amoswap` that read
`0` and not yet recorded in `lk->cpu`. -/
inductive AcqPc (κ : Type)
  | out
  | spin (lk : κ)
  | took (lk : κ)
  deriving DecidableEq, Repr

/-- A CPU: `noff` and `intena` of its `struct cpu`, the SIE bit of its `sstatus`, where it is
in `acquire`, and the `push_off`s of its other callers that are not popped yet. -/
structure LockCpu (κ : Type) where
  noff : ℤ
  intena : Bool
  sie : Bool
  pc : AcqPc κ
  pushed : ℕ
  deriving DecidableEq, Repr

variable {κ : Type}

/-- `push_off()`: `intr_off()`, saving the old SIE bit in `intena` at the outermost call. -/
def pushOff (c : LockCpu κ) : LockCpu κ :=
  let old := c.sie
  let c := { c with sie := false }
  let c := if c.noff = 0 then { c with intena := old } else c
  { c with noff := c.noff + 1 }

/-- `pop_off()`: `intr_on()` when the outermost call is popped and interrupts were on. -/
def popOff (c : LockCpu κ) : Except String (LockCpu κ) :=
  if c.sie then .error "pop_off - interruptible"
  else if c.noff < 1 then .error "pop_off"
  else
    let c := { c with noff := c.noff - 1 }
    .ok (if c.noff = 0 ∧ c.intena = true then { c with sie := true } else c)

structure SpinSys (κ : Type) where
  locks : κ → Spinlock
  cpus : Fin NCPU → LockCpu κ

namespace SpinSys

variable [DecidableEq κ] (s : SpinSys κ)

def setLock (lk : κ) (l : Spinlock) : SpinSys κ := { s with locks := Function.update s.locks lk l }

def setCpu (id : Fin NCPU) (c : LockCpu κ) : SpinSys κ := { s with cpus := Function.update s.cpus id c }

end SpinSys

variable [DecidableEq κ]

/-- The start of `acquire(lk)` on CPU `id`: `push_off()`, and `panic("acquire")` if it holds
`lk` already. -/
def acquireStart (s : SpinSys κ) (id : Fin NCPU) (lk : κ) : Except String (SpinSys κ) :=
  let c := pushOff (s.cpus id)
  if holding (s.locks lk) id then .error "acquire"
  else .ok (s.setCpu id { c with pc := .spin lk })

/-- One iteration of `acquire`'s spin loop: `amoswap` stores `1` into `lk->locked` and reads
what it held; the loop ends on `0`. -/
def acquireSpin (s : SpinSys κ) (id : Fin NCPU) (lk : κ) : SpinSys κ :=
  let old := (s.locks lk).locked
  let s := s.setLock lk { s.locks lk with locked := 1 }
  if old ≠ 0 then s else s.setCpu id { s.cpus id with pc := .took lk }

/-- The end of `acquire`: after the fence, `lk->cpu = mycpu()`. -/
def acquireDone (s : SpinSys κ) (id : Fin NCPU) (lk : κ) : SpinSys κ :=
  (s.setLock lk { s.locks lk with cpu := some id }).setCpu id { s.cpus id with pc := .out }

/-- `release(lk)` on CPU `id`. -/
def release (s : SpinSys κ) (id : Fin NCPU) (lk : κ) : Except String (SpinSys κ) :=
  if !holding (s.locks lk) id then .error "release"
  else do
    let s := s.setLock lk { s.locks lk with cpu := none }
    let s := s.setLock lk { s.locks lk with locked := 0 }
    let c ← popOff (s.cpus id)
    return s.setCpu id c

inductive SpinEvent (κ : Type)
  /-- CPU `id` calls `acquire(lk)`. -/
  | acquire (id : Fin NCPU) (lk : κ)
  /-- CPU `id` takes its next step in `acquire`. -/
  | step (id : Fin NCPU)
  /-- CPU `id` calls `release(lk)`. -/
  | release (id : Fin NCPU) (lk : κ)
  /-- Other code on CPU `id` calls `push_off()`. -/
  | pushOff (id : Fin NCPU)
  /-- Other code on CPU `id` calls `pop_off()` for a `push_off()` of its own. -/
  | popOff (id : Fin NCPU)
  /-- Other code on CPU `id` calls `intr_on()`. -/
  | intrOn (id : Fin NCPU)
  /-- Other code on CPU `id` calls `intr_off()`. -/
  | intrOff (id : Fin NCPU)
  deriving DecidableEq, Repr

/-- A call starts on a CPU outside `acquire`; a step goes on with the `acquire` it is in. -/
def spinStep (s : SpinSys κ) : SpinEvent κ → Option (Except String (SpinSys κ))
  | .acquire id lk => if (s.cpus id).pc = .out then some (acquireStart s id lk) else none
  | .step id =>
    match (s.cpus id).pc with
    | .out => none
    | .spin lk => some (.ok (acquireSpin s id lk))
    | .took lk => some (.ok (acquireDone s id lk))
  | .release id lk => if (s.cpus id).pc = .out then some (release s id lk) else none
  | .pushOff id =>
    if (s.cpus id).pc = .out then
      some (.ok (s.setCpu id { pushOff (s.cpus id) with pushed := (s.cpus id).pushed + 1 }))
    else none
  | .popOff id =>
    if (s.cpus id).pc = .out ∧ 0 < (s.cpus id).pushed then
      some ((popOff (s.cpus id)).map fun c => s.setCpu id { c with pushed := c.pushed - 1 })
    else none
  | .intrOn id =>
    if (s.cpus id).pc = .out ∧ (s.cpus id).noff = 0 then
      some (.ok (s.setCpu id { s.cpus id with sie := true }))
    else none
  | .intrOff id =>
    if (s.cpus id).pc = .out then some (.ok (s.setCpu id { s.cpus id with sie := false })) else none

/-- The steps that are enabled and do not panic. -/
def spinNext (s : SpinSys κ) (e : SpinEvent κ) : Option (SpinSys κ) :=
  match spinStep s e with
  | some (.ok s') => some s'
  | _ => none

/-- Boot: every lock from `initlock`, and no CPU in `acquire` or under a `push_off`, with
interrupts as `sie`. -/
def spinInit (sie : Fin NCPU → Bool) : SpinSys κ where
  locks _ := initlock
  cpus id := ⟨0, false, sie id, .out, 0⟩

end Xv6
