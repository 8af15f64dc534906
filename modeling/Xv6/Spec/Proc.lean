import Xv6.Spec.Str
import Xv6.Lib.Scan

/-! The process table of `proc.h`/`proc.c` and the operations on it that touch no memory
but the table: the accumulator and vruntime scans of the two schedulers, `update_ticks`,
`wakeup`, `kill`, `getProc`, `reparent` and the field resets of `freeproc`.

A slot is `Fin NPROC`; `struct proc *` fields are slot indices (`none` for a null pointer).
`int` fields are integers kept in range by `int32` wherever the code does arithmetic on
them. Not modelled: the lock, `kstack`, `context`, `ofile`, `cwd` and `name`, which no
function here reads. -/

namespace Xv6

inductive Procstate
  | unused | used | sleeping | runnable | running | zombie
  deriving DecidableEq, Repr

/-- The address a process sleeps on. Only `&proc[i]` (wait/exit) and `&ticks` (sleep and
the clock) are named; every other kernel object is `other n`. -/
inductive Chan
  | null
  | proc (i : Fin NPROC)
  | ticks
  | other (n : ℕ)
  deriving DecidableEq, Repr

structure Proc where
  state : Procstate
  chan : Chan
  killed : ℤ
  xstate : ℤ
  pid : ℤ
  parent : Option (Fin NPROC)
  sz : ℕ
  pagetable : ℕ
  trapframe : ℕ
  exitMsg : Vector UInt8 32
  accumulator : ℤ
  psPriority : ℤ
  cfsPriority : ℤ
  rtime : ℤ
  stime : ℤ
  retime : ℤ
  deriving DecidableEq, Repr

/-- A slot of the zero-initialised `proc[]` array, as `procinit` leaves it. -/
def Proc.zero : Proc :=
  { state := .unused, chan := .null, killed := 0, xstate := 0, pid := 0, parent := none,
    sz := 0, pagetable := 0, trapframe := 0, exitMsg := Vector.replicate 32 0,
    accumulator := 0, psPriority := 0, cfsPriority := 0, rtime := 0, stime := 0, retime := 0 }

abbrev Table := Fin NPROC → Proc

/-- The slots in the order `for(p = proc; p < &proc[NPROC]; p++)` visits them. -/
def slots : List (Fin NPROC) := List.finRange NPROC

theorem mem_slots (i : Fin NPROC) : i ∈ slots := List.mem_finRange i

/-- The field resets of `freeproc`; its memory side is in `Xv6.Vm`. -/
def Proc.freed (p : Proc) : Proc :=
  { p with trapframe := 0, pagetable := 0, sz := 0, pid := 0, parent := none, chan := .null,
           killed := 0, xstate := 0, state := .unused }

/-! ## The two scheduler scans -/

/-- The processes both scans read: `p->state == RUNNABLE || p->state == RUNNING`. -/
def Proc.active (p : Proc) : Bool := p.state == .runnable || p.state == .running

/-- One iteration of `getMinAccumulator`: `min` is an `int`, so the 64-bit accumulator is
compared as `long long` and then narrowed. -/
def accStep (min : ℤ) (p : Proc) : ℤ :=
  if p.active then (if min = 0 ∨ p.accumulator < min then int32 p.accumulator else min) else min

def getMinAccumulator (t : Table) : ℤ := slots.foldl (fun min i => accStep min (t i)) 0

/-- `int decay = 75 ? p->cfs_priority == 0 : 100 ? p->cfs_priority == 1 : 125;`
C groups this as `75 ? (prio == 0) : (100 ? (prio == 1) : 125)`, and `75` is true. -/
def decay (p : Proc) : ℤ :=
  if (75 : ℤ) ≠ 0 then (if p.cfsPriority = 0 then 1 else 0)
  else if (100 : ℤ) ≠ 0 then (if p.cfsPriority = 1 then 1 else 0) else 125

/-- `(decay * p->rtime) / (p->rtime + p->stime + p->retime)` in `int` arithmetic. -/
def vruntime (p : Proc) : ℤ := divw (int32 (decay p * p.rtime)) (int32 (p.rtime + p.stime + p.retime))

def getMinVruntime (t : Table) : ℤ :=
  Scan.scanMin (fun i => (t i).active) (fun i => vruntime (t i)) slots

/-! ## Time accounting -/

/-- The body of `update_ticks` for one slot. -/
def tickProc (p : Proc) : Proc :=
  match p.state with
  | .sleeping => { p with stime := int32 (p.stime + 1) }
  | .runnable => { p with retime := int32 (p.retime + 1) }
  | .running => { p with rtime := int32 (p.rtime + 1) }
  | _ => p

def updateTicks (t : Table) : Table := fun i => tickProc (t i)

/-- The first loop of `wakeup`, for one slot: the same counting, for `pid > 4` only. -/
def wakeupCount (p : Proc) : Proc :=
  if p.state = .running then
    (if p.pid > 4 then { p with rtime := int32 (p.rtime + 1) } else p)
  else if p.state = .sleeping then
    (if p.pid > 4 then { p with stime := int32 (p.stime + 1) } else p)
  else if p.state = .runnable then
    (if p.pid > 4 then { p with retime := int32 (p.retime + 1) } else p)
  else p

/-- The second loop of `wakeup`, for slot `i`; `me` is `myproc()`. The woken process is
already `RUNNABLE` when `getMinAccumulator()` runs, so its own stale accumulator counts. -/
def wakeupSlot (chan : Chan) (me : Option (Fin NPROC)) (t : Table) (i : Fin NPROC) : Table :=
  if me = some i then t
  else if (t i).state = .sleeping ∧ (t i).chan = chan then
    let t₁ := Function.update t i { t i with state := .runnable }
    Function.update t₁ i { t₁ i with accumulator := getMinAccumulator t₁ }
  else t

def wakeup (chan : Chan) (me : Option (Fin NPROC)) (t : Table) : Table :=
  slots.foldl (wakeupSlot chan me) (fun i => wakeupCount (t i))

section Preserves

/-! A view `f` of a slot that neither loop of `wakeup` changes. -/

variable {β : Type} (f : Proc → β) (hst : ∀ p s, f { p with state := s } = f p)
  (hacc : ∀ p a, f { p with accumulator := a } = f p)

include hst hacc in
theorem foldl_wakeupSlot_preserves (chan : Chan) (me : Option (Fin NPROC)) (i : Fin NPROC) :
    ∀ (l : List (Fin NPROC)) (t : Table), f (l.foldl (wakeupSlot chan me) t i) = f (t i)
  | [], _ => rfl
  | j :: l, t => by
    rw [List.foldl_cons, foldl_wakeupSlot_preserves chan me i l]
    unfold wakeupSlot
    split_ifs
    · rfl
    · by_cases hji : i = j
      · subst hji
        rw [Function.update_self, hacc, Function.update_self, hst]
      · simp [Function.update_of_ne hji]
    · rfl

include hst hacc in
theorem wakeup_preserves (hcnt : ∀ p, f (wakeupCount p) = f p) (chan : Chan)
    (me : Option (Fin NPROC)) (t : Table) (i : Fin NPROC) : f (wakeup chan me t i) = f (t i) := by
  rw [wakeup, foldl_wakeupSlot_preserves f hst hacc, hcnt]

end Preserves

theorem wakeupCount_exitMsg (p : Proc) : (wakeupCount p).exitMsg = p.exitMsg := by
  unfold wakeupCount; split_ifs <;> rfl

theorem wakeup_exitMsg (chan : Chan) (me : Option (Fin NPROC)) (t : Table) (i : Fin NPROC) :
    (wakeup chan me t i).exitMsg = (t i).exitMsg :=
  wakeup_preserves Proc.exitMsg (fun _ _ => rfl) (fun _ _ => rfl) wakeupCount_exitMsg chan me t i

/-! ## Lookups by pid -/

/-- The body of `kill` for the matching slot. -/
def Proc.markKilled (p : Proc) : Proc :=
  { p with killed := 1, state := if p.state = .sleeping then .runnable else p.state }

/-- `kill(pid)`: the first slot whose `pid` matches, whatever its state, is marked killed
and woken if sleeping. -/
def kill (t : Table) (pid : ℤ) : ℤ × Table :=
  match slots.find? (fun i => (t i).pid == pid) with
  | some i => (0, Function.update t i (t i).markKilled)
  | none => (-1, t)

/-- `getProc(pid)`: the first slot whose `pid` matches, whatever its state. -/
def getProc (t : Table) (pid : ℤ) : Option (Fin NPROC) := slots.find? fun i => pid == (t i).pid

/-! ## Exit and reparenting -/

/-- One iteration of `reparent(p)`: a child of `p` is given to `initproc`, which is woken. -/
def reparentSlot (p init : Fin NPROC) (t : Table) (pp : Fin NPROC) : Table :=
  if (t pp).parent = some p then
    wakeup (.proc init) (some p) (Function.update t pp { t pp with parent := some init })
  else t

def reparent (p init : Fin NPROC) (t : Table) : Table := slots.foldl (reparentSlot p init) t

theorem foldl_reparentSlot_exitMsg (p init i : Fin NPROC) :
    ∀ (l : List (Fin NPROC)) (t : Table), (l.foldl (reparentSlot p init) t i).exitMsg = (t i).exitMsg
  | [], _ => rfl
  | j :: l, t => by
    rw [List.foldl_cons, foldl_reparentSlot_exitMsg p init i l]
    unfold reparentSlot
    split_ifs
    · rw [wakeup_exitMsg]
      by_cases hji : i = j
      · subst hji; simp
      · simp [Function.update_of_ne hji]
    · rfl

theorem reparent_exitMsg (p init : Fin NPROC) (t : Table) (i : Fin NPROC) :
    (reparent p init t i).exitMsg = (t i).exitMsg :=
  foldl_reparentSlot_exitMsg p init i slots t

/-- The wakeup channel of a parent pointer: `&proc[i]`, or `0` for a null parent. -/
def Chan.ofParent : Option (Fin NPROC) → Chan
  | some i => .proc i
  | none => .null

end Xv6
