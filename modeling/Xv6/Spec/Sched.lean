import Xv6.Spec.Proc

/-! What one iteration of `scheduler()`'s loop decides for the slot it holds, under each
value of `SCHEDULER_TYPE`, and one pass of the loop over a table that nothing changes
before the first switch. The configured value is `2` (CFS). -/

namespace Xv6

/-- `defaulScheduler(c, p)`: switch when RUNNABLE. -/
def defaultPick (t : Table) (i : Fin NPROC) : Bool := (t i).state == .runnable

/-- `priorityScheduler(c, p)`: `long long acc = getMinAccumulator();` and switch when
RUNNABLE with an accumulator equal to it. -/
def priorityPick (t : Table) (i : Fin NPROC) : Bool :=
  (t i).state == .runnable && (t i).accumulator == getMinAccumulator t

/-- `cfsScheduler(c, p)`: the slot's own vruntime, recomputed, against `getMinVruntime()`. -/
def cfsPick (t : Table) (i : Fin NPROC) : Bool :=
  (t i).state == .runnable && vruntime (t i) == getMinVruntime t

def SCHEDULER_TYPE : ℕ := 2

/-- The `switch (SCHEDULER_TYPE)` in the loop of `scheduler()`. -/
def schedPick (ty : ℕ) (t : Table) (i : Fin NPROC) : Bool :=
  match ty with
  | 0 => defaultPick t i
  | 1 => priorityPick t i
  | 2 => cfsPick t i
  | _ => false

/-- One pass of `for(p = proc; p < &proc[NPROC]; p++)` over a table that stays as it is
until the first switch: the slot of the first switch, if any. -/
def schedulerPass (ty : ℕ) (t : Table) : Option (Fin NPROC) := slots.find? (schedPick ty t)

/-! ## The passes as minimum selections -/

theorem schedulerPass_priority (t : Table) :
    schedulerPass 1 t = Scan.selectEq (fun i => (t i).state == .runnable)
      (fun i => (t i).accumulator) (getMinAccumulator t) slots := rfl

theorem accStep_eq_minStep (m : ℤ) (p : Proc) (h1 : -2 ^ 31 ≤ p.accumulator)
    (h2 : p.accumulator < 2 ^ 31) :
    accStep m p = if p.active then Scan.minStep m p.accumulator else m := by
  simp only [accStep, Scan.minStep, int32_of_range h1 h2]

/-- While every active accumulator fits in an `int`, the narrowing in
`getMinAccumulator` is invisible and it is the sentinel scan of the accumulators. -/
theorem getMinAccumulator_eq_scanMin (t : Table)
    (hr : ∀ i, (t i).active → -2 ^ 31 ≤ (t i).accumulator ∧ (t i).accumulator < 2 ^ 31) :
    getMinAccumulator t = Scan.scanMin (fun i => (t i).active) (fun i => (t i).accumulator) slots := by
  unfold getMinAccumulator Scan.scanMin Scan.sentinelMin
  rw [List.foldl_map, List.foldl_filter]
  congr 1
  funext m i
  by_cases ha : (t i).active
  · rw [accStep_eq_minStep m (t i) (hr i ha).1 (hr i ha).2, if_pos ha]
  · simp [accStep, ha]

theorem runnable_active {p : Proc} (h : (p.state == .runnable) = true) : p.active = true := by
  simp_all [Proc.active]

end Xv6
