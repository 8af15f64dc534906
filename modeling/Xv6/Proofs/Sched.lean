import Xv6.Spec.Machine

/-! The scheduler passes. First the link between the machine's single loop iterations
and `schedulerPass`: from slot 0, with nothing else changing the table, a CPU's loop
switches to `schedulerPass`'s slot, or goes once round the table and is back where it
started. Then what a pass selects: the first RUNNABLE slot whose key equals the scanned
minimum over RUNNABLE and RUNNING slots, a least key among them when no key is `0`. -/

namespace Xv6

section iter

variable (ty : ℕ) (s : Sys) (c : Fin NCPU)

theorem next_schedIter_skip (hc : (s.cpus c).proc = none)
    (hp : schedPick ty s.proc (s.cpus c).pos = false) :
    next ty s (.schedIter c) =
      some { s with cpus := Function.update s.cpus c { proc := none, pos := nextSlot (s.cpus c).pos } } := by
  simp [next, hc, schedIter, hp]

theorem next_schedIter_switch (hc : (s.cpus c).proc = none)
    (hp : schedPick ty s.proc (s.cpus c).pos = true) :
    next ty s (.schedIter c) =
      some { s.setProc (s.cpus c).pos { s.proc (s.cpus c).pos with state := .running } with
        cpus := Function.update s.cpus c { proc := some (s.cpus c).pos, pos := (s.cpus c).pos } } := by
  simp [next, hc, schedIter, hp]

/-- The slot `k` of the loop, for `k < NPROC`, and slot 0 again for `k = NPROC`. -/
def loopPos (k : ℕ) : Fin NPROC := ⟨k % NPROC, Nat.mod_lt _ (by decide)⟩

theorem run_schedIter_skip (hc : s.cpus c = ⟨none, 0⟩) (k : ℕ) (hk : k ≤ NPROC)
    (hskip : ∀ j : Fin NPROC, j.val < k → schedPick ty s.proc j = false) :
    Run.run (next ty) s (List.replicate k (.schedIter c)) =
      some { s with cpus := Function.update s.cpus c ⟨none, loopPos k⟩ } := by
  induction k with
  | zero =>
    have h0 : (⟨none, loopPos 0⟩ : Cpu) = s.cpus c := by rw [hc]; rfl
    simp only [List.replicate_zero, Run.run, h0, Function.update_eq_self]
  | succ k ih =>
    rw [List.replicate_succ', Run.run_append, ih (by omega) fun j hj => hskip j (by omega)]
    have hpos : loopPos k = ⟨k, by omega⟩ := by ext; exact Nat.mod_eq_of_lt (by omega)
    have hpick : schedPick ty s.proc (loopPos k) = false := by
      rw [hpos]; exact hskip ⟨k, by omega⟩ (by simp)
    simp only [Option.bind_some, Run.run]
    rw [next_schedIter_skip ty _ c (by simp) (by simpa using hpick)]
    simp only [Option.bind_some, Function.update_idem, Function.update_self]
    congr 4
    ext
    simp [nextSlot, loopPos, Nat.add_mod]

/-- One pass of CPU `c`'s loop, started at slot 0 on a table nothing else changes, in
the machine's own steps: it switches to `schedulerPass`'s slot, or it comes round to
slot 0 again having changed nothing. -/
theorem run_schedulerPass (hc : s.cpus c = ⟨none, 0⟩) :
    (schedulerPass ty s.proc = none →
      Run.run (next ty) s (List.replicate NPROC (.schedIter c)) = some s) ∧
    ∀ i, schedulerPass ty s.proc = some i →
      Run.run (next ty) s (List.replicate (i.val + 1) (.schedIter c)) =
        some { s.setProc i { s.proc i with state := .running } with
          cpus := Function.update s.cpus c ⟨some i, i⟩ } := by
  constructor
  · intro hnone
    have hall := Scan.find?_finRange_eq_none.mp hnone
    rw [run_schedIter_skip ty s c hc NPROC le_rfl fun j _ => hall j]
    have h0 : (⟨none, loopPos NPROC⟩ : Cpu) = s.cpus c := by rw [hc]; rfl
    rw [h0, Function.update_eq_self]
  · intro i hi
    obtain ⟨hpick, hbefore⟩ := Scan.find?_finRange_eq_some.mp hi
    rw [List.replicate_succ', Run.run_append,
      run_schedIter_skip ty s c hc i.val i.isLt.le fun j hj => hbefore j hj]
    have hpos : loopPos i.val = i := by ext; exact Nat.mod_eq_of_lt i.isLt
    simp only [Option.bind_some, Run.run]
    rw [next_schedIter_switch ty _ c (by simp) (by simpa [hpos] using hpick)]
    simp [hpos, Sys.setProc]

end iter

/-! ## Priority scheduling (`SCHEDULER_TYPE = 1`) -/

/-- While every RUNNABLE or RUNNING accumulator is nonzero and fits in an `int`, a pass
switches exactly when some RUNNABLE process holds the least accumulator among RUNNABLE
and RUNNING processes, and the process it switches to is such a one. -/
theorem priority_pass_least (t : Table)
    (hacc : ∀ i, (t i).active = true →
      (t i).accumulator ≠ 0 ∧ -2 ^ 31 ≤ (t i).accumulator ∧ (t i).accumulator < 2 ^ 31) :
    ((schedulerPass 1 t).isSome ↔ ∃ i, (t i).state = .runnable ∧
        ∀ j, (t j).active = true → (t i).accumulator ≤ (t j).accumulator) ∧
    ∀ i, schedulerPass 1 t = some i → (t i).state = .runnable ∧
        ∀ j, (t j).active = true → (t i).accumulator ≤ (t j).accumulator := by
  have hmin := getMinAccumulator_eq_scanMin t fun i hi => ⟨(hacc i hi).2.1, (hacc i hi).2.2⟩
  have hkey : ∀ i ∈ slots, (t i).active = true → (t i).accumulator ≠ 0 :=
    fun i _ hi => (hacc i hi).1
  rw [schedulerPass_priority, hmin]
  constructor
  · rw [Scan.selectEq_scanMin_isSome (fun i hi => runnable_active hi) hkey]
    simp [mem_slots]
  · intro i hi
    obtain ⟨hr, hle⟩ := Scan.selectEq_scanMin_le (fun i hi => runnable_active hi) hkey hi
    exact ⟨by simpa using hr, fun j hj => hle j (mem_slots j) hj⟩

/-- Four live processes: RUNNABLE in slots 0, 1 and 2 with accumulators 7, 3 and 9, and
RUNNING in slot 3 with accumulator 4. -/
def accMix : Table :=
  Function.update (Function.update (Function.update (Function.update boot.proc
    0 { initProc with accumulator := 7 })
    1 { initProc with pid := 2, parent := some 0, accumulator := 3 })
    2 { initProc with pid := 3, parent := some 0, accumulator := 9 })
    3 { initProc with pid := 4, parent := some 0, state := .running, accumulator := 4 }

theorem priority_pass_least_accMix :
    (∀ i, (accMix i).active = true →
      (accMix i).accumulator ≠ 0 ∧ -2 ^ 31 ≤ (accMix i).accumulator ∧ (accMix i).accumulator < 2 ^ 31) ∧
    schedulerPass 1 accMix = some 1 ∧
    (((schedulerPass 1 accMix).isSome ↔ ∃ i, (accMix i).state = .runnable ∧
        ∀ j, (accMix j).active = true → (accMix i).accumulator ≤ (accMix j).accumulator) ∧
    ∀ i, schedulerPass 1 accMix = some i → (accMix i).state = .runnable ∧
        ∀ j, (accMix j).active = true → (accMix i).accumulator ≤ (accMix j).accumulator) :=
  ⟨by decide, by decide, priority_pass_least accMix (by decide)⟩

/-- Three CPUs: `init` (priority 1) runs on CPU 1 after one timer yield, so its
accumulator is 1; its child ran once on CPU 2 and yielded with accumulator 5. -/
def runningHoldsMin : List Event :=
  [.schedIter 0, .setPsPriority 0 1, .timerYield 0, .schedIter 1, .fork 1 true,
   .schedIter 2, .schedIter 2, .timerYield 2]

/-- There a pass switches to nothing: the minimum, 1, belongs to the RUNNING `init`, and
the RUNNABLE child does not match it. -/
theorem priority_pass_misses_runnable :
    ∃ s, Reachable 1 s ∧ (∃ i, (s.proc i).state = .runnable) ∧ schedulerPass 1 s.proc = none := by
  obtain ⟨s, hs, hp⟩ := Run.exists_reachable_of_run (next 1) boot runningHoldsMin
    (fun s => (slots.any fun i => (s.proc i).state == .runnable) && (schedulerPass 1 s.proc).isNone)
    (by decide)
  simp only [Bool.and_eq_true, List.any_eq_true, beq_iff_eq, Option.isNone_iff_eq_none] at hp
  obtain ⟨⟨i, -, hi⟩, hnone⟩ := hp
  exact ⟨s, hs, ⟨i, hi⟩, hnone⟩

/-- `init` RUNNABLE with accumulator 0 in slot 0, and a child RUNNABLE with accumulator 5 in
slot 1. -/
def zeroAcc : Table := Function.update boot.proc 1 { initProc with pid := 2, parent := some 0, accumulator := 5 }

/-- There `getMinAccumulator` takes slot 0's accumulator 0 for its "no minimum yet" sentinel
and returns 5, so the pass switches to slot 1, past the smaller accumulator. -/
theorem priority_pass_forgets_zero :
    getMinAccumulator zeroAcc = 5 ∧ schedulerPass 1 zeroAcc = some 1 ∧
      (zeroAcc 0).state = .runnable ∧ (zeroAcc 0).accumulator < (zeroAcc 1).accumulator := by
  decide

/-! ## CFS scheduling (`SCHEDULER_TYPE = 2`, the configured one) -/

/-- The vruntime the CFS design intends, with decay 75, 100 and 125 for priorities 0, 1
and 2, and 0 for a process with no ticks; the code computes `vruntime` instead. -/
def intendedVruntime (p : Proc) : ℤ :=
  let d : ℤ := if p.cfsPriority = 0 then 75 else if p.cfsPriority = 1 then 100 else 125
  if p.rtime + p.stime + p.retime = 0 then 0 else d * p.rtime / (p.rtime + p.stime + p.retime)

/-- `init` sets priority 0, forks (the child inherits 0), sets its own priority to 2, and
after one tick yields: `init` has run one tick, the child waited one. -/
def decayMix : List Event :=
  [.schedIter 0, .setCfsPriority 0 0, .fork 0 true, .setCfsPriority 0 2, .tick, .timerYield 0]

/-- There CPU 1's loop, from slot 0, switches to `init`, whose intended vruntime is 125,
while the RUNNABLE child's is 0: in the code both decays are `p->cfs_priority == 0`, 0 or 1,
so both vruntimes are 0. -/
theorem cfs_pass_not_least :
    ∃ s, Reachable 2 s ∧ ∃ i j, (s.proc j).state = .runnable ∧
      intendedVruntime (s.proc j) < intendedVruntime (s.proc i) ∧
      ∃ s', Run.run (next 2) s (List.replicate (i.val + 1) (.schedIter 1)) = some s' ∧
        s'.cur 1 = some i := by
  obtain ⟨s, hs, hp⟩ := Run.exists_reachable_of_run (next 2) boot decayMix
    (fun s => s.cpus 1 == ⟨none, 0⟩ && schedulerPass 2 s.proc == some 0 &&
      (s.proc 1).state == .runnable && decide (intendedVruntime (s.proc 1) < intendedVruntime (s.proc 0)))
    (by decide +kernel)
  simp only [Bool.and_eq_true, beq_iff_eq, decide_eq_true_eq] at hp
  obtain ⟨⟨⟨hc, hpass⟩, hr⟩, hlt⟩ := hp
  -- the machine's own iterations on CPU 1 carry out the pass
  refine ⟨s, hs, 0, 1, hr, hlt, _, (run_schedulerPass 2 s 1 hc).2 0 hpass, ?_⟩
  simp [Sys.cur, Sys.setProc]

/-! ## The divisor of the vruntime -/

/-- A successful `fork` leaves the child RUNNABLE with its three counters `0`: the divisor
`p->rtime + p->stime + p->retime` of its vruntime is `0` until its first tick, so the next
`getMinVruntime()` divides by zero (`divw` gives `-1`). -/
theorem cfs_divisor_zero (s : Sys) (p i : Fin NPROC) (hi : freeSlot s.proc = some i) :
    ((fork s p true).proc i).active = true ∧
      int32 (((fork s p true).proc i).rtime + ((fork s p true).proc i).stime +
        ((fork s p true).proc i).retime) = 0 ∧
      vruntime ((fork s p true).proc i) = -1 := by
  have hc : (fork s p true).proc i =
      { (fork s p true).proc i with state := .runnable, rtime := 0, stime := 0, retime := 0 } := by
    simp [fork, hi, Sys.setProc]
  rw [hc]
  simp [Proc.active, vruntime, divw, int32, wrap]

/-- `init` running on CPU 0 right after boot: its first `fork` puts the child in slot 1. -/
theorem cfs_divisor_zero_boot :
    ∃ s, Reachable 2 s ∧ s.cur 0 = some 0 ∧ freeSlot s.proc = some 1 ∧
      ((fork s 0 true).proc 1).active = true ∧
      int32 (((fork s 0 true).proc 1).rtime + ((fork s 0 true).proc 1).stime +
        ((fork s 0 true).proc 1).retime) = 0 ∧
      vruntime ((fork s 0 true).proc 1) = -1 := by
  obtain ⟨s, hs, hp⟩ := Run.exists_reachable_of_run (next 2) boot [.schedIter 0]
    (fun s => s.cur 0 == some 0 && freeSlot s.proc == some 1) (by decide)
  simp only [Bool.and_eq_true, beq_iff_eq] at hp
  exact ⟨s, hs, hp.1, hp.2, cfs_divisor_zero s 0 1 hp.2⟩

end Xv6
