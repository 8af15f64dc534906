import Xv6.Spec.Machine

/-! Recycled slots. `freeproc` clears `killed` and `pid`, but `kill(pid)` compares pids
over every slot, UNUSED ones included, so `kill(0)` marks a free slot. `allocproc` and
`fork` do not clear `killed`, so the next child placed in that slot is born killed.
Neither does `freeproc` clear the accumulator, and `fork` sets the child RUNNABLE before
`getMinAccumulator()`, so the child's new accumulator is taken over its own stale one. -/

namespace Xv6

/-- `kill` returns 0 and marks the first slot whose pid matches, even an UNUSED one,
which it leaves UNUSED. -/
theorem kill_marks_unused (t : Table) (pid : ℤ) (i : Fin NPROC)
    (hfirst : slots.find? (fun j => (t j).pid == pid) = some i) (hu : (t i).state = .unused) :
    (kill t pid).1 = 0 ∧ ((kill t pid).2 i).killed = 1 ∧ ((kill t pid).2 i).state = .unused := by
  simp [kill, hfirst, Proc.markKilled, hu]

theorem fork_keeps_killed (s : Sys) (p i : Fin NPROC) (hi : freeSlot s.proc = some i) :
    ((fork s p true).proc i).killed = (s.proc i).killed ∧ ((fork s p true).proc i).pid = s.nextpid ∧
      ((fork s p true).proc i).state = .runnable ∧ ((fork s p true).proc i).parent = some p := by
  simp [fork, hi, Sys.setProc]

/-- From boot: CPU 0 switches to `init`; `init` calls `kill(0)`, which returns 0 although
every slot with pid 0 is UNUSED; `init` then forks, and the child (pid 2, slot 1) starts
RUNNABLE with `killed = 1`. -/
theorem kill_zero_child_born_killed :
    ((Run.run (next SCHEDULER_TYPE) boot [.schedIter 0]).map fun s₁ =>
      ((kill s₁.proc 0).1, slots.all fun i => (s₁.proc i).pid != 0 || (s₁.proc i).state == .unused)) =
      some (0, true) ∧
    ((Run.run (next SCHEDULER_TYPE) boot [.schedIter 0, .kill 0 0, .fork 0 true]).map fun s =>
      ((s.proc 1).pid, (s.proc 1).killed, (s.proc 1).state == .runnable, (s.proc 1).parent)) =
      some (2, 1, true, some 0) := by
  -- the run only has to bring the table to where the two lemmas above apply
  obtain ⟨s₁, hrun, hp⟩ := Run.exists_of_run_map
    (show (Run.run (next SCHEDULER_TYPE) boot [.schedIter 0]).map (fun s =>
      s.cur 0 == some 0 && s.nextpid == 2 && slots.find? (fun j => (s.proc j).pid == 0) == some 1 &&
        (s.proc 1).state == .unused && (slots.all fun i => (s.proc i).pid != 0 || (s.proc i).state == .unused) &&
        freeSlot (kill s.proc 0).2 == some 1 && Sys.cur { s with proc := (kill s.proc 0).2 } 0 == some (0 : Fin NPROC)) =
      some true by decide)
  simp only [Bool.and_eq_true, beq_iff_eq] at hp
  obtain ⟨⟨⟨⟨⟨⟨hcur, hpid⟩, hfind⟩, hu⟩, hall⟩, hfree⟩, hcur₂⟩ := hp
  obtain ⟨hk0, hk1, -⟩ := kill_marks_unused s₁.proc 0 1 hfind hu
  obtain ⟨hkilled, hnew, hstate, hparent⟩ := fork_keeps_killed { s₁ with proc := (kill s₁.proc 0).2 } 0 1 hfree
  constructor
  · rw [hrun, Option.map_some, hk0, hall]
  · rw [show ([.schedIter 0, .kill 0 0, .fork 0 true] : List Event) = [.schedIter 0] ++ [.kill 0 0, .fork 0 true]
      from rfl, Run.run_append, hrun]
    simp only [Option.bind_some, Run.run, next, hcur, hcur₂, Option.map_some]
    rw [hkilled, hnew, hstate, hparent, hpid, hk1]
    rfl


/-! ## The accumulator a recycled slot hands on -/

/-- A RUNNABLE or RUNNING slot whose positive accumulator is below every other one, all of
them fitting in an `int`, holds what `getMinAccumulator` returns. -/
theorem getMinAccumulator_least (t : Table) (i : Fin NPROC) (hi : (t i).active = true)
    (hpos : 0 < (t i).accumulator)
    (hlt : ∀ j, j ≠ i → (t j).active = true → (t i).accumulator < (t j).accumulator)
    (hfit : ∀ j, (t j).active = true → (t j).accumulator < 2 ^ 31) :
    getMinAccumulator t = (t i).accumulator := by
  -- every active accumulator is at least the positive one of `i`, so none is `0`
  have hge : ∀ j, (t j).active = true → (t i).accumulator ≤ (t j).accumulator := by
    intro j hj
    by_cases hji : j = i
    · rw [hji]
    · exact (hlt j hji hj).le
  have hr : ∀ j, (t j).active = true → -2 ^ 31 ≤ (t j).accumulator ∧ (t j).accumulator < 2 ^ 31 :=
    fun j hj => ⟨by linarith [hge j hj], hfit j hj⟩
  rw [getMinAccumulator_eq_scanMin t hr, Scan.scanMin]
  have hmem : (t i).accumulator ∈ (slots.filter fun j => (t j).active).map fun j => (t j).accumulator :=
    List.mem_map.mpr ⟨i, List.mem_filter.mpr ⟨mem_slots i, hi⟩, rfl⟩
  have hnz : ∀ x ∈ (slots.filter fun j => (t j).active).map fun j => (t j).accumulator, x ≠ 0 := by
    simp only [List.mem_map, List.mem_filter]
    rintro x ⟨j, ⟨-, hj⟩, rfl⟩
    linarith [hge j hj]
  obtain ⟨hin, hle⟩ := Scan.sentinelMin_spec hnz (List.ne_nil_of_mem hmem)
  obtain ⟨j, hj, hjx⟩ := List.mem_map.mp hin
  rw [List.mem_filter] at hj
  have h1 := hle _ hmem
  by_cases hji : j = i
  · rw [← hjx, hji]
  · have := hlt j hji hj.2
    omega

/-- A successful `fork` into a slot whose stale accumulator is positive and below every
RUNNABLE or RUNNING process's gives the child that stale accumulator, which is below
the accumulator of every other RUNNABLE or RUNNING process. -/
theorem fork_acc_stale (s : Sys) (p i : Fin NPROC) (hi : freeSlot s.proc = some i)
    (hpos : 0 < (s.proc i).accumulator)
    (hlt : ∀ j, j ≠ i → (s.proc j).active = true → (s.proc i).accumulator < (s.proc j).accumulator)
    (hfit : ∀ j, (s.proc j).active = true ∨ j = i → (s.proc j).accumulator < 2 ^ 31) :
    ((fork s p true).proc i).accumulator = (s.proc i).accumulator ∧
      ∀ j, j ≠ i → ((fork s p true).proc j).active = true →
        ((fork s p true).proc i).accumulator < ((fork s p true).proc j).accumulator := by
  have hacc : ((fork s p true).proc i).accumulator = (s.proc i).accumulator := by
    simp only [fork, hi, if_true, Sys.setProc, Function.update_self, Function.update_idem]
    rw [getMinAccumulator_least _ i (by simp [Proc.active]) (by simpa using hpos)]
    · simp
    · intro j hj hact
      simp only [Function.update_of_ne hj, Function.update_self] at hact ⊢
      exact hlt j hj hact
    · intro j hact
      by_cases hj : j = i
      · subst hj; simpa using hfit j (.inr rfl)
      · simp only [Function.update_of_ne hj] at hact ⊢
        exact hfit j (.inl hact)
  refine ⟨hacc, fun j hj hact => ?_⟩
  -- the other slots are as `fork` found them
  have hother : (fork s p true).proc j = s.proc j := by
    simp [fork, hi, Sys.setProc, Function.update_of_ne hj]
  rw [hacc, hother]
  rw [hother] at hact
  exact hlt j hj hact

/-- `init` forks a child (slot 1) and yields; the child sets priority 1, yields once
(accumulator 1), runs again on CPU 2 and exits; `init`, running on CPU 1 with accumulator
5, reaps it. Slot 1 is free again with accumulator 1. -/
def recycleRun : List Event :=
  [.schedIter 0, .fork 0 true, .timerYield 0, .schedIter 0, .setPsPriority 0 1, .timerYield 0,
   .schedIter 1, .schedIter 2, .schedIter 2, .exit 2 0 (fun _ => 0), .wait 1 true]

/-- There `init` (running on CPU 1, accumulator 5) forks: the child in slot 1 gets
accumulator 1, its predecessor's, not 5. -/
theorem fork_acc_stale_recycled :
    ∃ s, Reachable 2 s ∧ s.cur 1 = some 0 ∧ (s.proc 0).accumulator = 5 ∧
      ((fork s 0 true).proc 1).accumulator = 1 ∧
      ∀ j, j ≠ 1 → ((fork s 0 true).proc j).active = true →
        ((fork s 0 true).proc 1).accumulator < ((fork s 0 true).proc j).accumulator := by
  obtain ⟨s, hs, hp⟩ := Run.exists_reachable_of_run (next 2) boot recycleRun
    (fun s => freeSlot s.proc == some 1 && (s.proc 1).accumulator == 1 && (s.proc 0).accumulator == 5 &&
      s.cur 1 == some 0 &&
      slots.all fun j => j == 1 || !(s.proc j).active ||
        decide ((s.proc 1).accumulator < (s.proc j).accumulator) && decide ((s.proc j).accumulator < 2 ^ 31))
    (by decide +kernel)
  simp only [Bool.and_eq_true, beq_iff_eq, List.all_eq_true, Bool.or_eq_true, Bool.not_eq_true',
    decide_eq_true_eq] at hp
  obtain ⟨⟨⟨⟨hfree, h1⟩, h0⟩, hcur⟩, hall⟩ := hp
  have hother : ∀ j, j ≠ 1 → (s.proc j).active = true →
      (s.proc 1).accumulator < (s.proc j).accumulator ∧ (s.proc j).accumulator < 2 ^ 31 := by
    intro j hj hact
    have := hall j (mem_slots j)
    simpa [hj, hact] using this
  have hfit : ∀ j, (s.proc j).active = true ∨ j = 1 → (s.proc j).accumulator < 2 ^ 31 := by
    rintro j (hact | rfl)
    · by_cases hj : j = 1
      · subst hj; omega
      · exact (hother j hj hact).2
    · omega
  obtain ⟨hacc, hbelow⟩ := fork_acc_stale s 0 1 hfree (by omega) (fun j hj hact => (hother j hj hact).1) hfit
  exact ⟨s, hs, hcur, h0, hacc.trans h1, hbelow⟩

end Xv6
