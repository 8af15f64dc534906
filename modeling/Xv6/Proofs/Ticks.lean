import Xv6.Spec.Machine

/-! Time accounting. A clock tick on CPU 0 runs `clockintr()`, whose `wakeup(&ticks)`
already counts one tick for every process with `pid > 4` in its first loop, and then
`update_ticks()`, which counts it again for every process. So a process created by
`fork` gets two counts per tick, where one per tick is what `update_ticks` is for. -/

namespace Xv6

theorem wakeupSlot_other {chan : Chan} {me : Option (Fin NPROC)} {t : Table} {i j : Fin NPROC}
    (h : j ≠ i) : wakeupSlot chan me t j i = t i := by
  unfold wakeupSlot
  split_ifs <;> simp [Function.update_of_ne h.symm]

theorem wakeupSlot_self (chan : Chan) (me : Option (Fin NPROC)) (t : Table) (i : Fin NPROC) :
    let q := wakeupSlot chan me t i i
    q.rtime = (t i).rtime ∧ q.stime = (t i).stime ∧ q.retime = (t i).retime ∧ q.pid = (t i).pid ∧
      q.chan = (t i).chan ∧
      q.state = if me ≠ some i ∧ (t i).state = .sleeping ∧ (t i).chan = chan
        then .runnable else (t i).state := by
  unfold wakeupSlot
  by_cases hme : me = some i
  · simp [hme]
  · by_cases hc : (t i).state = .sleeping ∧ (t i).chan = chan
    · simp [hme, hc]
    · simp [hme, hc]

/-- `wakeup`'s second loop touches only the state and accumulator of a slot; the state
becomes RUNNABLE exactly when the slot slept on the channel and is not the caller. -/
theorem foldl_wakeupSlot (chan : Chan) (me : Option (Fin NPROC)) (i : Fin NPROC) :
    ∀ (l : List (Fin NPROC)) (t : Table),
      let q := l.foldl (wakeupSlot chan me) t i
      q.rtime = (t i).rtime ∧ q.stime = (t i).stime ∧ q.retime = (t i).retime ∧ q.pid = (t i).pid ∧
      q.state = if i ∈ l ∧ me ≠ some i ∧ (t i).state = .sleeping ∧ (t i).chan = chan
        then .runnable else (t i).state
  | [], t => by simp
  | j :: l, t => by
    obtain ⟨h1, h2, h3, h4, h5⟩ := foldl_wakeupSlot chan me i l (wakeupSlot chan me t j)
    simp only [List.foldl_cons]
    by_cases hji : j = i
    · -- slot `i` itself: woken here or left alone; either way no later iteration wakes it
      subst hji
      obtain ⟨e1, e2, e3, e4, e5, e6⟩ := wakeupSlot_self chan me t j
      rw [e1] at h1; rw [e2] at h2; rw [e3] at h3; rw [e4] at h4; rw [e5, e6] at h5
      refine ⟨h1, h2, h3, h4, h5.trans ?_⟩
      by_cases hc : me ≠ some j ∧ (t j).state = .sleeping ∧ (t j).chan = chan
      · simp [hc]
      · simp only [hc, if_false, List.mem_cons, true_or, true_and]
        simp_all
    · rw [wakeupSlot_other hji] at h1 h2 h3 h4 h5
      refine ⟨h1, h2, h3, h4, h5.trans ?_⟩
      simp [List.mem_cons, Ne.symm hji]

/-- The counters of slot `i` after `wakeup`: its first loop's counting, and the state its
second loop leaves. -/
theorem wakeup_apply (chan : Chan) (me : Option (Fin NPROC)) (t : Table) (i : Fin NPROC) :
    let q := wakeup chan me t i
    q.rtime = (wakeupCount (t i)).rtime ∧ q.stime = (wakeupCount (t i)).stime ∧
      q.retime = (wakeupCount (t i)).retime ∧
      q.state = if me ≠ some i ∧ (t i).state = .sleeping ∧ (t i).chan = chan
        then .runnable else (t i).state := by
  obtain ⟨h1, h2, h3, -, h5⟩ := foldl_wakeupSlot chan me i slots fun i => wakeupCount (t i)
  have hst : (wakeupCount (t i)).state = (t i).state := by
    unfold wakeupCount; split_ifs <;> rfl
  have hch : (wakeupCount (t i)).chan = (t i).chan := by
    unfold wakeupCount; split_ifs <;> rfl
  refine ⟨h1, h2, h3, ?_⟩
  rw [wakeup, h5, hst, hch]
  simp [mem_slots]

/-- One clock tick counts twice for a RUNNABLE process with `pid > 4`, in its `retime` only. -/
theorem tick_retime_twice (ty : ℕ) (s : Sys) (i : Fin NPROC) (hpid : 4 < (s.proc i).pid)
    (hr : (s.proc i).state = .runnable) :
    ∃ s', next ty s .tick = some s' ∧ s'.ticks = (s.ticks + 1) % 2 ^ 32 ∧
      (s'.proc i).retime = int32 (int32 ((s.proc i).retime + 1) + 1) ∧
      (s'.proc i).rtime = (s.proc i).rtime ∧ (s'.proc i).stime = (s.proc i).stime := by
  refine ⟨_, rfl, rfl, ?_⟩
  obtain ⟨h1, h2, h3, h5⟩ := wakeup_apply .ticks (s.cur 0) s.proc i
  simp only [hr, reduceCtorEq, false_and, and_false, if_false] at h5
  have hw : wakeupCount (s.proc i) = { s.proc i with retime := int32 ((s.proc i).retime + 1) } := by
    simp [wakeupCount, hr, hpid]
  simp only [updateTicks, tickProc, h5, h1, h2, h3, hw, and_self]

/-- Boot, CPU 0 switches to `init`, and `init` forks four times: the children get pids
2 to 5, in slots 1 to 4. -/
def forkFour : List Event := [.schedIter 0, .fork 0 true, .fork 0 true, .fork 0 true, .fork 0 true]

/-- After the four forks the child with pid 5 has counted nothing; one clock tick later
its `rtime + stime + retime` is 2. -/
theorem tick_counts_twice :
    ((Run.run (next SCHEDULER_TYPE) boot forkFour).bind fun s₀ =>
      (next SCHEDULER_TYPE s₀ .tick).map fun s =>
        ((s₀.proc 4).pid, (s₀.proc 4).rtime + (s₀.proc 4).stime + (s₀.proc 4).retime,
          s.ticks - s₀.ticks, (s.proc 4).rtime + (s.proc 4).stime + (s.proc 4).retime)) =
      some (5, 0, 1, 2) := by
  -- the run only has to bring the child with pid 5 to RUNNABLE with nothing counted
  obtain ⟨s₀, hrun, hp⟩ := Run.exists_of_run_map
    (show (Run.run (next SCHEDULER_TYPE) boot forkFour).map (fun s =>
      (s.proc 4).pid == 5 && (s.proc 4).state == .runnable && (s.proc 4).rtime == 0 &&
        (s.proc 4).stime == 0 && (s.proc 4).retime == 0 && s.ticks == 0) = some true by decide)
  simp only [Bool.and_eq_true, beq_iff_eq] at hp
  obtain ⟨⟨⟨⟨⟨hpid, hr⟩, h1⟩, h2⟩, h3⟩, ht⟩ := hp
  obtain ⟨s', hnext, hticks, hre, hrt, hst⟩ := tick_retime_twice SCHEDULER_TYPE s₀ 4 (by rw [hpid]; decide) hr
  rw [hrun, Option.bind_some, hnext, Option.map_some, hticks, hre, hrt, hst, hpid, h1, h2, h3, ht]
  decide

/-! ## How long `sys_sleep` sleeps -/

theorem toNat_toUInt32 (n : Int32) : (n.toUInt32.toNat : ℤ) = n.toInt % 2 ^ 32 := by
  rw [← UInt32.toNat_toBitVec, Int32.toBitVec_toUInt32, ← Int32.toInt_toBitVec,
    BitVec.toInt_eq_toNat_bmod]
  have h : Int.bmod (n.toBitVec.toNat : ℤ) (2 ^ 32) % ((2 ^ 32 : ℕ) : ℤ) =
      (n.toBitVec.toNat : ℤ) % ((2 ^ 32 : ℕ) : ℤ) := Int.bmod_emod
  have hlt := n.toBitVec.isLt
  simp only [Nat.cast_pow, Nat.cast_ofNat] at h
  rw [h]
  omega

/-- The loop test in numbers: the ticks counted since `ticks0`, modulo `2 ^ 32`, are fewer
than `n` modulo `2 ^ 32`. -/
theorem sleepMore_iff (n : Int32) (ticks0 ticks : UInt32) :
    sleepMore n ticks0 ticks = true ↔ ((ticks - ticks0).toNat : ℤ) < n.toInt % 2 ^ 32 := by
  rw [sleepMore, decide_eq_true_iff, UInt32.lt_iff_toNat_lt, ← toNat_toUInt32]
  exact Int.ofNat_lt.symm

theorem sleepMore_of_nonneg {n : Int32} (hn : 0 ≤ n.toInt) (ticks0 ticks : UInt32) :
    sleepMore n ticks0 ticks = true ↔ ((ticks - ticks0).toNat : ℤ) < n.toInt := by
  have hlt := n.toInt_lt
  rw [sleepMore_iff, Int.emod_eq_of_lt hn (by omega)]

theorem sleepMore_of_neg {n : Int32} (hn : n.toInt < 0) (ticks0 ticks : UInt32) :
    sleepMore n ticks0 ticks = true ↔ ((ticks - ticks0).toNat : ℤ) < 2 ^ 32 + n.toInt := by
  have hle := n.le_toInt
  have hmod : n.toInt % 2 ^ 32 = 2 ^ 32 + n.toInt := by omega
  rw [sleepMore_iff, hmod]

/-- The loop returns at the first test that fails or finds the caller killed: `0` when the
test failed there, `-1` when it still held. -/
theorem sysSleepLoop_eq_find (n : Int32) (ticks0 : UInt32) (obs : List (UInt32 × Bool)) :
    sysSleepLoop n ticks0 obs =
      (obs.find? fun w => !sleepMore n ticks0 w.1 || w.2).map
        fun w => if sleepMore n ticks0 w.1 then -1 else 0 := by
  induction obs with
  | nil => rfl
  | cons w obs ih =>
    obtain ⟨ticks, killed⟩ := w
    rw [sysSleepLoop, List.find?_cons]
    by_cases hm : sleepMore n ticks0 ticks <;> cases killed <;> simp [hm, ih]

theorem sysSleepLoop_none {n : Int32} {ticks0 : UInt32} {obs : List (UInt32 × Bool)}
    (h : ∀ w ∈ obs, sleepMore n ticks0 w.1 = true ∧ w.2 = false) : sysSleepLoop n ticks0 obs = none := by
  rw [sysSleepLoop_eq_find, Option.map_eq_none_iff, List.find?_eq_none]
  intro w hw
  simp [(h w hw).1, (h w hw).2]

theorem sleepMore_eq_decide {n : Int32} (hn : 0 ≤ n.toInt) (ticks0 ticks : UInt32) :
    sleepMore n ticks0 ticks = decide (((ticks - ticks0).toNat : ℤ) < n.toInt) :=
  Bool.eq_iff_iff.mpr ((sleepMore_of_nonneg hn ticks0 ticks).trans decide_eq_true_iff.symm)

/-- For `0 ≤ n`, `sys_sleep(n)` returns at its first test, at entry or after a wake-up, at
which `n` ticks have been counted since `ticks0` or the caller is killed: `0` when the ticks
are there, `-1` when not. The count is modulo `2 ^ 32`, so a wrap of `ticks` in between does
not change it. -/
theorem sysSleep_nonneg (n : Int32) (hn : 0 ≤ n.toInt) (ticks0 : UInt32) (killed : Bool)
    (wakeups : List (UInt32 × Bool)) :
    sysSleep n ticks0 killed wakeups =
      (((ticks0, killed) :: wakeups).find? fun w =>
          decide (n.toInt ≤ ((w.1 - ticks0).toNat : ℤ)) || w.2).map
        fun w => if ((w.1 - ticks0).toNat : ℤ) < n.toInt then -1 else 0 := by
  simp only [sysSleep, sysSleepLoop_eq_find, sleepMore_eq_decide hn, decide_eq_true_eq,
    ← decide_not, not_lt]

/-- `sleep(3)` entered two ticks before `ticks` wraps returns 0 at the wake-up one tick after
the wrap. -/
theorem sysSleep_nonneg_wrap :
    0 ≤ (3 : Int32).toInt ∧ sysSleep 3 0xfffffffe false [(0xffffffff, false), (1, false)] = some 0 := by
  refine ⟨by decide, ?_⟩
  rw [sysSleep_nonneg 3 (by decide)]
  decide

/-- A negative `n` does not return at once: converted to `uint` it is `2 ^ 32 + n`, and
`sys_sleep(n)` sleeps until that many ticks have been counted or the caller is killed. -/
theorem sysSleep_negative (n : Int32) (hn : n.toInt < 0) (ticks0 : UInt32)
    (wakeups : List (UInt32 × Bool))
    (hw : ∀ w ∈ wakeups, w.2 = false ∧ ((w.1 - ticks0).toNat : ℤ) < 2 ^ 32 + n.toInt) :
    sysSleep n ticks0 false wakeups = none := by
  have hle := n.le_toInt
  apply sysSleepLoop_none
  rintro ⟨ticks, killed⟩ hmem
  rcases List.mem_cons.mp hmem with h | h
  · -- the test at entry: no tick counted yet
    obtain ⟨rfl, rfl⟩ := Prod.mk.inj h
    refine ⟨(sleepMore_of_neg hn _ _).mpr ?_, rfl⟩
    simp only [UInt32.sub_self, UInt32.toNat_zero, Nat.cast_zero]
    omega
  · exact ⟨(sleepMore_of_neg hn _ _).mpr (hw _ h).2, (hw _ h).1⟩

/-- `sleep(-1)` entered 16 ticks before `ticks` wraps is still asleep 32 ticks later. -/
theorem sysSleep_negative_wrap :
    (-1 : Int32).toInt < 0 ∧
      (∀ w ∈ [((0x10 : UInt32), false)], w.2 = false ∧
        ((w.1 - 0xfffffff0).toNat : ℤ) < 2 ^ 32 + (-1 : Int32).toInt) ∧
      sysSleep (-1) 0xfffffff0 false [(0x10, false)] = none := by
  -- the one wake-up checked by hand: `decide` over a list quantifier would enumerate `UInt32`
  have hw : ∀ w ∈ [((0x10 : UInt32), false)], w.2 = false ∧
      ((w.1 - 0xfffffff0).toNat : ℤ) < 2 ^ 32 + (-1 : Int32).toInt :=
    List.forall_mem_singleton.mpr ⟨rfl, by decide⟩
  exact ⟨by decide, hw, sysSleep_negative (-1) (by decide) 0xfffffff0 _ hw⟩

end Xv6
