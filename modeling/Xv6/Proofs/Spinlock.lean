import Mathlib.Data.Fintype.Card
import Xv6.Spec.Spinlock
import Xv6.Lib.Run
import Xv6.Lib.Except

/-! Spinlocks. A CPU owns a lock from the `amoswap` that read `0` to its `release`, first
through its place in `acquire` and then through `lk->cpu`. In every run each lock has at most
one owner, and `locked` is `1` exactly while it has one (`spinlock_exclusive`). A CPU's
`noff` counts the locks it owns, the `acquire` it spins in and its callers' `push_off`s, and
its interrupts are off while `noff` is positive (`spinlock_interrupts`); so `release` by the
holder and a caller's matched `pop_off` never panic (`spinlock_no_panic`), and a run of
matched calls gives a CPU back its interrupt state (`pop_off_restores`). -/

namespace Xv6

variable {κ : Type}

/-! ## Updates -/

namespace SpinSys

variable {s : SpinSys κ}

@[simp] theorem setCpu_cpus (id : Fin NCPU) (c : LockCpu κ) (id' : Fin NCPU) :
    (s.setCpu id c).cpus id' = if id' = id then c else s.cpus id' :=
  Function.update_apply _ _ _ _

@[simp] theorem setCpu_locks (id : Fin NCPU) (c : LockCpu κ) : (s.setCpu id c).locks = s.locks := rfl

variable [DecidableEq κ]

@[simp] theorem setLock_locks (lk : κ) (l : Spinlock) (lk' : κ) :
    (s.setLock lk l).locks lk' = if lk' = lk then l else s.locks lk' :=
  Function.update_apply _ _ _ _

@[simp] theorem setLock_cpus (lk : κ) (l : Spinlock) : (s.setLock lk l).cpus = s.cpus := rfl

end SpinSys

section Cpu

variable {c c' : LockCpu κ}

@[simp] theorem pushOff_noff : (pushOff c).noff = c.noff + 1 := by
  unfold pushOff
  dsimp only
  split_ifs <;> rfl

@[simp] theorem pushOff_sie : (pushOff c).sie = false := by
  unfold pushOff
  dsimp only
  split_ifs <;> rfl

@[simp] theorem pushOff_pc : (pushOff c).pc = c.pc := by
  unfold pushOff
  dsimp only
  split_ifs <;> rfl

@[simp] theorem pushOff_pushed : (pushOff c).pushed = c.pushed := by
  unfold pushOff
  dsimp only
  split_ifs <;> rfl

theorem pushOff_intena : (pushOff c).intena = if c.noff = 0 then c.sie else c.intena := by
  unfold pushOff
  dsimp only
  split_ifs <;> rfl

/-- `pop_off()` that did not panic found interrupts off and `noff` positive; it counts down,
and turns interrupts on when it reaches `0` with `intena` set. -/
theorem popOff_eq_ok (h : popOff c = .ok c') :
    c.sie = false ∧ 1 ≤ c.noff ∧ c'.noff = c.noff - 1 ∧ c'.intena = c.intena ∧ c'.pc = c.pc ∧
      c'.pushed = c.pushed ∧ c'.sie = (decide (c.noff = 1) && c.intena) := by
  unfold popOff at h
  by_cases hs : c.sie = true
  · rw [if_pos hs] at h
    cases h
  by_cases hn : c.noff < 1
  · rw [if_neg hs, if_pos hn] at h
    cases h
  rw [if_neg hs, if_neg hn] at h
  rw [Bool.not_eq_true] at hs
  refine ⟨hs, by omega, ?_⟩
  dsimp only at h
  split_ifs at h with hz <;> cases h
  · -- the outermost `pop_off`, with interrupts on before the outermost `push_off`
    have h1 : c.noff = 1 := by have := hz.1; omega
    simp [h1, hz.2]
  · by_cases h1 : c.noff = 1
    · have hi : c.intena = false := by
        simp only [not_and, Bool.not_eq_true] at hz
        exact hz (by omega)
      simp [hs, hi]
    · simp [hs, h1]

theorem popOff_sie (hc : popOff c = .ok c') (hpos : 0 < c'.noff) : c'.sie = false := by
  obtain ⟨-, -, hn, -, -, -, hs⟩ := popOff_eq_ok hc
  rw [hs, decide_eq_false (by omega), Bool.false_and]

theorem popOff_ok (hs : c.sie = false) (hn : 0 < c.noff) : ∃ c', popOff c = .ok c' := by
  unfold popOff
  rw [if_neg (by simp [hs]), if_neg (by omega)]
  exact ⟨_, rfl⟩

end Cpu

/-! ## What a step can do -/

section Steps

variable [DecidableEq κ]

variable {s s' : SpinSys κ} {id : Fin NCPU} {lk : κ}

/-- `release` that did not panic: the CPU held the lock, which it leaves as `initlock` made
it, and its `pop_off` did not panic. -/
theorem release_eq_ok (h : release s id lk = .ok s') :
    holding (s.locks lk) id = true ∧ ∃ c, popOff (s.cpus id) = .ok c ∧ s' = (s.setLock lk initlock).setCpu id c := by
  unfold release at h
  by_cases hh : holding (s.locks lk) id = true
  · rw [if_neg (by simp [hh])] at h
    obtain ⟨c, hc, h⟩ := Except.bind_eq_ok.mp h
    refine ⟨hh, c, hc, ?_⟩
    cases h
    simp only [SpinSys.setLock, SpinSys.setCpu, Function.update_idem, Function.update_self, initlock]
  · rw [if_pos (by simpa using hh)] at h
    cases h

theorem release_of_holding {c : LockCpu κ} (hh : holding (s.locks lk) id = true) (hc : popOff (s.cpus id) = .ok c) :
    release s id lk = .ok ((s.setLock lk initlock).setCpu id c) := by
  unfold release
  rw [if_neg (by simp [hh])]
  show (popOff (s.cpus id) >>= _) = _
  rw [hc, Except.ok_bind]
  simp only [SpinSys.setLock, SpinSys.setCpu, Function.update_idem, Function.update_self, initlock]
  rfl

/-- What one step can do: start an `acquire` of a lock the CPU does not hold, take one turn of
its spin loop or end it, `release` a lock the CPU holds, or one of the other calls. -/
theorem spinNext_cases {e : SpinEvent κ} (h : spinNext s e = some s') :
    (∃ id lk, (s.cpus id).pc = .out ∧ holding (s.locks lk) id = false ∧
      s' = s.setCpu id { pushOff (s.cpus id) with pc := .spin lk } ∧ e = .acquire id lk) ∨
    (∃ id lk, (s.cpus id).pc = .spin lk ∧ s' = acquireSpin s id lk ∧ e = .step id) ∨
    (∃ id lk, (s.cpus id).pc = .took lk ∧ s' = acquireDone s id lk ∧ e = .step id) ∨
    (∃ id lk c, (s.cpus id).pc = .out ∧ holding (s.locks lk) id = true ∧ popOff (s.cpus id) = .ok c ∧
      s' = (s.setLock lk initlock).setCpu id c ∧ e = .release id lk) ∨
    (∃ id, (s.cpus id).pc = .out ∧
      s' = s.setCpu id { pushOff (s.cpus id) with pushed := (s.cpus id).pushed + 1 } ∧ e = .pushOff id) ∨
    (∃ id c, (s.cpus id).pc = .out ∧ 0 < (s.cpus id).pushed ∧ popOff (s.cpus id) = .ok c ∧
      s' = s.setCpu id { c with pushed := c.pushed - 1 } ∧ e = .popOff id) ∨
    (∃ id, (s.cpus id).pc = .out ∧ (s.cpus id).noff = 0 ∧ s' = s.setCpu id { s.cpus id with sie := true } ∧
      e = .intrOn id) ∨
    (∃ id, (s.cpus id).pc = .out ∧ s' = s.setCpu id { s.cpus id with sie := false } ∧ e = .intrOff id) := by
  have hstep : spinStep s e = some (.ok s') := by
    unfold spinNext at h
    split at h
    · next heq => cases h; exact heq
    · cases h
  cases e with
  | acquire id lk =>
    simp only [spinStep] at hstep
    split_ifs at hstep with hpc
    unfold acquireStart at hstep
    dsimp only at hstep
    split_ifs at hstep with hh
    · cases hstep
    · obtain rfl := Except.ok.inj (Option.some.inj hstep)
      exact .inl ⟨id, lk, hpc, by simpa using hh, rfl, rfl⟩
  | step id =>
    simp only [spinStep] at hstep
    split at hstep
    · cases hstep
    · next lk hpc =>
      cases hstep
      exact .inr (.inl ⟨id, lk, hpc, rfl, rfl⟩)
    · next lk hpc =>
      cases hstep
      exact .inr (.inr (.inl ⟨id, lk, hpc, rfl, rfl⟩))
  | release id lk =>
    simp only [spinStep] at hstep
    split_ifs at hstep with hpc
    obtain ⟨hh, c, hc, rfl⟩ := release_eq_ok (Option.some.inj hstep)
    exact .inr (.inr (.inr (.inl ⟨id, lk, c, hpc, hh, hc, rfl, rfl⟩)))
  | pushOff id =>
    simp only [spinStep] at hstep
    split_ifs at hstep with hpc
    cases hstep
    exact .inr (.inr (.inr (.inr (.inl ⟨id, hpc, rfl, rfl⟩))))
  | popOff id =>
    simp only [spinStep] at hstep
    split_ifs at hstep with hpc
    obtain ⟨c, hc, he⟩ := Except.map_eq_ok.mp (Option.some.inj hstep)
    exact .inr (.inr (.inr (.inr (.inr (.inl ⟨id, c, hpc.1, hpc.2, hc, he.symm, rfl⟩)))))
  | intrOn id =>
    simp only [spinStep] at hstep
    split_ifs at hstep with hpc
    cases hstep
    exact .inr (.inr (.inr (.inr (.inr (.inr (.inl ⟨id, hpc.1, hpc.2, rfl, rfl⟩))))))
  | intrOff id =>
    simp only [spinStep] at hstep
    split_ifs at hstep with hpc
    cases hstep
    exact .inr (.inr (.inr (.inr (.inr (.inr (.inr ⟨id, hpc, rfl, rfl⟩))))))

end Steps


/-! ## Owners -/

/-- CPU `id` owns `lk`: it is past a winning `amoswap` on `lk`, or `lk->cpu` names it. -/
def Owns (s : SpinSys κ) (id : Fin NCPU) (lk : κ) : Prop :=
  (s.cpus id).pc = .took lk ∨ (s.locks lk).cpu = some id

instance [DecidableEq κ] (s : SpinSys κ) (id : Fin NCPU) (lk : κ) : Decidable (Owns s id lk) :=
  inferInstanceAs (Decidable (_ ∨ _))

/-- What each lock keeps: `locked` is a bit, clear exactly when no CPU owns the lock, and at
most one CPU owns it. -/
structure LockInv (s : SpinSys κ) (lk : κ) : Prop where
  bit : (s.locks lk).locked = 0 ∨ (s.locks lk).locked = 1
  free : (s.locks lk).locked = 0 ↔ ∀ id, ¬ Owns s id lk
  unique : ∀ id id', Owns s id lk → Owns s id' lk → id = id'

section Owners

variable {s s' : SpinSys κ}

theorem LockInv.congr {lk : κ} (hi : LockInv s lk) (hl : s'.locks lk = s.locks lk)
    (ho : ∀ id, Owns s' id lk ↔ Owns s id lk) : LockInv s' lk where
  bit := hl ▸ hi.bit
  free := by
    rw [hl]
    simp only [ho]
    exact hi.free
  unique id id' h h' := hi.unique id id' ((ho id).mp h) ((ho id').mp h')

theorem LockInv.of_owner {lk : κ} (id : Fin NCPU) (hl : (s.locks lk).locked = 1)
    (ho : ∀ j, Owns s j lk ↔ j = id) : LockInv s lk where
  bit := .inr hl
  free := ⟨fun h => absurd (h.symm.trans hl) (by decide), fun h => absurd ((ho id).mpr rfl) (h id)⟩
  unique j j' h h' := ((ho j).mp h).trans ((ho j').mp h').symm

theorem LockInv.of_free {lk : κ} (hl : (s.locks lk).locked = 0) (ho : ∀ j, ¬ Owns s j lk) : LockInv s lk where
  bit := .inl hl
  free := ⟨fun _ => ho, fun _ => hl⟩
  unique j _ h := absurd h (ho j)

theorem owns_setCpu {a : Fin NCPU} {c : LockCpu κ} {lk : κ} (hpc : c.pc = .took lk ↔ (s.cpus a).pc = .took lk)
    (id : Fin NCPU) : Owns (s.setCpu a c) id lk ↔ Owns s id lk := by
  unfold Owns
  by_cases h : id = a
  · subst h
    simp [hpc]
  · simp [h]

variable [DecidableEq κ]

theorem owns_setLock_of_ne {lk₀ lk : κ} {l : Spinlock} (hne : lk ≠ lk₀) (id : Fin NCPU) :
    Owns (s.setLock lk₀ l) id lk ↔ Owns s id lk := by
  unfold Owns
  simp [hne]

/-- A turn of the spin loop: a swap that reads `1` stores `1` again; one that reads `0` makes
the CPU the owner of a lock that had none. -/
theorem acquireSpin_inv (hi : ∀ lk, LockInv s lk) {id : Fin NCPU} {lk₀ : κ} (hpc : (s.cpus id).pc = .spin lk₀)
    (lk : κ) : LockInv (acquireSpin s id lk₀) lk := by
  unfold acquireSpin
  dsimp only
  by_cases h0 : (s.locks lk₀).locked = 0
  · rw [if_neg (not_not.mpr h0)]
    by_cases hlk : lk = lk₀
    · subst hlk
      refine LockInv.of_owner id (by simp) fun j => ?_
      by_cases hj : j = id
      · subst hj
        simp [Owns]
      · -- the lock had no owner, so `lk->cpu` was null
        have hfree := (hi lk).free.mp h0 j
        simp only [Owns, not_or] at hfree
        simp [Owns, hj, hfree.1, hfree.2]
    · exact (hi lk).congr (by simp [hlk])
        fun j => (owns_setCpu (by simp [hpc, Ne.symm hlk]) j).trans (owns_setLock_of_ne hlk j)
  · rw [if_pos h0]
    have h1 : (s.locks lk₀).locked = 1 := (hi lk₀).bit.resolve_left h0
    have hl : ({ s.locks lk₀ with locked := 1 } : Spinlock) = s.locks lk₀ := by rw [← h1]
    rw [hl, SpinSys.setLock, Function.update_eq_self]
    exact hi lk

/-- The end of `acquire`: the lock's only owner, past the winning swap, moves into
`lk->cpu`. -/
theorem acquireDone_inv (hi : ∀ lk, LockInv s lk) {id : Fin NCPU} {lk₀ : κ} (hpc : (s.cpus id).pc = .took lk₀)
    (lk : κ) : LockInv (acquireDone s id lk₀) lk := by
  unfold acquireDone
  by_cases hlk : lk = lk₀
  · subst hlk
    have hown : Owns s id lk := .inl hpc
    have h1 : (s.locks lk).locked = 1 := (hi lk).bit.resolve_left fun h => (hi lk).free.mp h id hown
    refine LockInv.of_owner id (by simp [h1]) fun j => ?_
    by_cases hj : j = id
    · subst hj
      simp [Owns]
    · -- no other CPU is past a winning swap on the lock
      have hno : ¬ Owns s j lk := fun h => hj ((hi lk).unique j id h hown)
      simp only [Owns, not_or] at hno
      simp [Owns, hj, hno.1, Ne.symm hj]
  · exact (hi lk).congr (by simp [hlk])
      fun j => (owns_setCpu (by simp [hpc, Ne.symm hlk]) j).trans (owns_setLock_of_ne hlk j)

/-- `release` by the holder: the lock is back as `initlock` made it, with no owner. -/
theorem release_inv (hi : ∀ lk, LockInv s lk) {id : Fin NCPU} {lk₀ : κ} {c : LockCpu κ}
    (hpc : (s.cpus id).pc = .out) (hh : holding (s.locks lk₀) id = true) (hc : popOff (s.cpus id) = .ok c)
    (lk : κ) : LockInv ((s.setLock lk₀ initlock).setCpu id c) lk := by
  have hcpc : c.pc = .out := (popOff_eq_ok hc).2.2.2.2.1.trans hpc
  by_cases hlk : lk = lk₀
  · subst hlk
    -- the holder ownedLocks the lock through `lk->cpu`, so no CPU was past a winning swap
    have hcpu : (s.locks lk).cpu = some id := by
      simp only [holding, Bool.and_eq_true, bne_iff_ne, ne_eq, beq_iff_eq] at hh
      exact hh.2
    refine LockInv.of_free (by simp [initlock]) fun j hj => ?_
    by_cases hji : j = id
    · subst hji
      simp [Owns, hcpc, initlock] at hj
    · simp [Owns, hji, initlock] at hj
      exact hji ((hi lk).unique j id (.inl hj) (.inr hcpu))
  · exact (hi lk).congr (by simp [hlk])
      fun j => (owns_setCpu (by simp [hpc, hcpc]) j).trans (owns_setLock_of_ne hlk j)

theorem LockInv.step {e : SpinEvent κ} (hi : ∀ lk, LockInv s lk) (h : spinNext s e = some s') (lk : κ) :
    LockInv s' lk := by
  rcases spinNext_cases h with ⟨id, lk₀, hpc, -, rfl, -⟩ | ⟨id, lk₀, hpc, rfl, -⟩ | ⟨id, lk₀, hpc, rfl, -⟩ |
    ⟨id, lk₀, c, hpc, hh, hc, rfl, -⟩ | ⟨id, hpc, rfl, -⟩ | ⟨id, c, hpc, -, hc, rfl, -⟩ | ⟨id, hpc, -, rfl, -⟩ |
    ⟨id, hpc, rfl, -⟩
  · -- `acquire` starts: the CPU enters the spin loop
    exact (hi lk).congr rfl (owns_setCpu (by simp [hpc]))
  · exact acquireSpin_inv hi hpc lk
  · exact acquireDone_inv hi hpc lk
  · exact release_inv hi hpc hh hc lk
  · exact (hi lk).congr rfl (owns_setCpu (by simp))
  · exact (hi lk).congr rfl (owns_setCpu (by simp [(popOff_eq_ok hc).2.2.2.2.1]))
  · exact (hi lk).congr rfl (owns_setCpu (by simp))
  · exact (hi lk).congr rfl (owns_setCpu (by simp))

theorem lockInv_reachable {sie : Fin NCPU → Bool} (hs : Run.Reachable spinNext (spinInit sie) s) (lk : κ) :
    LockInv s lk :=
  Run.Reachable.induction (P := fun t => ∀ lk, LockInv t lk)
    (fun _ => LockInv.of_free rfl fun j h => by simp [Owns, spinInit, initlock] at h)
    (fun _ _ _ hi h => LockInv.step hi h) hs lk

/-- Mutual exclusion: in every run each lock has at most one owner, `locked` is `1` while it
has one and `0` otherwise, and `holding(lk)` on a CPU is true exactly when `lk->cpu` names
that CPU. -/
theorem spinlock_exclusive {sie : Fin NCPU → Bool} (hs : Run.Reachable spinNext (spinInit sie) s) (lk : κ) :
    ((s.locks lk).locked = 0 ∨ (s.locks lk).locked = 1) ∧
      ((s.locks lk).locked = 0 ↔ ∀ id, ¬ Owns s id lk) ∧
      (∀ id id', Owns s id lk → Owns s id' lk → id = id') ∧
      ∀ id, holding (s.locks lk) id = true ↔ (s.locks lk).cpu = some id := by
  have hi := lockInv_reachable hs lk
  refine ⟨hi.bit, hi.free, hi.unique, fun id => ?_⟩
  -- `lk->cpu` names only an owner, and a lock with an owner is locked
  constructor
  · intro h
    simp only [holding, Bool.and_eq_true, bne_iff_ne, ne_eq, beq_iff_eq] at h
    exact h.2
  · intro h
    have hl : (s.locks lk).locked ≠ 0 := fun h0 => hi.free.mp h0 id (.inr h)
    simp [holding, hl, h]

/-- Lock 0 of two: CPU 0 takes it, then CPU 1 starts `acquire` and its swap reads `1`. -/
def spinRun : List (SpinEvent (Fin 2)) := [.acquire 0 0, .step 0, .step 0, .acquire 1 0, .step 1]

theorem spinlock_exclusive_spinRun :
    ∃ s, Run.run spinNext (spinInit fun _ => true) spinRun = some s ∧
      (((s.locks 0).locked = 0 ∨ (s.locks 0).locked = 1) ∧
        ((s.locks 0).locked = 0 ↔ ∀ id, ¬ Owns s id 0) ∧
        (∀ id id', Owns s id 0 → Owns s id' 0 → id = id') ∧
        ∀ id, holding (s.locks 0) id = true ↔ (s.locks 0).cpu = some id) ∧
      (s.locks 0).cpu = some 0 ∧ (s.cpus 1).pc = .spin 0 := by
  have hrun : (Run.run spinNext (spinInit fun _ => true) spinRun).map
      (fun s => ((s.locks 0).cpu, (s.cpus 1).pc)) = some (some 0, .spin 0) := by
    decide
  obtain ⟨s, hs, he⟩ := Option.map_eq_some_iff.mp hrun
  exact ⟨s, hs, spinlock_exclusive (Run.reachable_of_run hs) 0, congrArg Prod.fst he, congrArg Prod.snd he⟩

end Owners


/-! ## Interrupts -/

/-- `1` while a CPU spins in `acquire`. -/
def spinning : AcqPc κ → ℕ
  | .spin _ => 1
  | _ => 0

/-! ## Matched calls -/

/-- A CPU on its way back to interrupts `b`: they are `b` while `noff` is `0`, and `intena`
holds `b` while it is positive. -/
def Restores (c : LockCpu κ) (b : Bool) : Prop := (c.noff = 0 → c.sie = b) ∧ (0 < c.noff → c.intena = b)

theorem Restores.congr {c c' : LockCpu κ} {b : Bool} (hr : Restores c b) (hn : c'.noff = c.noff) (hs : c'.sie = c.sie)
    (hi : c'.intena = c.intena) : Restores c' b := by
  unfold Restores
  rw [hn, hs, hi]
  exact hr

theorem Restores.pushOff {c : LockCpu κ} {b : Bool} (hr : Restores c b) (h0 : 0 ≤ c.noff) : Restores (pushOff c) b := by
  refine ⟨fun h => by simp at h; omega, fun _ => ?_⟩
  rw [pushOff_intena]
  split_ifs with hz
  · exact hr.1 hz
  · exact hr.2 (by omega)

theorem Restores.popOff {c c' : LockCpu κ} {b : Bool} (hr : Restores c b) (hc : popOff c = .ok c') : Restores c' b := by
  obtain ⟨-, h1, hn, hi, -, -, hs⟩ := popOff_eq_ok hc
  refine ⟨fun h => ?_, fun h => by rw [hi]; exact hr.2 (by omega)⟩
  rw [hs, decide_eq_true (by omega), Bool.true_and]
  exact hr.2 (by omega)

section Cpus

variable [DecidableEq κ] [Fintype κ] {s s' : SpinSys κ}

/-- The locks CPU `id` owns. -/
def ownedLocks (s : SpinSys κ) (id : Fin NCPU) : Finset κ := Finset.univ.filter (Owns s id)

theorem mem_owned {id : Fin NCPU} {lk : κ} : lk ∈ ownedLocks s id ↔ Owns s id lk := by
  simp [ownedLocks]

theorem owned_congr {j : Fin NCPU} (h : ∀ lk, Owns s' j lk ↔ Owns s j lk) : ownedLocks s' j = ownedLocks s j := by
  ext lk
  simp only [mem_owned, h]

/-- What each CPU keeps: `noff` counts the locks it owns, the `acquire` it spins in and its
callers' `push_off`s, and its interrupts are off while `noff` is positive. -/
structure CpuInv (s : SpinSys κ) (id : Fin NCPU) : Prop where
  noff : (s.cpus id).noff = ((ownedLocks s id).card + spinning (s.cpus id).pc + (s.cpus id).pushed : ℕ)
  sie : 0 < (s.cpus id).noff → (s.cpus id).sie = false

theorem CpuInv.congr {j : Fin NCPU} (hi : CpuInv s j) (hc : s'.cpus j = s.cpus j) (ho : ownedLocks s' j = ownedLocks s j) :
    CpuInv s' j :=
  ⟨by rw [hc, ho]; exact hi.noff, by rw [hc]; exact hi.sie⟩

theorem cpuInv_setCpu (hi : ∀ j, CpuInv s j) {a : Fin NCPU} {c : LockCpu κ}
    (hpc : ∀ lk, c.pc = .took lk ↔ (s.cpus a).pc = .took lk)
    (hnoff : c.noff = ((ownedLocks s a).card + spinning c.pc + c.pushed : ℕ)) (hsie : 0 < c.noff → c.sie = false)
    (j : Fin NCPU) : CpuInv (s.setCpu a c) j := by
  have ho : ownedLocks (s.setCpu a c) j = ownedLocks s j := owned_congr fun lk => owns_setCpu (hpc lk) j
  by_cases hj : j = a
  · subst hj
    exact ⟨by simp [ho, hnoff], by simpa using hsie⟩
  · exact (hi j).congr (by simp [hj]) ho

theorem acquireSpin_cpuInv (hl : ∀ lk, LockInv s lk) (hi : ∀ j, CpuInv s j) {id : Fin NCPU} {lk₀ : κ}
    (hpc : (s.cpus id).pc = .spin lk₀) (j : Fin NCPU) : CpuInv (acquireSpin s id lk₀) j := by
  unfold acquireSpin
  dsimp only
  by_cases h0 : (s.locks lk₀).locked = 0
  · rw [if_neg (not_not.mpr h0)]
    have hfree := (hl lk₀).free.mp h0
    by_cases hj : j = id
    · subst hj
      -- the CPU now owns `lk₀` too, which it did not own before
      have ho : ownedLocks ((s.setLock lk₀ { s.locks lk₀ with locked := 1 }).setCpu j
          { s.cpus j with pc := .took lk₀ }) j = insert lk₀ (ownedLocks s j) := by
        ext lk
        by_cases hlk : lk = lk₀
        · subst hlk
          simp [mem_owned, Owns]
        · simp [mem_owned, Owns, hlk, hpc, Ne.symm hlk]
      have hn : lk₀ ∉ ownedLocks s j := fun h => hfree j (mem_owned.mp h)
      refine ⟨?_, by simpa using (hi j).sie⟩
      simp only [SpinSys.setCpu_cpus, ↓reduceIte, SpinSys.setLock_cpus, ho, Finset.card_insert_of_notMem hn]
      rw [(hi j).noff, hpc]
      simp only [spinning]
    · refine (hi j).congr (by simp [hj]) (owned_congr fun lk => ?_)
      by_cases hlk : lk = lk₀
      · subst hlk
        simp [Owns, hj]
      · simp [Owns, hj, hlk]
  · rw [if_pos h0]
    have h1 : (s.locks lk₀).locked = 1 := (hl lk₀).bit.resolve_left h0
    have hlock : ({ s.locks lk₀ with locked := 1 } : Spinlock) = s.locks lk₀ := by rw [← h1]
    rw [hlock, SpinSys.setLock, Function.update_eq_self]
    exact hi j

theorem acquireDone_cpuInv (hl : ∀ lk, LockInv s lk) (hi : ∀ j, CpuInv s j) {id : Fin NCPU} {lk₀ : κ}
    (hpc : (s.cpus id).pc = .took lk₀) (j : Fin NCPU) : CpuInv (acquireDone s id lk₀) j := by
  unfold acquireDone
  have hown : Owns s id lk₀ := .inl hpc
  -- no other CPU owns `lk₀`
  have hno : ∀ j ≠ id, ¬ Owns s j lk₀ := fun j hj h => hj ((hl lk₀).unique j id h hown)
  by_cases hj : j = id
  · subst hj
    have ho : ownedLocks ((s.setLock lk₀ { s.locks lk₀ with cpu := some j }).setCpu j
        { s.cpus j with pc := .out }) j = ownedLocks s j := owned_congr fun lk => by
      by_cases hlk : lk = lk₀
      · subst hlk
        simp [Owns, hpc]
      · simp [Owns, hlk, hpc, Ne.symm hlk]
    refine ⟨?_, by simpa using (hi j).sie⟩
    simp only [SpinSys.setCpu_cpus, ↓reduceIte, ho]
    rw [(hi j).noff, hpc]
    rfl
  · refine (hi j).congr (by simp [hj]) (owned_congr fun lk => ?_)
    by_cases hlk : lk = lk₀
    · subst hlk
      have := hno j hj
      simp only [Owns, not_or] at this
      simp [Owns, hj, this.1, this.2, Ne.symm hj]
    · simp [Owns, hj, hlk]

theorem release_cpuInv (hl : ∀ lk, LockInv s lk) (hi : ∀ j, CpuInv s j) {id : Fin NCPU} {lk₀ : κ} {c : LockCpu κ}
    (hpc : (s.cpus id).pc = .out) (hh : holding (s.locks lk₀) id = true) (hc : popOff (s.cpus id) = .ok c)
    (j : Fin NCPU) : CpuInv ((s.setLock lk₀ initlock).setCpu id c) j := by
  obtain ⟨-, h1, hn, -, hcpc, hpush, -⟩ := popOff_eq_ok hc
  have hcpu : (s.locks lk₀).cpu = some id := by
    simp only [holding, Bool.and_eq_true, bne_iff_ne, ne_eq, beq_iff_eq] at hh
    exact hh.2
  have hno : ∀ j ≠ id, ¬ Owns s j lk₀ := fun j hj h => hj ((hl lk₀).unique j id h (.inr hcpu))
  by_cases hj : j = id
  · subst hj
    -- the CPU no longer owns `lk₀`, and ownedLocks it before
    have ho : ownedLocks ((s.setLock lk₀ initlock).setCpu j c) j = (ownedLocks s j).erase lk₀ := by
      ext lk
      by_cases hlk : lk = lk₀
      · subst hlk
        simp [mem_owned, Owns, hcpc, hpc, initlock]
      · simp [mem_owned, Owns, hlk, hcpc, hpc]
    have hm : lk₀ ∈ ownedLocks s j := mem_owned.mpr (.inr hcpu)
    have hcard := Finset.card_pos.mpr ⟨lk₀, hm⟩
    refine ⟨?_, fun hpos => by simpa using popOff_sie hc (by simpa using hpos)⟩
    simp only [SpinSys.setCpu_cpus, ↓reduceIte, ho, Finset.card_erase_of_mem hm, hn, hcpc, hpush]
    rw [(hi j).noff, hpc]
    simp only [spinning]
    omega
  · refine (hi j).congr (by simp [hj]) (owned_congr fun lk => ?_)
    by_cases hlk : lk = lk₀
    · subst hlk
      have := hno j hj
      simp only [Owns, not_or] at this
      simp [Owns, hj, this.1, this.2, initlock]
    · simp [Owns, hj, hlk]

theorem CpuInv.step {e : SpinEvent κ} (hl : ∀ lk, LockInv s lk) (hi : ∀ j, CpuInv s j)
    (h : spinNext s e = some s') (j : Fin NCPU) : CpuInv s' j := by
  rcases spinNext_cases h with ⟨id, lk₀, hpc, -, rfl, -⟩ | ⟨id, lk₀, hpc, rfl, -⟩ | ⟨id, lk₀, hpc, rfl, -⟩ |
    ⟨id, lk₀, c, hpc, hh, hc, rfl, -⟩ | ⟨id, hpc, rfl, -⟩ | ⟨id, c, hpc, hpush, hc, rfl, -⟩ | ⟨id, hpc, h0, rfl, -⟩ |
    ⟨id, hpc, rfl, -⟩
  · -- `acquire` starts: one `push_off`, and the CPU spins
    refine cpuInv_setCpu hi (by simp [hpc]) ?_ (by simp) j
    simp only [pushOff_noff, (hi id).noff, hpc, spinning, pushOff_pushed]
    omega
  · exact acquireSpin_cpuInv hl hi hpc j
  · exact acquireDone_cpuInv hl hi hpc j
  · exact release_cpuInv hl hi hpc hh hc j
  · refine cpuInv_setCpu hi (by simp) ?_ (by simp) j
    simp only [pushOff_noff, (hi id).noff, pushOff_pc]
    omega
  · -- a caller's `pop_off` for its own `push_off`
    obtain ⟨-, -, hn, -, hcpc, hcpush, -⟩ := popOff_eq_ok hc
    refine cpuInv_setCpu (c := { c with pushed := c.pushed - 1 }) hi (by simp [hcpc]) ?_
      (fun hpos => show c.sie = false from popOff_sie hc hpos) j
    simp only [hn, (hi id).noff, hcpc, hcpush]
    omega
  · exact cpuInv_setCpu hi (by simp) (by simpa using (hi id).noff) (by simp [h0]) j
  · exact cpuInv_setCpu hi (by simp) (by simpa using (hi id).noff) (by simp) j

theorem cpuInv_reachable {sie : Fin NCPU → Bool} (hs : Run.Reachable spinNext (spinInit sie) s) :
    (∀ lk, LockInv s lk) ∧ ∀ id, CpuInv s id := by
  induction hs with
  | init =>
    refine ⟨lockInv_reachable .init, fun id => ⟨?_, by simp [spinInit]⟩⟩
    have h : ownedLocks (spinInit sie : SpinSys κ) id = ∅ := by
      ext lk
      simp [mem_owned, Owns, spinInit, initlock]
    rw [h]
    simp [spinInit, spinning]
  | step e _ he ih => exact ⟨fun lk => LockInv.step ih.1 he lk, CpuInv.step ih.1 ih.2 he⟩

/-- In every run a CPU's `noff` is the number of locks it owns, plus one while it spins in
`acquire`, plus its callers' `push_off`s not yet popped; and its interrupts are off while
`noff` is positive: a CPU that holds a spinlock or waits for one takes no interrupt. -/
theorem spinlock_interrupts {sie : Fin NCPU → Bool} (hs : Run.Reachable spinNext (spinInit sie) s)
    (id : Fin NCPU) :
    (s.cpus id).noff = ((ownedLocks s id).card + spinning (s.cpus id).pc + (s.cpus id).pushed : ℕ) ∧
      (0 < (s.cpus id).noff → (s.cpus id).sie = false) := by
  have hi := (cpuInv_reachable hs).2 id
  exact ⟨hi.noff, hi.sie⟩

theorem spinlock_interrupts_spinRun :
    ∃ s, Run.run spinNext (spinInit fun _ => true) spinRun = some s ∧
      ((s.cpus 1).noff = ((ownedLocks s 1).card + spinning (s.cpus 1).pc + (s.cpus 1).pushed : ℕ) ∧
        (0 < (s.cpus 1).noff → (s.cpus 1).sie = false)) ∧
      (s.cpus 1).noff = 1 ∧ (s.cpus 1).pc = .spin 0 := by
  have hrun : (Run.run spinNext (spinInit fun _ => true) spinRun).map
      (fun s => ((s.cpus 1).noff, (s.cpus 1).pc)) = some (1, .spin 0) := by
    decide
  obtain ⟨s, hs, he⟩ := Option.map_eq_some_iff.mp hrun
  exact ⟨s, hs, spinlock_interrupts (Run.reachable_of_run hs) 1, congrArg Prod.fst he, congrArg Prod.snd he⟩

/-- For a CPU outside `acquire`, in every run: `release` of a lock it holds and its callers'
`pop_off` for a `push_off` of their own never panic; in particular `pop_off` never finds
interrupts on. -/
theorem spinlock_no_panic {sie : Fin NCPU → Bool} (hs : Run.Reachable spinNext (spinInit sie) s)
    {id : Fin NCPU} (hpc : (s.cpus id).pc = .out) :
    (∀ lk, holding (s.locks lk) id = true → ∃ s', spinStep s (.release id lk) = some (.ok s')) ∧
      (0 < (s.cpus id).pushed → ∃ s', spinStep s (.popOff id) = some (.ok s')) := by
  have hi := (cpuInv_reachable hs).2 id
  -- with `noff` positive, interrupts are off and `pop_off` passes both checks
  have hpop : 0 < (s.cpus id).noff → ∃ c, popOff (s.cpus id) = .ok c := fun hpos => popOff_ok (hi.sie hpos) hpos
  refine ⟨fun lk hh => ?_, fun hp => ?_⟩
  · have hcpu : (s.locks lk).cpu = some id := by
      simp only [holding, Bool.and_eq_true, bne_iff_ne, ne_eq, beq_iff_eq] at hh
      exact hh.2
    have hcard := Finset.card_pos.mpr ⟨lk, mem_owned.mpr (.inr hcpu)⟩
    obtain ⟨c, hc⟩ := hpop (by rw [hi.noff]; omega)
    exact ⟨(s.setLock lk initlock).setCpu id c, by simp only [spinStep, if_pos hpc, release_of_holding hh hc]⟩
  · obtain ⟨c, hc⟩ := hpop (by rw [hi.noff]; omega)
    exact ⟨s.setCpu id { c with pushed := c.pushed - 1 }, by simp only [spinStep, if_pos (And.intro hpc hp), hc]; rfl⟩

theorem spinlock_no_panic_spinRun :
    ∃ s, Run.run spinNext (spinInit fun _ => true) spinRun = some s ∧
      ((∀ lk, holding (s.locks lk) 0 = true → ∃ s', spinStep s (.release 0 lk) = some (.ok s')) ∧
        (0 < (s.cpus 0).pushed → ∃ s', spinStep s (.popOff 0) = some (.ok s'))) ∧
      holding (s.locks 0) 0 = true := by
  have hrun : (Run.run spinNext (spinInit fun _ => true) spinRun).map
      (fun s => ((s.cpus 0).pc, holding (s.locks 0) 0)) = some (.out, true) := by
    decide
  obtain ⟨s, hs, he⟩ := Option.map_eq_some_iff.mp hrun
  exact ⟨s, hs, spinlock_no_panic (Run.reachable_of_run hs) (congrArg Prod.fst he), congrArg Prod.snd he⟩

theorem restores_step (hi : ∀ j, CpuInv s j) {e : SpinEvent κ} {id : Fin NCPU} {b : Bool}
    (hok : e ≠ .intrOn id ∧ e ≠ .intrOff id) (hr : Restores (s.cpus id) b) (h : spinNext s e = some s') :
    Restores (s'.cpus id) b := by
  have h0 : 0 ≤ (s.cpus id).noff := by rw [(hi id).noff]; omega
  rcases spinNext_cases h with ⟨a, lk₀, hpc, -, rfl, -⟩ | ⟨a, lk₀, hpc, rfl, -⟩ | ⟨a, lk₀, hpc, rfl, -⟩ |
    ⟨a, lk₀, c, hpc, hh, hc, rfl, -⟩ | ⟨a, hpc, rfl, -⟩ | ⟨a, c, hpc, -, hc, rfl, -⟩ | ⟨a, hpc, -, rfl, rfl⟩ |
    ⟨a, hpc, rfl, rfl⟩
  · by_cases hj : id = a
    · subst hj
      simp only [SpinSys.setCpu_cpus, ↓reduceIte]
      exact (hr.pushOff h0).congr rfl rfl rfl
    · simpa [hj] using hr
  · -- the spin loop moves only the CPU's place in `acquire`
    unfold acquireSpin
    dsimp only
    split_ifs
    · simpa using hr
    · by_cases hj : id = a
      · subst hj
        simp only [SpinSys.setCpu_cpus, ↓reduceIte]
        exact hr.congr rfl rfl rfl
      · simpa [hj] using hr
  · unfold acquireDone
    by_cases hj : id = a
    · subst hj
      simp only [SpinSys.setCpu_cpus, ↓reduceIte]
      exact hr.congr rfl rfl rfl
    · simpa [hj] using hr
  · by_cases hj : id = a
    · subst hj
      simpa using hr.popOff hc
    · simpa [hj] using hr
  · by_cases hj : id = a
    · subst hj
      simp only [SpinSys.setCpu_cpus, ↓reduceIte]
      exact (hr.pushOff h0).congr rfl rfl rfl
    · simpa [hj] using hr
  · by_cases hj : id = a
    · subst hj
      simp only [SpinSys.setCpu_cpus, ↓reduceIte]
      exact (hr.popOff hc).congr rfl rfl rfl
    · simpa [hj] using hr
  · -- `intr_on` on another CPU
    have hj : id ≠ a := fun e => hok.1 (e ▸ rfl)
    simpa [hj] using hr
  · have hj : id ≠ a := fun e => hok.2 (e ▸ rfl)
    simpa [hj] using hr

/-- Matched calls give a CPU back its interrupts: from any reachable state in which CPU `id`
has no `push_off` outstanding, along any run with no `intr_on` or `intr_off` of its own, the
CPU's interrupts are as they were whenever `noff` is back to `0`. -/
theorem pop_off_restores {sie : Fin NCPU → Bool} {s s' : SpinSys κ} {es : List (SpinEvent κ)} {id : Fin NCPU}
    (hs : Run.Reachable spinNext (spinInit sie) s) (h0 : (s.cpus id).noff = 0)
    (hes : ∀ e ∈ es, e ≠ .intrOn id ∧ e ≠ .intrOff id) (hrun : Run.run spinNext s es = some s')
    (h0' : (s'.cpus id).noff = 0) : (s'.cpus id).sie = (s.cpus id).sie := by
  have hstep : ∀ (t t' : SpinSys κ) (e : SpinEvent κ), (e ≠ .intrOn id ∧ e ≠ .intrOff id) →
      (Run.Reachable spinNext (spinInit sie) t ∧ Restores (t.cpus id) (s.cpus id).sie) → spinNext t e = some t' →
      (Run.Reachable spinNext (spinInit sie) t' ∧ Restores (t'.cpus id) (s.cpus id).sie) :=
    fun t t' e hok ht h => ⟨ht.1.step e h, restores_step (cpuInv_reachable ht.1).2 hok ht.2 h⟩
  have hend := Run.run_invariant hstep es hes ⟨hs, fun _ => rfl, fun h => absurd h (by omega)⟩ hrun
  exact hend.2.1 h0'

/-- CPU 0, with interrupts on, takes lock 0 and releases it: they are on again. -/
def spinPair : List (SpinEvent (Fin 2)) := [.acquire 0 0, .step 0, .step 0, .release 0 0]

theorem pop_off_restores_spinPair :
    ∃ s', Run.run spinNext (spinInit fun _ => true) spinPair = some s' ∧ (s'.cpus 0).noff = 0 ∧
      (s'.cpus 0).sie = ((spinInit fun _ => true : SpinSys (Fin 2)).cpus 0).sie := by
  have hrun : (Run.run spinNext (spinInit fun _ => true) spinPair).map (fun s => (s.cpus 0).noff) = some 0 := by
    decide
  obtain ⟨s', hs', he⟩ := Option.map_eq_some_iff.mp hrun
  exact ⟨s', hs', he, pop_off_restores .init rfl (by decide) hs' he⟩

end Cpus

end Xv6
