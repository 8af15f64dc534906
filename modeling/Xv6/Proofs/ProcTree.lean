import Xv6.Proofs.Ticks
import Xv6.Proofs.UserMem
import Xv6.Lib.Except

/-! The process tree. In every state the table reaches, a process other than `init` that is
SLEEPING, RUNNABLE, RUNNING or ZOMBIE has a parent, and the parent is neither UNUSED nor a
ZOMBIE: `exit` hands every child to `init` before its caller becomes a ZOMBIE, and `wait`
frees only a ZOMBIE, which by then has no children. A slot becomes UNUSED in a step only
when its parent's `wait` reaps it. -/

namespace Xv6

/-! ## What the table operations do to the tree -/

/-- `q` is `p` as far as a slot's place in the tree goes: UNUSED or a ZOMBIE exactly when
`p` is, with the same exit status. -/
structure SameKind (p q : Proc) : Prop where
  unused : q.state = .unused ↔ p.state = .unused
  zombie : q.state = .zombie ↔ p.state = .zombie
  xstate : q.xstate = p.xstate

/-- `SameKind` and the same parent. -/
structure SameTree (p q : Proc) : Prop extends SameKind p q where
  parent : q.parent = p.parent

theorem SameKind.refl (p : Proc) : SameKind p p := ⟨Iff.rfl, Iff.rfl, rfl⟩

theorem SameKind.trans {p q r : Proc} (h₁ : SameKind p q) (h₂ : SameKind q r) : SameKind p r :=
  ⟨h₂.unused.trans h₁.unused, h₂.zombie.trans h₁.zombie, h₂.xstate.trans h₁.xstate⟩

theorem SameTree.refl (p : Proc) : SameTree p p := ⟨SameKind.refl p, rfl⟩

theorem SameTree.trans {p q r : Proc} (h₁ : SameTree p q) (h₂ : SameTree q r) : SameTree p r :=
  ⟨h₁.toSameKind.trans h₂.toSameKind, h₂.parent.trans h₁.parent⟩

theorem SameTree.of_eq {p q : Proc} (hs : q.state = p.state) (hx : q.xstate = p.xstate)
    (hp : q.parent = p.parent) : SameTree p q :=
  ⟨⟨by rw [hs], by rw [hs], hx⟩, hp⟩

theorem SameTree.of_live {p q : Proc} (hp : p.state ≠ .unused ∧ p.state ≠ .zombie)
    (hq : q.state ≠ .unused ∧ q.state ≠ .zombie) (hx : q.xstate = p.xstate)
    (hpar : q.parent = p.parent) : SameTree p q :=
  ⟨⟨iff_of_false hq.1 hp.1, iff_of_false hq.2 hp.2, hx⟩, hpar⟩

theorem wakeupCount_xstate (p : Proc) : (wakeupCount p).xstate = p.xstate := by
  unfold wakeupCount; split_ifs <;> rfl

theorem wakeupCount_parent (p : Proc) : (wakeupCount p).parent = p.parent := by
  unfold wakeupCount; split_ifs <;> rfl

theorem wakeup_sameTree (chan : Chan) (me : Option (Fin NPROC)) (t : Table) (i : Fin NPROC) :
    SameTree (t i) (wakeup chan me t i) := by
  obtain ⟨-, -, -, hst⟩ := wakeup_apply chan me t i
  have hx := wakeup_preserves Proc.xstate (fun _ _ => rfl) (fun _ _ => rfl) wakeupCount_xstate chan me t i
  have hpar := wakeup_preserves Proc.parent (fun _ _ => rfl) (fun _ _ => rfl) wakeupCount_parent chan me t i
  -- a woken slot was SLEEPING and is RUNNABLE: neither UNUSED nor a ZOMBIE, before or after
  by_cases hc : me ≠ some i ∧ (t i).state = .sleeping ∧ (t i).chan = chan
  · rw [if_pos hc] at hst
    exact .of_live (by simp [hc.2.1]) (by simp [hst]) hx hpar
  · rw [if_neg hc] at hst
    exact .of_eq hst hx hpar

theorem tickProc_sameTree (p : Proc) : SameTree p (tickProc p) := by
  unfold tickProc
  split <;> exact .of_eq rfl rfl rfl

theorem markKilled_sameTree (p : Proc) : SameTree p p.markKilled := by
  unfold Proc.markKilled
  split_ifs with h
  · exact .of_live (by simp [h]) (by simp) rfl rfl
  · exact .of_eq rfl rfl rfl

theorem kill_sameTree (t : Table) (pid : ℤ) (i : Fin NPROC) : SameTree (t i) ((kill t pid).2 i) := by
  unfold kill
  split
  · next j _ =>
    by_cases hij : i = j
    · subst hij; simpa using markKilled_sameTree (t i)
    · simpa [Function.update_of_ne hij] using SameTree.refl (t i)
  · exact SameTree.refl _

theorem wakeup_parent (chan : Chan) (me : Option (Fin NPROC)) (t : Table) (i : Fin NPROC) :
    (wakeup chan me t i).parent = (t i).parent :=
  (wakeup_sameTree chan me t i).parent

/-- One iteration of `reparent` keeps every slot UNUSED or a ZOMBIE as it was: its wakeup of
`init` only makes a SLEEPING slot RUNNABLE. -/
theorem reparentSlot_kind (p init : Fin NPROC) (t : Table) (j k : Fin NPROC) :
    SameKind (t k) (reparentSlot p init t j k) := by
  unfold reparentSlot
  split_ifs
  · have h := wakeup_sameTree (.proc init) (some p) (Function.update t j { t j with parent := some init }) k
    by_cases hkj : k = j
    · subst hkj
      simp only [Function.update_self] at h
      -- the slot moved differs from `t k` in its parent only
      exact ⟨h.unused, h.zombie, h.xstate⟩
    · simp only [Function.update_of_ne hkj] at h
      exact h.toSameKind
  · exact .refl _

theorem reparentSlot_parent (p init : Fin NPROC) (t : Table) (j k : Fin NPROC) :
    (reparentSlot p init t j k).parent =
      if k = j ∧ (t k).parent = some p then some init else (t k).parent := by
  unfold reparentSlot
  by_cases hpj : (t j).parent = some p
  · rw [if_pos hpj, wakeup_parent]
    by_cases hkj : k = j
    · subst hkj; simp [hpj]
    · simp [hkj]
  · have hkj : ¬ (k = j ∧ (t k).parent = some p) := fun ⟨e, h⟩ => hpj (e ▸ h)
    rw [if_neg hpj, if_neg hkj]

/-- `reparent(p)` gives `init` the children of `p` and changes nothing else of the tree. -/
theorem foldl_reparentSlot_tree {p init : Fin NPROC} (hp : init ≠ p) (k : Fin NPROC) :
    ∀ (l : List (Fin NPROC)) (t : Table),
      SameKind (t k) (l.foldl (reparentSlot p init) t k) ∧
        (l.foldl (reparentSlot p init) t k).parent =
          if k ∈ l ∧ (t k).parent = some p then some init else (t k).parent
  | [], t => ⟨.refl _, by simp⟩
  | j :: l, t => by
    obtain ⟨h1, h3⟩ := foldl_reparentSlot_tree hp k l (reparentSlot p init t j)
    refine ⟨(reparentSlot_kind p init t j k).trans h1, ?_⟩
    rw [List.foldl_cons, h3, reparentSlot_parent]
    -- a child of `p` moves at its own iteration; `init ≠ p`, so no later one moves it again
    by_cases h0 : (t k).parent = some p
    · by_cases hkj : k = j
      · subst hkj; simp [h0, hp]
      · simp [h0, hkj]
    · simp [h0]

theorem reparent_tree {p init : Fin NPROC} (hp : init ≠ p) (t : Table) (k : Fin NPROC) :
    SameKind (t k) (reparent p init t k) ∧
      (reparent p init t k).parent = if (t k).parent = some p then some init else (t k).parent := by
  obtain ⟨h1, h3⟩ := foldl_reparentSlot_tree hp k slots t
  exact ⟨h1, by simpa [reparent, mem_slots] using h3⟩

/-! ## The steps of the system -/

theorem Sys.cur_running {s : Sys} {c : Fin NCPU} {p : Fin NPROC} (h : s.cur c = some p) :
    (s.proc p).state = .running := by
  unfold Sys.cur at h
  split at h
  · split_ifs at h with hr
    cases h
    exact hr
  · cases h

theorem freeSlot_unused {t : Table} {i : Fin NPROC} (h : freeSlot t = some i) : (t i).state = .unused := by
  simpa using List.find?_some h

theorem zombieChild_spec {t : Table} {p i : Fin NPROC} (h : zombieChild t p = some i) :
    (t i).parent = some p ∧ (t i).state = .zombie := by
  simpa using List.find?_some h

theorem schedPick_runnable {ty : ℕ} {t : Table} {i : Fin NPROC} (h : schedPick ty t i = true) :
    (t i).state = .runnable := by
  unfold schedPick at h
  split at h <;> simp_all [defaultPick, priorityPick, cfsPick]

@[simp] theorem Sys.setProc_proc_self (s : Sys) (i : Fin NPROC) (q : Proc) : (s.setProc i q).proc i = q := by
  simp [Sys.setProc]

theorem Sys.setProc_proc_of_ne (s : Sys) {i k : Fin NPROC} (q : Proc) (h : k ≠ i) :
    (s.setProc i q).proc k = s.proc k := by
  simp [Sys.setProc, Function.update_of_ne h]

theorem setProc_sameTree {s : Sys} {p : Fin NPROC} {q : Proc} (h : SameTree (s.proc p) q) (i : Fin NPROC) :
    SameTree (s.proc i) ((s.setProc p q).proc i) := by
  by_cases hi : i = p
  · subst hi; simpa using h
  · rw [s.setProc_proc_of_ne q hi]; exact .refl _

theorem setProc_running_sameTree {s : Sys} {p : Fin NPROC} {q : Proc}
    (hp : (s.proc p).state = .running) (hq : q.state = .sleeping ∨ q.state = .runnable)
    (hx : q.xstate = (s.proc p).xstate) (hpar : q.parent = (s.proc p).parent) (i : Fin NPROC) :
    SameTree (s.proc i) ((s.setProc p q).proc i) :=
  setProc_sameTree (.of_live (by simp [hp]) (by rcases hq with hq | hq <;> simp [hq]) hx hpar) i

theorem fork_initproc (s : Sys) (p : Fin NPROC) (ok : Bool) : (fork s p ok).initproc = s.initproc := by
  unfold fork
  split
  · rfl
  · split_ifs <;> rfl

theorem wait_initproc (s : Sys) (p : Fin NPROC) (copyOk : Bool) :
    (wait s p copyOk).2.initproc = s.initproc := by
  unfold wait
  split <;> split_ifs <;> rfl

/-- What a step does to the tree: every event but `fork`, `exit` and `wait` keeps each
slot's place in it, and `initproc` never changes. -/
theorem next_cases {ty : ℕ} {s s' : Sys} {e : Event} (h : next ty s e = some s') :
    s'.initproc = s.initproc ∧
    ((∀ i, SameTree (s.proc i) (s'.proc i)) ∨
     (∃ c p ok, e = .fork c ok ∧ s.cur c = some p ∧ s' = fork s p ok) ∨
     (∃ c p status msg, e = .exit c status msg ∧ s.cur c = some p ∧ p ≠ s.initproc ∧
        s'.proc = (exit s p status msg).proc) ∨
     (∃ c p copyOk, e = .wait c copyOk ∧ s.cur c = some p ∧ s'.proc = (wait s p copyOk).2.proc)) := by
  cases e with
  | schedIter c =>
    simp only [next] at h
    split_ifs at h
    cases h
    unfold schedIter
    dsimp only
    split_ifs with hpick
    · -- the slot picked is RUNNABLE and becomes RUNNING
      exact ⟨rfl, .inl (setProc_sameTree (.of_live (by simp [schedPick_runnable hpick]) (by simp) rfl rfl))⟩
    · exact ⟨rfl, .inl fun i => .refl _⟩
  | tick =>
    cases h
    exact ⟨rfl, .inl fun i => (wakeup_sameTree _ _ _ i).trans (tickProc_sameTree _)⟩
  | timerYield c =>
    obtain ⟨p, hp, rfl⟩ := Option.map_eq_some_iff.mp h
    exact ⟨rfl, .inl (setProc_running_sameTree (Sys.cur_running hp) (.inr rfl) rfl rfl)⟩
  | sleep c chan =>
    obtain ⟨p, hp, rfl⟩ := Option.map_eq_some_iff.mp h
    exact ⟨rfl, .inl (setProc_running_sameTree (Sys.cur_running hp) (.inl rfl) rfl rfl)⟩
  | wakeup c chan =>
    cases h
    exact ⟨rfl, .inl (wakeup_sameTree _ _ _)⟩
  | fork c ok =>
    obtain ⟨p, hp, rfl⟩ := Option.map_eq_some_iff.mp h
    exact ⟨fork_initproc s p ok, .inr (.inl ⟨c, p, ok, rfl, hp, rfl⟩)⟩
  | exit c status msg =>
    obtain ⟨p, hp, h⟩ := Option.bind_eq_some_iff.mp h
    split_ifs at h with hpi
    cases h
    exact ⟨rfl, .inr (.inr (.inl ⟨c, p, status, msg, rfl, hp, hpi, rfl⟩))⟩
  | wait c copyOk =>
    obtain ⟨p, hp, rfl⟩ := Option.map_eq_some_iff.mp h
    -- whether the scan returns or sleeps, the table is the one `wait` leaves
    have hw : ∀ r s₁, wait s p copyOk = (r, s₁) → s₁.proc = (wait s p copyOk).2.proc ∧
        s₁.initproc = s.initproc := by
      intro r s₁ heq
      have hi := wait_initproc s p copyOk
      rw [heq] at hi ⊢
      exact ⟨rfl, hi⟩
    split
    · next s₁ heq => exact ⟨(hw _ s₁ heq).2, .inr (.inr (.inr ⟨c, p, copyOk, rfl, hp, (hw _ s₁ heq).1⟩))⟩
    · next s₁ heq => exact ⟨(hw _ s₁ heq).2, .inr (.inr (.inr ⟨c, p, copyOk, rfl, hp, (hw _ s₁ heq).1⟩))⟩
  | kill c pid =>
    obtain ⟨_, -, rfl⟩ := Option.map_eq_some_iff.mp h
    exact ⟨rfl, .inl (kill_sameTree _ _)⟩
  | setPsPriority c n =>
    obtain ⟨p, -, rfl⟩ := Option.map_eq_some_iff.mp h
    exact ⟨rfl, .inl (setProc_sameTree (.of_eq rfl rfl rfl))⟩
  | setCfsPriority c n =>
    obtain ⟨p, -, rfl⟩ := Option.map_eq_some_iff.mp h
    split_ifs
    · exact ⟨rfl, .inl (setProc_sameTree (.of_eq rfl rfl rfl))⟩
    · exact ⟨rfl, .inl fun i => .refl _⟩

/-! ## `fork`, `exit` and `wait` -/

section Calls

variable {s : Sys} {p i k : Fin NPROC}

theorem fork_none {ok : Bool} (hi : freeSlot s.proc = none) : fork s p ok = s := by
  simp [fork, hi]

theorem fork_other {ok : Bool} (hi : freeSlot s.proc = some i) (hk : k ≠ i) :
    (fork s p ok).proc k = s.proc k := by
  cases ok <;> simp [fork, hi, Sys.setProc, Function.update_of_ne hk]

theorem fork_self (ok : Bool) (hi : freeSlot s.proc = some i) :
    ((fork s p ok).proc i).state = (if ok then .runnable else .unused) ∧
      ((fork s p ok).proc i).parent = (if ok then some p else none) := by
  cases ok <;> simp [fork, hi, Sys.setProc, Proc.freed]

/-- `exit(p)`: the caller's children go to `init`, and every slot but the caller's keeps its
kind and exit status. -/
theorem exit_tree (hp : s.initproc ≠ p) (status : ℤ) (msg : ℕ → UInt8) (k : Fin NPROC) :
    (k ≠ p → SameKind (s.proc k) ((exit s p status msg).proc k)) ∧
    ((exit s p status msg).proc k).parent =
      if (s.proc k).parent = some p then some s.initproc else (s.proc k).parent := by
  simp only [exit, Sys.setProc]
  -- the message is stored in the caller's slot alone; what it holds does not matter here
  generalize Vector.ofFn (fun j => (strncpy msg 32).getD j 0) = v
  have h₁ : SameTree (s.proc k) (Function.update s.proc p { s.proc p with exitMsg := v } k) :=
    setProc_sameTree (s := s) (p := p) (q := { s.proc p with exitMsg := v }) (.of_eq rfl rfl rfl) k
  obtain ⟨h₂, h₂p⟩ := reparent_tree hp (Function.update s.proc p { s.proc p with exitMsg := v }) k
  generalize reparent p s.initproc (Function.update s.proc p { s.proc p with exitMsg := v }) = t₂ at h₂ h₂p ⊢
  have h₃ := wakeup_sameTree (Chan.ofParent (t₂ p).parent) (some p) t₂ k
  by_cases hk : k = p
  · subst hk
    refine ⟨fun h => absurd rfl h, ?_⟩
    rw [Function.update_self]
    rw [h₃.parent, h₂p, h₁.parent]
  · rw [Function.update_of_ne hk]
    exact ⟨fun _ => h₁.toSameKind.trans (h₂.trans h₃.toSameKind), by rw [h₃.parent, h₂p, h₁.parent]⟩

theorem exit_self (status : ℤ) (msg : ℕ → UInt8) :
    ((exit s p status msg).proc p).state = .zombie ∧ ((exit s p status msg).proc p).xstate = status := by
  simp [exit, Sys.setProc]

theorem wait_cases (copyOk : Bool) :
    (wait s p copyOk).2 = s ∨
    (∃ i, zombieChild s.proc p = some i ∧ copyOk = true ∧ (wait s p copyOk).2 = s.setProc i (s.proc i).freed) ∨
    (wait s p copyOk).2 = s.setProc p { s.proc p with chan := .proc p, state := .sleeping } := by
  unfold wait
  split
  · next i hz =>
    cases copyOk
    · exact .inl rfl
    · exact .inr (.inl ⟨i, hz, rfl, rfl⟩)
  · split_ifs
    · exact .inl rfl
    · exact .inr (.inr rfl)

end Calls

/-! ## The tree invariant -/

/-- Neither UNUSED nor a ZOMBIE: a slot that can still be a parent. -/
def Proc.Live (p : Proc) : Prop := p.state ≠ .unused ∧ p.state ≠ .zombie

theorem SameKind.live_iff {p q : Proc} (h : SameKind p q) : q.Live ↔ p.Live := by
  simp only [Proc.Live, ne_eq, h.unused, h.zombie]

theorem Proc.live_of_running {p : Proc} (h : p.state = .running) : p.Live := by
  simp [Proc.Live, h]

structure TreeInv (s : Sys) : Prop where
  init_live : (s.proc s.initproc).Live
  parent_live : ∀ i j, (s.proc i).parent = some j → (s.proc j).Live
  has_parent : ∀ i, (s.proc i).state ≠ .unused → i ≠ s.initproc → (s.proc i).parent ≠ none

section Preservation

variable {s : Sys} {p : Fin NPROC}

theorem TreeInv.of_sameTree {s' : Sys} (hinv : TreeInv s) (h : ∀ i, SameTree (s.proc i) (s'.proc i))
    (hinit : s'.initproc = s.initproc) : TreeInv s' where
  init_live := by
    rw [hinit]
    exact (h _).live_iff.mpr hinv.init_live
  parent_live i j hij := by
    rw [(h i).parent] at hij
    exact (h j).live_iff.mpr (hinv.parent_live i j hij)
  has_parent i hi hne := by
    rw [(h i).parent]
    exact hinv.has_parent i (fun hu => hi ((h i).unused.mpr hu)) (hinit ▸ hne)

theorem TreeInv.fork (hinv : TreeInv s) (hp : (s.proc p).state = .running) (ok : Bool) :
    TreeInv (fork s p ok) := by
  cases hi : freeSlot s.proc with
  | none => rwa [fork_none hi]
  | some i =>
    have hu := freeSlot_unused hi
    -- the slot `fork` takes is UNUSED, so no parent pointer names it
    have hnot : ∀ j, (s.proc j).Live → j ≠ i := fun j hj e => hj.1 (e ▸ hu)
    have hpi : p ≠ i := hnot p (Proc.live_of_running hp)
    obtain ⟨hst, hpar⟩ := fork_self (p := p) ok hi
    refine ⟨?_, ?_, ?_⟩
    · rw [fork_initproc, fork_other hi (hnot _ hinv.init_live)]
      exact hinv.init_live
    · intro k j hkj
      by_cases hk : k = i
      · subst hk
        rw [hpar] at hkj
        cases ok
        · cases hkj
        · cases hkj
          rw [fork_other hi hpi]
          exact Proc.live_of_running hp
      · rw [fork_other hi hk] at hkj
        have hj := hinv.parent_live k j hkj
        rw [fork_other hi (hnot j hj)]
        exact hj
    · intro k hk hne
      rw [fork_initproc] at hne
      by_cases hki : k = i
      · subst hki
        rw [hpar]
        cases ok
        · simp [hst] at hk
        · simp
      · rw [fork_other hi hki] at hk ⊢
        exact hinv.has_parent k hk hne

theorem TreeInv.exit (hinv : TreeInv s) (hp : (s.proc p).state = .running) (hpi : p ≠ s.initproc)
    (status : ℤ) (msg : ℕ → UInt8) : TreeInv (exit s p status msg) := by
  have hip : s.initproc ≠ p := Ne.symm hpi
  refine ⟨((exit_tree hip status msg _).1 hip).live_iff.mpr hinv.init_live, ?_, ?_⟩
  · intro k j hkj
    rw [(exit_tree hip status msg k).2] at hkj
    split_ifs at hkj with hk
    · -- a child of the caller now belongs to `init`
      cases hkj
      exact ((exit_tree hip status msg _).1 hip).live_iff.mpr hinv.init_live
    · have hjp : j ≠ p := fun e => hk (e ▸ hkj)
      exact ((exit_tree hip status msg j).1 hjp).live_iff.mpr (hinv.parent_live k j hkj)
  · intro k hk hne
    rw [(exit_tree hip status msg k).2]
    split_ifs
    · simp
    · by_cases hkp : k = p
      · subst hkp
        exact hinv.has_parent k (by simp [hp]) hne
      · exact hinv.has_parent k (fun hu => hk (((exit_tree hip status msg k).1 hkp).unused.mpr hu)) hne

theorem TreeInv.free {i : Fin NPROC} (hinv : TreeInv s) (hz : (s.proc i).state = .zombie) :
    TreeInv (s.setProc i (s.proc i).freed) := by
  have hnot : ∀ j, (s.proc j).Live → j ≠ i := fun j hj e => hj.2 (e ▸ hz)
  refine ⟨?_, ?_, ?_⟩
  · show ((s.setProc i (s.proc i).freed).proc s.initproc).Live
    rw [s.setProc_proc_of_ne _ (hnot _ hinv.init_live)]
    exact hinv.init_live
  · intro k j hkj
    by_cases hk : k = i
    · subst hk
      simp [Proc.freed] at hkj
    · rw [s.setProc_proc_of_ne _ hk] at hkj
      have hj := hinv.parent_live k j hkj
      rw [s.setProc_proc_of_ne _ (hnot j hj)]
      exact hj
  · intro k hk hne
    by_cases hki : k = i
    · subst hki
      simp [Proc.freed] at hk
    · rw [s.setProc_proc_of_ne _ hki] at hk ⊢
      exact hinv.has_parent k hk hne

theorem TreeInv.wait (hinv : TreeInv s) (hp : (s.proc p).state = .running) (copyOk : Bool) :
    TreeInv (wait s p copyOk).2 := by
  rcases wait_cases (s := s) (p := p) copyOk with heq | ⟨i, hz, -, heq⟩ | heq <;> rw [heq]
  · exact hinv
  · exact hinv.free (zombieChild_spec hz).2
  · exact hinv.of_sameTree (setProc_running_sameTree hp (.inl rfl) rfl rfl) rfl

theorem TreeInv.congr {s' : Sys} (hinv : TreeInv s) (hproc : s'.proc = s.proc)
    (hinit : s'.initproc = s.initproc) : TreeInv s' :=
  hinv.of_sameTree (fun i => by rw [hproc]; exact .refl _) hinit

theorem next_treeInv {ty : ℕ} {s' : Sys} {e : Event} (h : next ty s e = some s') (hinv : TreeInv s) :
    TreeInv s' := by
  obtain ⟨hinit, hcases⟩ := next_cases h
  rcases hcases with hsame | ⟨c, p, ok, -, hp, rfl⟩ | ⟨c, p, status, msg, -, hp, hpi, hproc⟩ |
    ⟨c, p, copyOk, -, hp, hproc⟩
  · exact hinv.of_sameTree hsame hinit
  · exact hinv.fork (Sys.cur_running hp) ok
  · exact (hinv.exit (Sys.cur_running hp) hpi status msg).congr hproc hinit
  · exact (hinv.wait (Sys.cur_running hp) copyOk).congr hproc (hinit.trans (wait_initproc s p copyOk).symm)

end Preservation

theorem treeInv_boot : TreeInv boot := by
  refine ⟨by simp [Proc.Live, boot, initProc], ?_, ?_⟩
  · intro i j hij
    by_cases hi : i = 0
    · subst hi; simp [boot, initProc, Proc.zero] at hij
    · simp [boot, Function.update_of_ne hi, Proc.zero] at hij
  · intro i hi hne
    have hne' : i ≠ 0 := hne
    simp [boot, Function.update_of_ne hne', Proc.zero] at hi

theorem treeInv_reachable {ty : ℕ} {s : Sys} (hs : Reachable ty s) : TreeInv s := by
  induction hs with
  | init => exact treeInv_boot
  | step e _ he ih => exact next_treeInv he ih

/-! ## Slots that are freed and slots that exit -/

section Transitions

variable {ty : ℕ} {s s' : Sys} {e : Event} {i : Fin NPROC}

/-- A slot becomes UNUSED in a step only when its parent's `wait` reaps it: `fork` takes
and, when it fails, gives back a slot that was UNUSED before the step. -/
theorem next_unused (h : next ty s e = some s') (hu : (s.proc i).state ≠ .unused)
    (hu' : (s'.proc i).state = .unused) :
    ∃ c p, e = .wait c true ∧ s.cur c = some p ∧ zombieChild s.proc p = some i := by
  obtain ⟨-, hcases⟩ := next_cases h
  rcases hcases with hsame | ⟨c, p, ok, -, hp, rfl⟩ | ⟨c, p, status, msg, -, hp, hpi, hproc⟩ |
    ⟨c, p, copyOk, rfl, hp, hproc⟩
  · exact absurd ((hsame i).unused.mp hu') hu
  · cases hj : freeSlot s.proc with
    | none => rw [fork_none hj] at hu'; exact absurd hu' hu
    | some j =>
      by_cases hij : i = j
      · subst hij; exact absurd (freeSlot_unused hj) hu
      · rw [fork_other hj hij] at hu'; exact absurd hu' hu
  · rw [hproc] at hu'
    by_cases hip : i = p
    · subst hip
      rw [(exit_self status msg).1] at hu'
      cases hu'
    · exact absurd (((exit_tree (Ne.symm hpi) status msg i).1 hip).unused.mp hu') hu
  · rw [hproc] at hu'
    rcases wait_cases (s := s) (p := p) copyOk with heq | ⟨j, hz, hok, heq⟩ | heq <;> rw [heq] at hu'
    · exact absurd hu' hu
    · by_cases hij : i = j
      · subst hij hok
        exact ⟨c, p, rfl, hp, hz⟩
      · rw [s.setProc_proc_of_ne _ hij] at hu'; exact absurd hu' hu
    · by_cases hip : i = p
      · subst hip; simp at hu'
      · rw [s.setProc_proc_of_ne _ hip] at hu'; exact absurd hu' hu

/-- A slot is a ZOMBIE after a step either because it was one, with the same status, or
because it called `exit` in that step, with the status it now holds. -/
theorem next_zombie (h : next ty s e = some s') (hz' : (s'.proc i).state = .zombie) :
    ((s.proc i).state = .zombie ∧ (s'.proc i).xstate = (s.proc i).xstate) ∨
      ∃ c msg, e = .exit c (s'.proc i).xstate msg ∧ s.cur c = some i := by
  obtain ⟨-, hcases⟩ := next_cases h
  rcases hcases with hsame | ⟨c, p, ok, -, hp, rfl⟩ | ⟨c, p, status, msg, rfl, hp, hpi, hproc⟩ |
    ⟨c, p, copyOk, -, hp, hproc⟩
  · exact .inl ⟨(hsame i).zombie.mp hz', (hsame i).xstate⟩
  · cases hj : freeSlot s.proc with
    | none => rw [fork_none hj] at hz' ⊢; exact .inl ⟨hz', rfl⟩
    | some j =>
      by_cases hij : i = j
      · -- the slot `fork` takes ends RUNNABLE or UNUSED
        subst hij
        rw [(fork_self ok hj).1] at hz'
        cases ok <;> cases hz'
      · rw [fork_other hj hij] at hz' ⊢; exact .inl ⟨hz', rfl⟩
  · rw [hproc] at hz' ⊢
    by_cases hip : i = p
    · subst hip
      exact .inr ⟨c, msg, by rw [(exit_self status msg).2], hp⟩
    · have hk := (exit_tree (Ne.symm hpi) status msg i).1 hip
      exact .inl ⟨hk.zombie.mp hz', hk.xstate⟩
  · rw [hproc] at hz' ⊢
    rcases wait_cases (s := s) (p := p) copyOk with heq | ⟨j, -, -, heq⟩ | heq <;> rw [heq] at hz' ⊢
    · exact .inl ⟨hz', rfl⟩
    · by_cases hij : i = j
      · subst hij; simp [Proc.freed] at hz'
      · rw [s.setProc_proc_of_ne _ hij] at hz' ⊢; exact .inl ⟨hz', rfl⟩
    · by_cases hip : i = p
      · subst hip; simp at hz'
      · rw [s.setProc_proc_of_ne _ hip] at hz' ⊢; exact .inl ⟨hz', rfl⟩

end Transitions

/-- Along a run from boot, a slot that is a ZOMBIE at the end exited at an event of the run,
while it ran on that event's CPU, with the status it holds at the end; after that event and
after every one since it has been a ZOMBIE with that status. -/
theorem zombie_exit_event {ty : ℕ} (es : List Event) : ∀ {s : Sys}, Run.run (next ty) boot es = some s →
    ∀ i, (s.proc i).state = .zombie →
      ∃ es₁ c msg es₂, es = es₁ ++ .exit c (s.proc i).xstate msg :: es₂ ∧
        (∃ s₁, Run.run (next ty) boot es₁ = some s₁ ∧ s₁.cur c = some i) ∧
        ∀ n ≤ es₂.length, ∃ s₂, Run.run (next ty) boot (es₁ ++ .exit c (s.proc i).xstate msg :: es₂.take n) =
          some s₂ ∧ (s₂.proc i).state = .zombie ∧ (s₂.proc i).xstate = (s.proc i).xstate := by
  -- induction on the run from its end: the last event either keeps the ZOMBIE or is its `exit`
  induction es using List.reverseRecOn with
  | nil =>
    intro s hs i hz
    simp only [Run.run, Option.some.injEq] at hs
    subst hs
    by_cases hi : i = 0
    · subst hi; simp [boot, initProc] at hz
    · simp [boot, Function.update_of_ne hi, Proc.zero] at hz
  | append_singleton es e ih =>
    intro s hs i hz
    obtain ⟨s₀, hs₀, he⟩ := Run.run_concat_eq_some.mp hs
    rcases next_zombie he hz with ⟨hz₀, hx⟩ | ⟨c, msg, rfl, hc⟩
    · obtain ⟨es₁, c, msg, es₂, rfl, hrun₁, hstay⟩ := ih hs₀ i hz₀
      rw [hx]
      refine ⟨es₁, c, msg, es₂ ++ [e], by simp, hrun₁, fun n hn => ?_⟩
      rcases Nat.lt_or_ge n (es₂.length + 1) with hlt | hge
      · rw [List.take_append_of_le_length (by omega)]
        exact hstay n (by omega)
      · -- the whole run
        have hn' : n = es₂.length + 1 := by simp at hn; omega
        refine ⟨s, ?_, hz, hx⟩
        rw [hn', List.take_of_length_le (by simp), ← List.cons_append, ← List.append_assoc]
        exact hs
    · refine ⟨es, c, msg, [], rfl, ⟨s₀, hs₀, hc⟩, fun n hn => ⟨s, ?_, hz, rfl⟩⟩
      rw [List.length_nil, Nat.le_zero] at hn
      rw [hn, List.take_zero]
      exact hs

/-! ## `wait` with memory -/

section KernelWait

variable {k k' : Kernel} {p : Fin NPROC} {addr pExitMsg : ℕ}

/-- A pid other than `-1` comes from a ZOMBIE child whose status, for a nonzero `addr`, was
copied out. -/
theorem kernelWait_reaped {r : ℤ} (h : Kernel.wait k p addr pExitMsg = .ok (some r, k')) (hr : r ≠ -1) :
    ∃ i, zombieChild k.sys.proc p = some i ∧ r = (k.sys.proc i).pid ∧
      (addr ≠ 0 → ∃ r₀ m, copyout k.phys (k.sys.proc p).pagetable addr (intBytes (k.sys.proc i).xstate) =
        .ok (r₀, m) ∧ 0 ≤ r₀) := by
  unfold Kernel.wait at h
  split at h
  · next i hz =>
    obtain ⟨⟨r₀, m⟩, hc, h⟩ := Except.bind_eq_ok.mp h
    dsimp only at h
    split_ifs at h with hr₀
    · cases h; exact absurd rfl hr
    · obtain ⟨⟨r₁, m'⟩, -, h⟩ := Except.bind_eq_ok.mp h
      obtain ⟨k'', -, h⟩ := Except.bind_eq_ok.mp h
      cases h
      refine ⟨i, hz, rfl, fun ha => ⟨r₀, m, ?_, not_lt.mp hr₀⟩⟩
      rwa [if_pos ha] at hc
  · next hz =>
    -- no ZOMBIE child: the scan returns `-1` or sleeps
    unfold wait at h
    rw [hz] at h
    split_ifs at h <;> cases h
    all_goals exact absurd rfl hr

/-- A failed status copy returns `-1` with the table as it was: the ZOMBIE stays to be reaped. -/
theorem kernelWait_copy_fails {i : Fin NPROC} {r : ℤ} {m : Phys} (hz : zombieChild k.sys.proc p = some i)
    (ha : addr ≠ 0)
    (hc : copyout k.phys (k.sys.proc p).pagetable addr (intBytes (k.sys.proc i).xstate) = .ok (r, m))
    (hr : r < 0) : Kernel.wait k p addr pExitMsg = .ok (some (-1), { k with phys := m }) := by
  simp only [Kernel.wait, hz, if_pos ha, hc, Except.ok_bind, if_pos hr]
  rfl

/-- `wait` reaping ZOMBIE child `i`, for a status word in one user page at frame `pa` and a
message in one user page at frame `pm`, as the walk finds it once the status is stored:
the status goes to `pa`, then the message to `pm`, and then the child is freed. -/
theorem kernelWait_copies {i : Fin NPROC} {pa pm : ℕ} (hz : zombieChild k.sys.proc p = some i) (ha : addr ≠ 0)
    (hpa : walkaddr k.phys (k.sys.proc p).pagetable (PGROUNDDOWN addr) = .ok pa) (hpa0 : pa ≠ 0)
    (hfit : addr % PGSIZE + 4 ≤ PGSIZE)
    (hpm : walkaddr (k.phys.memmove (pa + addr % PGSIZE) (intBytes (k.sys.proc i).xstate))
      (k.sys.proc p).pagetable (PGROUNDDOWN pExitMsg) = .ok pm) (hpm0 : pm ≠ 0)
    (hfitm : pExitMsg % PGSIZE + 32 ≤ PGSIZE) :
    Kernel.wait k p addr pExitMsg =
      (Kernel.freeproc { k with phys := ((k.phys.memmove (pa + addr % PGSIZE) (intBytes (k.sys.proc i).xstate)).memmove
        (pm + pExitMsg % PGSIZE) (k.sys.proc i).exitMsg.toList) } i).map fun k' => (some (k.sys.proc i).pid, k') := by
  have hst : copyout k.phys (k.sys.proc p).pagetable addr (intBytes (k.sys.proc i).xstate) =
      .ok (0, k.phys.memmove (pa + addr % PGSIZE) (intBytes (k.sys.proc i).xstate)) :=
    copyout_page hpa hpa0 (by simpa [intBytes] using hfit)
  have hmsg : copyout (k.phys.memmove (pa + addr % PGSIZE) (intBytes (k.sys.proc i).xstate))
      (k.sys.proc p).pagetable pExitMsg (k.sys.proc i).exitMsg.toList =
      .ok (0, (k.phys.memmove (pa + addr % PGSIZE) (intBytes (k.sys.proc i).xstate)).memmove
        (pm + pExitMsg % PGSIZE) (k.sys.proc i).exitMsg.toList) :=
    copyout_page hpm hpm0 (by simpa using hfitm)
  simp only [Kernel.wait, hz, ne_eq, ha, not_false_eq_true, if_true, hst, Except.ok_bind, lt_self_iff_false,
    if_false, hmsg]
  cases Kernel.freeproc _ i <;> rfl

end KernelWait

/-- Byte `j` of a status word stored at `a` and then overlaid by a message stored at `b`:
the message's byte where it lands, else byte `j` of the status, little-endian. -/
theorem status_bytes (m : Phys) (a b : ℕ) (x : ℤ) (msg : List UInt8) {j : ℕ} (hj : j < 4) :
    ((m.memmove a (intBytes x)).memmove b msg).mem (a + j) =
      if b ≤ a + j ∧ a + j < b + msg.length then msg.getD (a + j - b) 0
      else UInt8.ofNat ((x % 2 ^ 32).toNat / 256 ^ j) := by
  have hs : ByteMem.writeBytes m.mem a (intBytes x) (a + j) = UInt8.ofNat ((x % 2 ^ 32).toNat / 256 ^ j) := by
    rw [ByteMem.writeBytes_add (by simpa [intBytes] using hj), intBytes, ByteMem.getD_leBytes hj]
  rw [Phys.mem_memmove, ByteMem.writeBytes_apply, Phys.mem_memmove, hs]

/-! ## Reaping -/

/-- In every state a run from boot reaches: a live process other than `init` has a parent
that is not UNUSED; a slot becomes UNUSED only when `wait` by its parent reaps it as a
ZOMBIE; a ZOMBIE holds the status of its own last `exit` in the run. And in every kernel
state: `wait` returns a pid `> 0` only for a ZOMBIE child of the caller, after copying out
that child's status; the caller's status word then holds the status, except where the
message copied next lands on it; a failed status copy returns `-1` with the process table
unchanged. -/
theorem proc_tree_reaping {ty : ℕ} {es : List Event} {s : Sys} (hs : Run.run (next ty) boot es = some s) :
    (∀ i, (s.proc i).state ≠ .unused → i ≠ s.initproc →
      ∃ j, (s.proc i).parent = some j ∧ (s.proc j).state ≠ .unused) ∧
    (∀ e s' i, next ty s e = some s' → (s.proc i).state ≠ .unused → (s'.proc i).state = .unused →
      ∃ c p, e = .wait c true ∧ s.cur c = some p ∧ (s.proc i).parent = some p ∧
        (s.proc i).state = .zombie) ∧
    (∀ i, (s.proc i).state = .zombie →
      ∃ es₁ c msg es₂, es = es₁ ++ .exit c (s.proc i).xstate msg :: es₂ ∧
        (∃ s₁, Run.run (next ty) boot es₁ = some s₁ ∧ s₁.cur c = some i) ∧
        ∀ n ≤ es₂.length, ∃ s₂, Run.run (next ty) boot (es₁ ++ .exit c (s.proc i).xstate msg :: es₂.take n) =
          some s₂ ∧ (s₂.proc i).state = .zombie ∧ (s₂.proc i).xstate = (s.proc i).xstate) ∧
    (∀ (k k' : Kernel) p addr pExitMsg r, Kernel.wait k p addr pExitMsg = .ok (some r, k') → 0 < r →
      ∃ i, (k.sys.proc i).parent = some p ∧ (k.sys.proc i).state = .zombie ∧ r = (k.sys.proc i).pid ∧
        (addr ≠ 0 → ∃ r₀ m, copyout k.phys (k.sys.proc p).pagetable addr (intBytes (k.sys.proc i).xstate) =
          .ok (r₀, m) ∧ 0 ≤ r₀)) ∧
    (∀ (k : Kernel) p i addr pExitMsg pa pm, zombieChild k.sys.proc p = some i → addr ≠ 0 →
      walkaddr k.phys (k.sys.proc p).pagetable (PGROUNDDOWN addr) = .ok pa → pa ≠ 0 →
      addr % PGSIZE + 4 ≤ PGSIZE →
      walkaddr (k.phys.memmove (pa + addr % PGSIZE) (intBytes (k.sys.proc i).xstate))
        (k.sys.proc p).pagetable (PGROUNDDOWN pExitMsg) = .ok pm → pm ≠ 0 →
      pExitMsg % PGSIZE + 32 ≤ PGSIZE →
      ∃ m, Kernel.wait k p addr pExitMsg =
          (Kernel.freeproc { k with phys := m } i).map (fun k' => (some (k.sys.proc i).pid, k')) ∧
        ∀ j < 4, m.mem (pa + addr % PGSIZE + j) =
          if pm + pExitMsg % PGSIZE ≤ pa + addr % PGSIZE + j ∧ pa + addr % PGSIZE + j < pm + pExitMsg % PGSIZE + 32
          then (k.sys.proc i).exitMsg.toList.getD (pa + addr % PGSIZE + j - (pm + pExitMsg % PGSIZE)) 0
          else UInt8.ofNat (((k.sys.proc i).xstate % 2 ^ 32).toNat / 256 ^ j)) ∧
    (∀ (k : Kernel) p addr pExitMsg i r m, zombieChild k.sys.proc p = some i → addr ≠ 0 →
      copyout k.phys (k.sys.proc p).pagetable addr (intBytes (k.sys.proc i).xstate) = .ok (r, m) → r < 0 →
      Kernel.wait k p addr pExitMsg = .ok (some (-1), { k with phys := m })) := by
  have hinv := treeInv_reachable (Run.reachable_of_run hs)
  refine ⟨fun i hi hne => ?_, fun e s' i h hu hu' => ?_, zombie_exit_event es hs,
    fun k k' p addr pExitMsg r h hr => ?_,
    fun k p i addr pExitMsg pa pm hz ha hpa hpa0 hfit hpm hpm0 hfitm =>
      ⟨_, kernelWait_copies hz ha hpa hpa0 hfit hpm hpm0 hfitm, fun j hj => by
        rw [status_bytes _ _ _ _ _ hj, Vector.length_toList]⟩,
    fun k p addr pExitMsg i r m hz ha hc hr => kernelWait_copy_fails hz ha hc hr⟩
  · obtain ⟨j, hj⟩ := Option.ne_none_iff_exists'.mp (hinv.has_parent i hi hne)
    exact ⟨j, hj, (hinv.parent_live i j hj).1⟩
  · obtain ⟨c, p, he, hc, hz⟩ := next_unused h hu hu'
    exact ⟨c, p, he, hc, zombieChild_spec hz⟩
  · obtain ⟨i, hz, hpid, hcopy⟩ := kernelWait_reaped h (by omega)
    exact ⟨i, (zombieChild_spec hz).1, (zombieChild_spec hz).2, hpid, hcopy⟩

/-- `init` forks; the child runs on CPU 1 and calls `exit(7, "")`. -/
def forkExitRun : List Event :=
  [.schedIter 0, .fork 0 true, .schedIter 1, .schedIter 1, .exit 1 7 (fun _ => 0)]

/-- The two-process machine of `wait_null_msg_overwrites`, the child a ZOMBIE with status 7
and message `"done"`. -/
def waitState7 : Kernel := twoProcs { childProc .zombie (Vector.ofFn fun j => doneMsg.getD j 0) with xstate := 7 }

/-- After `forkExitRun` the child is a ZOMBIE whose status is the 7 of the run's `exit`; and
`init`'s `wait(0x10, 0x12)` in the two-process machine leaves the status bytes 7 and 0 at
`0x10`, then `"do"` of the message over the next two. -/
theorem proc_tree_reaping_forkExit :
    (∃ s, Run.run (next 0) boot forkExitRun = some s ∧ (s.proc 1).state = .zombie ∧ (s.proc 1).xstate = 7 ∧
      ∃ es₁ c msg es₂, forkExitRun = es₁ ++ .exit c 7 msg :: es₂ ∧
        ∃ s₁, Run.run (next 0) boot es₁ = some s₁ ∧ s₁.cur c = some 1) ∧
    ∃ m, Kernel.wait waitState7 0 0x10 0x12 =
        (Kernel.freeproc { waitState7 with phys := m } 1).map (fun k' => (some 2, k')) ∧
      (List.range 4).map (fun j => m.mem (initRoot + 5 * PGSIZE + 0x10 + j)) = [7, 0, 100, 111] := by
  obtain ⟨s, hs, hp⟩ := @Run.exists_of_run_map Sys Event (next 0) boot forkExitRun
    (fun s => (s.proc 1).state == .zombie && (s.proc 1).xstate == 7) (by decide)
  simp only [Bool.and_eq_true, beq_iff_eq] at hp
  have h := proc_tree_reaping hs
  obtain ⟨es₁, c, msg, es₂, hes, hrun, -⟩ := h.2.2.1 1 hp.1
  rw [hp.2] at hes
  have hz : zombieChild waitState7.sys.proc 0 = some 1 := by decide
  have hpa : walkaddr waitState7.phys (waitState7.sys.proc 0).pagetable (PGROUNDDOWN 0x10) =
      .ok (initRoot + 5 * PGSIZE) := by decide
  have hpm : walkaddr (waitState7.phys.memmove (initRoot + 5 * PGSIZE + 0x10 % PGSIZE)
      (intBytes (waitState7.sys.proc 1).xstate)) (waitState7.sys.proc 0).pagetable (PGROUNDDOWN 0x12) =
      .ok (initRoot + 5 * PGSIZE) := by decide
  obtain ⟨m, hw, hb⟩ := h.2.2.2.2.1 waitState7 0 1 0x10 0x12 _ _ hz (by decide) hpa (by decide) (by decide) hpm
    (by decide) (by decide)
  refine ⟨⟨s, hs, hp.1, hp.2, es₁, c, msg, es₂, hes, hrun⟩, m, hw, ?_⟩
  show (List.range 4).map (fun j => m.mem (initRoot + 5 * PGSIZE + 0x10 % PGSIZE + j)) = _
  rw [List.map_congr_left fun j hj => hb j (List.mem_range.mp hj)]
  decide

/-! ## The calls with memory keep the tree -/

end Xv6
