import Xv6.Spec.Pipe
import Xv6.Lib.Counter
import Xv6.Lib.RingBuf
import Xv6.Proofs.UserMem

/-! Pipes. The two counters keep their distance within `PIPESIZE` in every run, across the
wrap of the `uint`s: `pipewrite` adds a byte only when the pipe is not full, and `piperead`
takes one only when it is not empty. But `piperead` takes the byte out of the pipe
(`pi->nread++`) before it copies it out, and when that `copyout` fails the call returns
the count of the bytes before it: the byte is gone from the pipe and no read returns it.
The ring itself is a FIFO queue of the bytes written (`pipe_fifo`): the loss is the copy's. -/

namespace Xv6

open Counter

namespace PipeSys

variable {s : PipeSys} {p : Fin NPROC}

@[simp] theorem setCall_pipe (c : Option PipeCall) : (s.setCall p c).pipe = s.pipe := rfl
@[simp] theorem finish_pipe (r : ℤ) : (s.finish p r).pipe = s.pipe := rfl
@[simp] theorem readDone_pipe (got : List UInt8) : (s.readDone p got).pipe = s.pipe := rfl

end PipeSys

/-! ## The counters -/

/-- What one step can do to the counters: nothing, add a byte to a pipe that is not full,
or take a byte from one that is not empty. -/
def CounterStep (pi pi' : Pipe) : Prop :=
  (pi'.nread = pi.nread ∧ pi'.nwrite = pi.nwrite) ∨
  (pi'.nread = pi.nread ∧ pi.nwrite ≠ pi.nread + UInt32.ofNat PIPESIZE ∧ pi'.nwrite = pi.nwrite + 1) ∨
  (pi.nread ≠ pi.nwrite ∧ pi'.nread = pi.nread + 1 ∧ pi'.nwrite = pi.nwrite)

section Steps

variable {s s' : PipeSys} {p : Fin NPROC} {addr : ℕ} {n : ℤ}

theorem pipewriteStep_counters {i : ℕ} (h : pipewriteStep s p addr n i = some (.ok s')) :
    CounterStep s.pipe s'.pipe := by
  unfold pipewriteStep at h
  dsimp only at h
  split_ifs at h with hn hstop hfull
  · cases h; exact .inl ⟨rfl, rfl⟩
  · obtain ⟨⟨r, bs⟩, -, h⟩ := Except.bind_eq_ok.mp (Option.some.inj h)
    dsimp only at h
    split_ifs at h
    · cases h; exact .inl ⟨rfl, rfl⟩
    · -- the byte goes in at `nwrite`, which the full test let past
      cases h; exact .inr (.inl ⟨rfl, hfull, rfl⟩)
  · cases h; exact .inl ⟨rfl, rfl⟩

theorem pipereadWait_pipe (h : pipereadWait s p addr n = some (.ok s')) : s'.pipe = s.pipe := by
  unfold pipereadWait at h
  split_ifs at h <;> cases h <;> rfl

theorem pipereadCopy_counters {got : List UInt8} (h : pipereadCopy s p addr n got = .ok s') :
    CounterStep s.pipe s'.pipe := by
  unfold pipereadCopy at h
  split_ifs at h with hc
  · obtain ⟨⟨r, m⟩, -, h⟩ := Except.bind_eq_ok.mp h
    dsimp only at h
    -- `nread` has moved on whether or not the copy succeeds
    split_ifs at h <;> cases h <;> exact .inr (.inr ⟨hc.2, rfl, rfl⟩)
  · cases h; exact .inl ⟨rfl, rfl⟩

theorem pipeNext_counters {e : PipeEvent} (h : pipeNext s e = some s') : CounterStep s.pipe s'.pipe := by
  have hstep : pipeStep s e = some (.ok s') := by
    unfold pipeNext at h
    split at h
    · next heq => cases h; exact heq
    · cases h
  cases e with
  | write q a k =>
    simp only [pipeStep] at hstep
    split_ifs at hstep
    cases hstep; exact .inl ⟨rfl, rfl⟩
  | read q a k =>
    simp only [pipeStep] at hstep
    split_ifs at hstep
    cases hstep; exact .inl ⟨rfl, rfl⟩
  | step q =>
    simp only [pipeStep] at hstep
    split at hstep
    · cases hstep
    · exact pipewriteStep_counters hstep
    · rw [pipereadWait_pipe hstep]; exact .inl ⟨rfl, rfl⟩
    · exact pipereadCopy_counters (Option.some.inj hstep)
  | close w =>
    simp only [pipeStep] at hstep
    obtain ⟨s₁, hc, he⟩ := Option.map_eq_some_iff.mp hstep
    cases he
    unfold pipeclose at hc
    split_ifs at hc <;> cases hc <;> exact .inl ⟨rfl, rfl⟩
  | kill q =>
    simp only [pipeStep] at hstep
    cases hstep; exact .inl ⟨rfl, rfl⟩

end Steps

theorem CounterStep.ahead_le {pi pi' : Pipe} (h : CounterStep pi pi')
    (hle : ahead pi.nwrite pi.nread ≤ PIPESIZE) : ahead pi'.nwrite pi'.nread ≤ PIPESIZE := by
  rcases h with ⟨hr, hw⟩ | ⟨hr, hfull, hw⟩ | ⟨hne, hr, hw⟩
  · rwa [hr, hw]
  · -- not full: fewer than `PIPESIZE` bytes, so one more still fits
    have hne : ahead pi.nwrite pi.nread ≠ PIPESIZE := fun e => hfull ((eq_add_iff (by decide)).mpr e)
    rw [hr, hw, ahead_succ_left (by unfold PIPESIZE at *; omega)]
    omega
  · rw [hr, hw, ahead_succ_right (Ne.symm hne)]
    omega

/-- In every run on a pipe from `pipealloc`, `0 ≤ nwrite - nread ≤ PIPESIZE` in `uint`
arithmetic. -/
theorem pipe_ahead_le {data : Fin PIPESIZE → UInt8} {phys : Phys} {pagetable : Fin NPROC → ℕ}
    {s : PipeSys} (hs : Run.Reachable pipeNext (pipeInit data phys pagetable) s) :
    ahead s.pipe.nwrite s.pipe.nread ≤ PIPESIZE := by
  induction hs with
  | init => simp [pipeInit, pipealloc, ahead, PIPESIZE]
  | step e _ he ih => exact (pipeNext_counters he).ahead_le ih

/-! ## One iteration of each loop -/

section Iterations

variable {s : PipeSys} {p : Fin NPROC} {addr : ℕ} {n : ℤ}

/-- A read iteration whose copy faults: the byte at `nread` is taken out of the pipe, and
the call returns the bytes before it. -/
theorem pipereadCopy_fault {got : List UInt8} (hn : (got.length : ℤ) < n)
    (hne : s.pipe.nread ≠ s.pipe.nwrite)
    (hpa : walkaddr s.phys (s.procs p).pagetable (PGROUNDDOWN (addr + got.length)) = .ok 0) :
    pipereadCopy s p addr n got =
      .ok ({ s with pipe := { s.pipe with nread := s.pipe.nread + 1 } }.readDone p got) := by
  have hcopy : copyout s.phys (s.procs p).pagetable (addr + got.length) [s.pipe.data (Pipe.slot s.pipe.nread)] =
      .ok (-1, s.phys) := copyout_unmapped (List.cons_ne_nil _ _) hpa
  simp only [pipereadCopy, if_pos (And.intro hn hne)]
  simp only [hcopy]
  rfl

end Iterations

/-! ## A byte lost -/

/-- The memory of the two-process machine: `init` maps its code page at 0 and nothing at
`0x2000`; its child holds `abc...` at `0x100`. -/
def pipePhys : Phys := { mem := twoProcMem, freelist := 0, kend := KERNBASE + 0x100000 }

/-- A pipe between the child (slot 1), which writes, and `init` (slot 0), which reads. -/
def pipeTwo : PipeSys :=
  pipeInit (fun _ => 0) pipePhys fun p => if p = 0 then initRoot else if p = 1 then childRoot else 0

/-- The child writes `"ab"`; `init` reads one byte into `0x2000`, which faults, then one
byte into `0`. -/
def pipeRun : List PipeEvent :=
  [.write 1 0x100 2, .step 1, .step 1, .step 1,
   .read 0 0x2000 1, .step 0, .step 0,
   .read 0 0 1, .step 0, .step 0, .step 0]

theorem pipe_read_fault_loses_byte :
    (Run.run pipeNext pipeTwo pipeRun).map (fun s => (s.written, s.delivered, (s.procs 0).ret)) =
      some ([97, 98], [98], 1) ∧ ¬ ([98] : List UInt8) <+: [97, 98] := by
  -- the run up to `init`'s copy into `0x2000`; that step is the faulting copy of
  -- `pipereadCopy_fault`, and the rest of the run goes on from the state it leaves
  obtain ⟨s₁, hrun, hp⟩ := Run.exists_of_run_map
    (show (Run.run pipeNext pipeTwo (pipeRun.take 6)).map (fun s =>
      (s.procs 0).call == some (.readCopy 0x2000 1 []) && s.pipe.nread != s.pipe.nwrite &&
        (walkaddr s.phys (s.procs 0).pagetable (PGROUNDDOWN (0x2000 + ([] : List UInt8).length))).toOption ==
          some 0 &&
        (Run.run pipeNext ({ s with pipe := { s.pipe with nread := s.pipe.nread + 1 } }.readDone 0 [])
          (pipeRun.drop 7)).map (fun s => (s.written, s.delivered, (s.procs 0).ret)) ==
          some ([97, 98], [98], 1)) = some true by decide)
  simp only [Bool.and_eq_true, beq_iff_eq, bne_iff_ne, ne_eq] at hp
  obtain ⟨⟨⟨hcall, hne⟩, hwalk⟩, hpost⟩ := hp
  obtain ⟨pa, hpa, rfl⟩ := Except.exists_of_toOption_map (g := id) (by rw [Option.map_id]; exact hwalk)
  have hstep : pipeNext s₁ (.step 0) =
      some ({ s₁ with pipe := { s₁.pipe with nread := s₁.pipe.nread + 1 } }.readDone 0 []) := by
    simp only [pipeNext, pipeStep, hcall, pipereadCopy_fault (n := 1) (by decide) hne hpa]
  rw [show pipeRun = pipeRun.take 6 ++ .step 0 :: pipeRun.drop 7 from rfl, Run.run_append, hrun,
    Option.bind_some, Run.run, hstep, Option.bind_some]
  exact ⟨hpost, by decide⟩

/-! ## The bytes in the pipe

The ring holds a queue: the `nwrite - nread` cells from `nread` on. `PIPESIZE` divides
`2 ^ 32`, so the wrap of the counters keeps the queue's cells consecutive, and in every run
the queue is the newest bytes written, oldest first. -/

instance : NeZero PIPESIZE := ⟨by decide⟩

theorem PIPESIZE_dvd : PIPESIZE ∣ 2 ^ 32 := ⟨2 ^ 23, by decide⟩

/-- The bytes in the pipe, oldest first. -/
def Pipe.queue (pi : Pipe) : List UInt8 := RingBuf.view pi.data pi.nread (ahead pi.nwrite pi.nread)

/-- `pi->data[pi->nwrite++ % PIPESIZE] = ch` on a pipe that is not full appends `ch`. -/
theorem Pipe.queue_put {pi : Pipe} (ch : UInt8) (hfull : pi.nwrite ≠ pi.nread + UInt32.ofNat PIPESIZE)
    (hle : ahead pi.nwrite pi.nread ≤ PIPESIZE) : (pi.put ch).queue = pi.queue ++ [ch] := by
  -- not full: fewer than `PIPESIZE` bytes, so the cell at `nwrite` lies past them
  have hlt : ahead pi.nwrite pi.nread < PIPESIZE :=
    lt_of_le_of_ne hle fun e => hfull ((eq_add_iff (by decide)).mpr e)
  have hslot : Pipe.slot pi.nwrite =
      RingBuf.cell PIPESIZE (pi.nread + UInt32.ofNat (ahead pi.nwrite pi.nread)) := by
    rw [add_ahead]
    rfl
  unfold Pipe.queue Pipe.put
  dsimp only
  rw [ahead_succ_left (by unfold PIPESIZE at hlt; omega), hslot]
  exact RingBuf.view_update_succ PIPESIZE_dvd _ _ hlt ch

/-- `pi->nread++` on a pipe that is not empty takes out the byte at `nread`, the oldest. -/
theorem Pipe.queue_take {pi : Pipe} (hne : pi.nread ≠ pi.nwrite) :
    pi.queue = pi.data (Pipe.slot pi.nread) :: { pi with nread := pi.nread + 1 }.queue := by
  obtain ⟨k, hk⟩ : ∃ k, ahead pi.nwrite pi.nread = k + 1 :=
    Nat.exists_eq_succ_of_ne_zero fun h => hne (ahead_eq_zero_iff.mp h).symm
  unfold Pipe.queue
  dsimp only
  rw [ahead_succ_right (Ne.symm hne), hk, Nat.add_sub_cancel, RingBuf.view_succ_head]
  rfl

namespace PipeSys

variable {s : PipeSys} {p : Fin NPROC}

@[simp] theorem setCall_written (c : Option PipeCall) : (s.setCall p c).written = s.written := rfl
@[simp] theorem finish_written (r : ℤ) : (s.finish p r).written = s.written := rfl
@[simp] theorem readDone_written (got : List UInt8) : (s.readDone p got).written = s.written := rfl

end PipeSys

/-- What one step can do to the ring and to the bytes written: leave both, put a byte it
records as written into a pipe that is not full, or take the byte at `nread` out of one that
is not empty. -/
def BufStep (s s' : PipeSys) : Prop :=
  (s'.pipe.data = s.pipe.data ∧ s'.pipe.nread = s.pipe.nread ∧ s'.pipe.nwrite = s.pipe.nwrite ∧
    s'.written = s.written) ∨
  (∃ ch, s.pipe.nwrite ≠ s.pipe.nread + UInt32.ofNat PIPESIZE ∧ s'.pipe.data = (s.pipe.put ch).data ∧
    s'.pipe.nread = s.pipe.nread ∧ s'.pipe.nwrite = s.pipe.nwrite + 1 ∧ s'.written = s.written ++ [ch]) ∨
  (s.pipe.nread ≠ s.pipe.nwrite ∧ s'.pipe.data = s.pipe.data ∧ s'.pipe.nread = s.pipe.nread + 1 ∧
    s'.pipe.nwrite = s.pipe.nwrite ∧ s'.written = s.written)

section Queue

variable {s s' : PipeSys} {p : Fin NPROC} {addr : ℕ} {n : ℤ}

theorem pipewriteStep_buf {i : ℕ} (h : pipewriteStep s p addr n i = some (.ok s')) : BufStep s s' := by
  unfold pipewriteStep at h
  dsimp only at h
  split_ifs at h with hn hstop hfull
  · cases h; exact .inl ⟨rfl, rfl, rfl, rfl⟩
  · obtain ⟨⟨r, bs⟩, -, h⟩ := Except.bind_eq_ok.mp (Option.some.inj h)
    dsimp only at h
    split_ifs at h
    · cases h; exact .inl ⟨rfl, rfl, rfl, rfl⟩
    · -- the byte copied in is the one put at `nwrite` and recorded
      cases h; exact .inr (.inl ⟨_, hfull, rfl, rfl, rfl, rfl⟩)
  · cases h; exact .inl ⟨rfl, rfl, rfl, rfl⟩

theorem pipereadCopy_buf {got : List UInt8} (h : pipereadCopy s p addr n got = .ok s') : BufStep s s' := by
  unfold pipereadCopy at h
  split_ifs at h with hc
  · obtain ⟨⟨r, m⟩, -, h⟩ := Except.bind_eq_ok.mp h
    dsimp only at h
    split_ifs at h <;> cases h <;> exact .inr (.inr ⟨hc.2, rfl, rfl, rfl, rfl⟩)
  · cases h; exact .inl ⟨rfl, rfl, rfl, rfl⟩

theorem pipeStep_of_next {e : PipeEvent} (h : pipeNext s e = some s') : pipeStep s e = some (.ok s') := by
  unfold pipeNext at h
  split at h
  · next heq => cases h; exact heq
  · cases h

theorem pipeNext_buf {e : PipeEvent} (h : pipeNext s e = some s') : BufStep s s' := by
  have hstep := pipeStep_of_next h
  cases e with
  | write q a k =>
    simp only [pipeStep] at hstep
    split_ifs at hstep
    cases hstep; exact .inl ⟨rfl, rfl, rfl, rfl⟩
  | read q a k =>
    simp only [pipeStep] at hstep
    split_ifs at hstep
    cases hstep; exact .inl ⟨rfl, rfl, rfl, rfl⟩
  | step q =>
    simp only [pipeStep] at hstep
    split at hstep
    · cases hstep
    · exact pipewriteStep_buf hstep
    · -- the wait loop only sets the call
      unfold pipereadWait at hstep
      split_ifs at hstep <;> cases hstep <;> exact .inl ⟨rfl, rfl, rfl, rfl⟩
    · exact pipereadCopy_buf (Option.some.inj hstep)
  | close w =>
    simp only [pipeStep] at hstep
    obtain ⟨s₁, hc, he⟩ := Option.map_eq_some_iff.mp hstep
    cases he
    unfold pipeclose at hc
    split_ifs at hc <;> cases hc <;> exact .inl ⟨rfl, rfl, rfl, rfl⟩
  | kill q =>
    simp only [pipeStep] at hstep
    cases hstep; exact .inl ⟨rfl, rfl, rfl, rfl⟩

/-- A step on a pipe that holds at most `PIPESIZE` bytes leaves the queue, appends the byte
written, or takes out the head. -/
theorem BufStep.queue (h : BufStep s s') (hle : ahead s.pipe.nwrite s.pipe.nread ≤ PIPESIZE) :
    (s'.pipe.queue = s.pipe.queue ∧ s'.written = s.written) ∨
    (∃ ch, s'.pipe.queue = s.pipe.queue ++ [ch] ∧ s'.written = s.written ++ [ch]) ∨
    (s.pipe.queue = s.pipe.data (Pipe.slot s.pipe.nread) :: s'.pipe.queue ∧ s'.written = s.written) := by
  rcases h with ⟨hd, hr, hw, hwr⟩ | ⟨ch, hfull, hd, hr, hw, hwr⟩ | ⟨hne, hd, hr, hw, hwr⟩
  · exact .inl ⟨by simp only [Pipe.queue, hd, hr, hw], hwr⟩
  · refine .inr (.inl ⟨ch, ?_, hwr⟩)
    rw [← Pipe.queue_put ch hfull hle]
    simp only [Pipe.queue, hd, hr, hw, Pipe.put]
  · refine .inr (.inr ⟨?_, hwr⟩)
    rw [Pipe.queue_take hne]
    simp only [Pipe.queue, hd, hr, hw]

end Queue

section Fifo

variable {data : Fin PIPESIZE → UInt8} {phys : Phys} {pagetable : Fin NPROC → ℕ}

theorem pipeNext_queue {s s' : PipeSys} (hs : Run.Reachable pipeNext (pipeInit data phys pagetable) s)
    {e : PipeEvent} (h : pipeNext s e = some s') :
    (s'.pipe.queue = s.pipe.queue ∧ s'.written = s.written) ∨
    (∃ ch, s'.pipe.queue = s.pipe.queue ++ [ch] ∧ s'.written = s.written ++ [ch]) ∨
    (s.pipe.queue = s.pipe.data (Pipe.slot s.pipe.nread) :: s'.pipe.queue ∧ s'.written = s.written) :=
  (pipeNext_buf h).queue (pipe_ahead_le hs)

/-- In every run the bytes in the pipe end the bytes written. -/
theorem queue_suffix {s : PipeSys} (hs : Run.Reachable pipeNext (pipeInit data phys pagetable) s) :
    s.pipe.queue <:+ s.written := by
  induction hs with
  | init => simp [pipeInit, pipealloc, Pipe.queue, ahead]
  | step e hr he ih =>
    rcases pipeNext_queue hr he with ⟨hq, hw⟩ | ⟨ch, hq, hw⟩ | ⟨hq, hw⟩
    · rw [hq, hw]
      exact ih
    · -- the byte written joins both at their ends
      obtain ⟨t, ht⟩ := ih
      exact ⟨t, by rw [hq, hw, ← ht, List.append_assoc]⟩
    · rw [hw]
      exact (List.suffix_cons _ _).trans (hq ▸ ih)

/-- The pipe is a FIFO queue of the bytes written: in every run the bytes it holds are the
newest `nwrite - nread` bytes written, in order, and each step leaves them, appends the byte
it writes, or takes out the oldest, the one at `nread` that `piperead` copies out. -/
theorem pipe_fifo {s : PipeSys} (hs : Run.Reachable pipeNext (pipeInit data phys pagetable) s) :
    s.pipe.queue <:+ s.written ∧ ∀ e s', pipeNext s e = some s' →
      (s'.pipe.queue = s.pipe.queue ∧ s'.written = s.written) ∨
      (∃ ch, s'.pipe.queue = s.pipe.queue ++ [ch] ∧ s'.written = s.written ++ [ch]) ∨
      (s.pipe.queue = s.pipe.data (Pipe.slot s.pipe.nread) :: s'.pipe.queue ∧ s'.written = s.written) :=
  ⟨queue_suffix hs, fun _ _ h => pipeNext_queue hs h⟩

/-- The child's write of `"ab"` leaves both bytes in the pipe, oldest first. -/
theorem pipe_fifo_ab :
    ∃ s, Run.run pipeNext pipeTwo [.write 1 0x100 2, .step 1, .step 1] = some s ∧
      (s.pipe.queue <:+ s.written ∧ ∀ e s', pipeNext s e = some s' →
        (s'.pipe.queue = s.pipe.queue ∧ s'.written = s.written) ∨
        (∃ ch, s'.pipe.queue = s.pipe.queue ++ [ch] ∧ s'.written = s.written ++ [ch]) ∨
        (s.pipe.queue = s.pipe.data (Pipe.slot s.pipe.nread) :: s'.pipe.queue ∧ s'.written = s.written)) ∧
      s.pipe.queue = [97, 98] := by
  have hrun : (Run.run pipeNext pipeTwo [.write 1 0x100 2, .step 1, .step 1]).map (fun s => s.pipe.queue) =
      some [97, 98] := by
    decide
  obtain ⟨s, hs, hq⟩ := Option.map_eq_some_iff.mp hrun
  exact ⟨s, hs, pipe_fifo (Run.reachable_of_run hs), hq⟩

end Fifo

end Xv6
