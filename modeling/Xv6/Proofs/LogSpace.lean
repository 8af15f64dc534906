import Xv6.Spec.Log
import Xv6.Lib.Run

/-! Log space. `begin_op` admits an operation while `n + (outstanding + 1) * MAXOPBLOCKS`
stays within `LOGSIZE`, so three operations may run together on an empty log and write 30
blocks between them; but block 0 of the log region is the header, and `log_write` refuses
to go past `log.size - 1` = 29 blocks. What does hold in every run is that the header never
names a block twice and never more blocks than the log region has room for. -/

namespace Xv6

/-- The log calls as the steps of a system: a call that panics or sleeps is not enabled. -/
def logNext (l : Log) (e : LogEvent) : Option Log :=
  match logStep l e with
  | some (.ok l') => some l'
  | _ => none

/-- What every log that runs reach keeps. -/
structure LogInv (l : Log) : Prop where
  nodup : l.lh.Nodup
  fits : l.lh.length < l.size

/-- What one call can do to the header: keep it, clear it at a commit, or add a block
not yet in it while there is room. -/
theorem logNext_lh {l l' : Log} {e : LogEvent} (h : logNext l e = some l') :
    l'.size = l.size ∧ (l'.lh = l.lh ∨ l'.lh = [] ∨
      ∃ b, b ∉ l.lh ∧ l.lh.length < l.size - 1 ∧ l'.lh = l.lh ++ [b]) := by
  have hstep : logStep l e = some (.ok l') := by
    unfold logNext at h
    split at h
    · next heq => cases h; exact heq
    · cases h
  cases e with
  | beginOp o =>
    obtain ⟨-, -, rfl⟩ := Log.beginOp_eq_some (by simpa [logStep] using hstep)
    exact ⟨rfl, .inl rfl⟩
  | logWrite o b =>
    obtain ⟨-, hroom, -, rfl⟩ := Log.logWrite_eq_ok (by simpa [logStep] using hstep)
    by_cases hb : b ∈ l.lh
    · rw [if_pos hb]
      exact ⟨rfl, .inl rfl⟩
    · rw [if_neg hb]
      exact ⟨rfl, .inr (.inr ⟨b, hb, hroom, rfl⟩)⟩
  | endOp o =>
    cases hend : l.endOp with
    | error err => simp [logStep, hend, Except.map] at hstep
    | ok r =>
      obtain ⟨l₁, c⟩ := r
      obtain ⟨-, hlh, hsize, -⟩ := Log.endOp_eq_ok hend
      simp only [logStep, hend, Except.map, Option.some.injEq, Except.ok.injEq] at hstep
      subst hstep
      cases c
      · exact ⟨hsize, .inl hlh⟩
      · exact ⟨hsize, .inr (.inl rfl)⟩

theorem logNext_inv {l l' : Log} {e : LogEvent} (hl : LogInv l) (h : logNext l e = some l') :
    LogInv l' := by
  obtain ⟨hsize, hlh | hlh | ⟨b, hb, hroom, hlh⟩⟩ := logNext_lh h
  · exact ⟨hlh ▸ hl.nodup, by rw [hlh, hsize]; exact hl.fits⟩
  · have := hl.fits
    exact ⟨by rw [hlh]; exact List.nodup_nil, by rw [hlh, hsize]; simp only [List.length_nil]; omega⟩
  · constructor
    · rw [hlh, List.nodup_append]
      refine ⟨hl.nodup, List.nodup_singleton b, fun a ha c hc hac => ?_⟩
      rw [List.mem_singleton] at hc
      exact hb (hc ▸ hac ▸ ha)
    · rw [hlh, hsize, List.length_append, List.length_singleton]
      omega

/-- The distinct blocks that operation `o` passes to `log_write` in a run. -/
def opBlocks (o : ℕ) (es : List LogEvent) : List ℕ :=
  (es.filterMap fun
    | .logWrite o' b => if o' = o then some b else none
    | _ => none).dedup

/-- Three operations begin on an empty log, and each writes ten blocks of its own. -/
def threeOps : List LogEvent :=
  [.beginOp 0, .beginOp 1, .beginOp 2] ++
    (List.range 10).map (fun j => .logWrite 0 (100 + j)) ++
    (List.range 10).map (fun j => .logWrite 1 (110 + j)) ++
    (List.range 10).map (fun j => .logWrite 2 (120 + j))

/-- In every run from `initlog`, the header names each block at most once, and at most
`log.size - 1` of them: `write_log` and `install_trans` stay within log blocks
`log.start + 1 .. log.start + log.size - 1`. -/
theorem log_reachable_inv {l : Log} (hl : Run.Reachable logNext initLog l) : LogInv l :=
  Run.Reachable.induction (P := LogInv) ⟨List.nodup_nil, by decide⟩
    (fun _ _ _ hs he => logNext_inv hs he) hl

/-- Twenty-nine of the thirty blocks of `threeOps` are in the header, one fewer than the log
region has blocks. -/
theorem log_reachable_inv_threeOps :
    ∃ l, Run.Reachable logNext initLog l ∧ l.lh.length = 29 ∧ LogInv l := by
  obtain ⟨l, hl, hlen⟩ := Run.exists_reachable_of_run logNext initLog (threeOps.take 32)
    (fun l => l.lh.length == 29) (by decide)
  exact ⟨l, hl, beq_iff_eq.mp hlen, log_reachable_inv hl⟩

/-- Each of the three operations stays within `MAXOPBLOCKS` blocks and `begin_op` admits
all three, yet the thirtieth `log_write` panics. -/
theorem three_ops_overflow_log :
    (∀ o < 3, (opBlocks o threeOps).length = MAXOPBLOCKS) ∧
      logRun initLog threeOps = some (.error "too big a transaction") := by
  decide

end Xv6
