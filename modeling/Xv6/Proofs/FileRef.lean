import Xv6.Spec.File
import Xv6.Lib.Tally
import Xv6.Lib.Except
import Xv6.Lib.Run

/-! Reference counts of the file table. Between calls, each file's `ref` is the number of
descriptors that name it, a file with no reference is `FD_NONE`, and a pipe is allocated
exactly while a live file is one of its ends, with `readopen` and `writeopen` telling which
ends are. Within a call the references a call holds in its locals are booked in a ledger
(`Ledger s h`: `h f` references of `f` besides the descriptors'); each call pays back what
it took. -/

namespace Xv6

open Except

namespace FdSys

variable {s s' : FdSys} {f g : Fin NFILE} {p q : Fin NPROC} {fd : Fin NOFILE}

@[simp] theorem setFile_ftable (x : OpenFile) : (s.setFile f x).ftable = Function.update s.ftable f x := rfl
@[simp] theorem setFile_pipes (x : OpenFile) : (s.setFile f x).pipes = s.pipes := rfl
@[simp] theorem setFile_procs (x : OpenFile) : (s.setFile f x).procs = s.procs := rfl
@[simp] theorem setFile_initproc (x : OpenFile) : (s.setFile f x).initproc = s.initproc := rfl
@[simp] theorem setOfile_ftable (x : Option (Fin NFILE)) : (s.setOfile p fd x).ftable = s.ftable := rfl
@[simp] theorem setOfile_pipes (x : Option (Fin NFILE)) : (s.setOfile p fd x).pipes = s.pipes := rfl
@[simp] theorem setOfile_initproc (x : Option (Fin NFILE)) : (s.setOfile p fd x).initproc = s.initproc := rfl
@[simp] theorem setState_ftable (st : Procstate) : (s.setState p st).ftable = s.ftable := rfl
@[simp] theorem setState_pipes (st : Procstate) : (s.setState p st).pipes = s.pipes := rfl

@[simp] theorem setOfile_state (x : Option (Fin NFILE)) : ((s.setOfile p fd x).procs q).state = (s.procs q).state := by
  by_cases h : q = p
  · subst h; simp [setOfile]
  · simp [setOfile, Function.update_of_ne h]

theorem setOfile_ofile (x : Option (Fin NFILE)) (j : Fin NOFILE) :
    ((s.setOfile p fd x).procs q).ofile j = if q = p ∧ j = fd then x else (s.procs q).ofile j := by
  by_cases h : q = p
  · subst h
    by_cases hj : j = fd
    · subst hj; simp [setOfile]
    · simp [setOfile, hj]
  · simp [setOfile, h]

@[simp] theorem setOfile_ofile_self (x : Option (Fin NFILE)) : ((s.setOfile p fd x).procs p).ofile fd = x := by
  simp [setOfile_ofile]

theorem setOfile_ofile_of_ne (x : Option (Fin NFILE)) {j : Fin NOFILE} (h : j ≠ fd) :
    ((s.setOfile p fd x).procs p).ofile j = (s.procs p).ofile j := by
  simp [setOfile_ofile, h]

theorem setOfile_procs_of_ne (x : Option (Fin NFILE)) (h : q ≠ p) : (s.setOfile p fd x).procs q = s.procs q := by
  simp [setOfile, Function.update_of_ne h]

@[simp] theorem setState_ofile (st : Procstate) : ((s.setState p st).procs q).ofile = (s.procs q).ofile := by
  by_cases h : q = p
  · subst h; simp [setState]
  · simp [setState, Function.update_of_ne h]

theorem setState_procs_of_ne (st : Procstate) (h : q ≠ p) : (s.setState p st).procs q = s.procs q := by
  simp [setState, Function.update_of_ne h]

theorem setState_state (st : Procstate) : ((s.setState p st).procs q).state = if q = p then st else (s.procs q).state := by
  by_cases h : q = p
  · subst h; simp [setState]
  · simp [setState, h]

/-! ## The descriptors, tallied -/

/-- Every descriptor of every process: `(p, fd) ↦ p->ofile[fd]`. -/
def slot (s : FdSys) : Fin NPROC × Fin NOFILE → Option (Fin NFILE) := fun x => (s.procs x.1).ofile x.2

/-- The number of `(process, fd)` pairs whose descriptor is `f`. -/
def nrefs (s : FdSys) (f : Fin NFILE) : ℕ := Tally.count s.slot (some f)

@[simp] theorem nrefs_setFile (x : OpenFile) : (s.setFile f x).nrefs = s.nrefs := rfl

theorem slot_setState (st : Procstate) : (s.setState p st).slot = s.slot := by
  funext ⟨q, j⟩
  show ((s.setState p st).procs q).ofile j = (s.procs q).ofile j
  rw [setState_ofile]

@[simp] theorem nrefs_setState (st : Procstate) : (s.setState p st).nrefs = s.nrefs := by
  funext g
  rw [nrefs, nrefs, slot_setState]

theorem slot_setOfile (x : Option (Fin NFILE)) : (s.setOfile p fd x).slot = Function.update s.slot (p, fd) x := by
  funext ⟨q, j⟩
  simp only [slot, setOfile_ofile, Function.update_apply, Prod.mk.injEq]

theorem nrefs_setOfile (p : Fin NPROC) (fd : Fin NOFILE) (x : Option (Fin NFILE)) (g : Fin NFILE) :
    (s.setOfile p fd x).nrefs g + (if (s.procs p).ofile fd = some g then 1 else 0) =
      s.nrefs g + (if x = some g then 1 else 0) := by
  rw [nrefs, slot_setOfile]
  exact Tally.count_update s.slot (p, fd) x (some g)

theorem nrefs_eq_zero : s.nrefs f = 0 ↔ ∀ p fd, (s.procs p).ofile fd ≠ some f := by
  rw [nrefs, Tally.count_eq_zero]
  exact ⟨fun h p fd => h (p, fd), fun h x => h x.1 x.2⟩

/-! ## The ledger -/

/-- Each file has `h f` references besides those its descriptors hold. -/
def Ledger (s : FdSys) (h : Fin NFILE → ℤ) : Prop := ∀ f, ((s.ftable f).ref : ℤ) = s.nrefs f + h f

variable {h : Fin NFILE → ℤ}

theorem Ledger.setFile (hl : s.Ledger h) (x : OpenFile) (d : ℤ) (hx : (x.ref : ℤ) = (s.ftable f).ref + d) :
    (s.setFile f x).Ledger (h + Pi.single f d) := by
  intro g
  rw [setFile_ftable, nrefs_setFile, Pi.add_apply, Pi.single_apply, Function.update_apply]
  by_cases hg : g = f
  · subst hg; rw [if_pos rfl, if_pos rfl, hx, hl g]; ring
  · rw [if_neg hg, if_neg hg, hl g, add_zero]

theorem Ledger.place (hl : s.Ledger h) (hfd : (s.procs p).ofile fd = none) :
    (s.setOfile p fd (some f)).Ledger (h - Pi.single f 1) := by
  intro g
  have hn := nrefs_setOfile (s := s) p fd (some f) g
  simp only [hfd, reduceCtorEq, if_false, add_zero, Option.some_inj] at hn
  rw [setOfile_ftable, hl g, Pi.sub_apply, Pi.single_apply]
  by_cases hg : g = f
  · subst hg; rw [if_pos rfl] at hn ⊢; omega
  · rw [if_neg (Ne.symm hg)] at hn; rw [if_neg hg]; omega

theorem Ledger.clear (hl : s.Ledger h) (hfd : (s.procs p).ofile fd = some f) :
    (s.setOfile p fd none).Ledger (h + Pi.single f 1) := by
  intro g
  have hn := nrefs_setOfile (s := s) p fd none g
  simp only [hfd, reduceCtorEq, if_false, add_zero, Option.some_inj] at hn
  rw [setOfile_ftable, hl g, Pi.add_apply, Pi.single_apply]
  by_cases hg : g = f
  · subst hg; rw [if_pos rfl] at hn ⊢; omega
  · rw [if_neg (Ne.symm hg)] at hn; rw [if_neg hg]; omega

theorem Ledger.congr (hl : s.Ledger h) (s' : FdSys) (hr : s'.ftable = s.ftable) (hn : s'.procs = s.procs) :
    s'.Ledger h := by
  intro g
  have hs : s'.nrefs = s.nrefs := by unfold nrefs slot; rw [hn]
  rw [hr, hs, hl g]

/-! ## What each primitive does -/

theorem filealloc_eq_some (ha : s.filealloc = some (f, s')) :
    (s.ftable f).ref = 0 ∧ s' = s.setFile f { s.ftable f with ref := 1 } := by
  simp only [filealloc, Option.map_eq_some_iff, Prod.mk.injEq] at ha
  obtain ⟨f', hf, rfl, rfl⟩ := ha
  exact ⟨by simpa using List.find?_some hf, rfl⟩

theorem fdalloc_eq_some (ha : s.fdalloc p f = some (fd, s')) :
    (s.procs p).ofile fd = none ∧ s' = s.setOfile p fd (some f) := by
  simp only [fdalloc, Option.map_eq_some_iff, Prod.mk.injEq] at ha
  obtain ⟨fd', hfd, rfl, rfl⟩ := ha
  exact ⟨by simpa using List.find?_some hfd, rfl⟩

theorem filedup_eq_ok (hd : s.filedup f = .ok s') :
    0 < (s.ftable f).ref ∧ s' = s.setFile f { s.ftable f with ref := (s.ftable f).ref + 1 } := by
  unfold filedup at hd
  split at hd
  · cases hd
  · cases hd; exact ⟨by omega, rfl⟩

theorem pipeclose_eq_ok {pi : ℕ} {w : Bool} (hc : s.pipeclose pi w = .ok s') :
    s'.ftable = s.ftable ∧ s'.procs = s.procs ∧ ∃ e, s.pipes pi = some e ∧
      s'.pipes = Function.update s.pipes pi
        (let e : PipeEnds := if w then { e with writeopen := false } else { e with readopen := false }
         if e.readopen = false ∧ e.writeopen = false then none else some e) := by
  unfold pipeclose at hc
  split at hc
  · cases hc
  · rename_i e he
    cases hc
    exact ⟨rfl, rfl, e, he, rfl⟩

/-- `fileclose` drops one reference; the last one makes the file `FD_NONE` and closes its
end of a pipe. -/
theorem fileclose_eq_ok (hc : s.fileclose f = .ok s') :
    (1 < (s.ftable f).ref ∧ s' = s.setFile f { s.ftable f with ref := (s.ftable f).ref - 1 }) ∨
    ((s.ftable f).ref = 1 ∧ (s.ftable f).type ≠ .pipe ∧
      s' = s.setFile f { s.ftable f with ref := 0, type := .none }) ∨
    ((s.ftable f).ref = 1 ∧ (s.ftable f).type = .pipe ∧
      (s.setFile f { s.ftable f with ref := 0, type := .none }).pipeclose (s.ftable f).pipe
        (s.ftable f).writable = .ok s') := by
  unfold fileclose at hc
  dsimp only at hc
  split at hc
  · cases hc
  · split at hc
    · cases hc; exact .inl ⟨by omega, rfl⟩
    · split at hc
      · exact .inr (.inr ⟨by omega, ‹_›, hc⟩)
      · cases hc; exact .inr (.inl ⟨by omega, ‹_›, rfl⟩)

/-! ## The ledger through the primitives -/

theorem Ledger.filealloc (hl : s.Ledger h) (ha : s.filealloc = some (f, s')) : s'.Ledger (h + Pi.single f 1) := by
  obtain ⟨h0, rfl⟩ := filealloc_eq_some ha
  exact hl.setFile _ 1 (by simp [h0])

theorem Ledger.filedup (hl : s.Ledger h) (hd : s.filedup f = .ok s') : s'.Ledger (h + Pi.single f 1) := by
  obtain ⟨-, rfl⟩ := filedup_eq_ok hd
  exact hl.setFile _ 1 (by simp)

theorem Ledger.fdalloc (hl : s.Ledger h) (ha : s.fdalloc p f = some (fd, s')) : s'.Ledger (h - Pi.single f 1) := by
  obtain ⟨hfd, rfl⟩ := fdalloc_eq_some ha
  exact hl.place hfd

theorem Ledger.fileclose (hl : s.Ledger h) (hc : s.fileclose f = .ok s') : s'.Ledger (h - Pi.single f 1) := by
  rw [sub_eq_add_neg, ← Pi.single_neg]
  rcases fileclose_eq_ok hc with ⟨h1, rfl⟩ | ⟨h1, -, rfl⟩ | ⟨h1, -, hp⟩
  · exact hl.setFile _ (-1) (by simp; omega)
  · exact hl.setFile _ (-1) (by simp [h1])
  · obtain ⟨hft, hpr, -⟩ := pipeclose_eq_ok hp
    exact (hl.setFile _ (-1) (by simp [h1])).congr _ hft hpr

end FdSys

/-! ## Pipes as the file table calls for them -/

/-- What a file is to the pipes: for a live pipe file, its page and whether it reads and
writes. -/
def pipeView (x : OpenFile) : Option (ℕ × Bool × Bool) :=
  if 0 < x.ref ∧ x.type = .pipe then some (x.pipe, x.readable, x.writable) else none

/-- Whether a live file is the write end (`w`) or the read end of the pipe on page `pa`. -/
def hasEnd (ft : Fin NFILE → OpenFile) (pa : ℕ) (w : Bool) : Bool :=
  (List.finRange NFILE).any fun f => pipeView (ft f) = some (pa, !w, w)

/-- The pipe table the file table calls for: a pipe on each page that a live file is an
end of, open at the ends that are. -/
def pipeOf (ft : Fin NFILE → OpenFile) (pa : ℕ) : Option PipeEnds :=
  if hasEnd ft pa false || hasEnd ft pa true then some ⟨hasEnd ft pa false, hasEnd ft pa true⟩ else none

/-- What the file table and the pipes keep between the primitives: a free file is
`FD_NONE`, a pipe file is one end, each end has one file, and the pipe table is the one the
file table calls for. -/
structure PipeInv (ft : Fin NFILE → OpenFile) (pipes : ℕ → Option PipeEnds) : Prop where
  free_none : ∀ f, (ft f).ref = 0 → (ft f).type = .none
  one_way : ∀ f pa r w, pipeView (ft f) = some (pa, r, w) → r = !w
  end_unique : ∀ f g pa r w, pipeView (ft f) = some (pa, r, w) → pipeView (ft g) = some (pa, r, w) → f = g
  pipes_eq : pipes = pipeOf ft

variable {ft : Fin NFILE → OpenFile} {pipes : ℕ → Option PipeEnds} {f g : Fin NFILE} {x y : OpenFile}
  {pa : ℕ} {w : Bool}

theorem pipeView_eq_some {v : ℕ × Bool × Bool} :
    pipeView x = some v ↔ 0 < x.ref ∧ x.type = .pipe ∧ (x.pipe, x.readable, x.writable) = v := by
  unfold pipeView
  split_ifs with h
  · simp [h]
  · simp only [false_iff]
    exact fun ⟨h1, h2, _⟩ => h ⟨h1, h2⟩

theorem pipeView_of_type (h : x.type ≠ .pipe) : pipeView x = none := by
  simp [pipeView, h]

theorem hasEnd_iff : hasEnd ft pa w = true ↔ ∃ f, pipeView (ft f) = some (pa, !w, w) := by
  simp [hasEnd]

theorem hasEnd_update_of_ne (hx : pipeView x ≠ some (pa, !w, w)) (hf : pipeView (ft f) ≠ some (pa, !w, w)) :
    hasEnd (Function.update ft f x) pa w = hasEnd ft pa w := by
  rw [Bool.eq_iff_iff, hasEnd_iff, hasEnd_iff]
  constructor
  · rintro ⟨g, hg⟩
    by_cases hgf : g = f
    · subst hgf; simp at hg; exact absurd hg hx
    · exact ⟨g, by simpa [Function.update_of_ne hgf] using hg⟩
  · rintro ⟨g, hg⟩
    by_cases hgf : g = f
    · subst hgf; exact absurd hg hf
    · exact ⟨g, by simpa [Function.update_of_ne hgf] using hg⟩

theorem pipeView_update_eq (hx : pipeView x = pipeView (ft f)) (g : Fin NFILE) :
    pipeView (Function.update ft f x g) = pipeView (ft g) := by
  by_cases hgf : g = f
  · subst hgf; simp [hx]
  · simp [Function.update_of_ne hgf]

theorem view_of_update_none (hxv : pipeView x = none) {v : ℕ × Bool × Bool}
    (hg : pipeView (Function.update ft f x g) = some v) : g ≠ f ∧ pipeView (ft g) = some v := by
  by_cases hgf : g = f
  · subst hgf; simp [hxv] at hg
  · rw [Function.update_of_ne hgf] at hg; exact ⟨hgf, hg⟩

theorem pipeOf_update (hx : pipeView x = pipeView (ft f)) : pipeOf (Function.update ft f x) = pipeOf ft := by
  have he : ∀ pa w, hasEnd (Function.update ft f x) pa w = hasEnd ft pa w := by
    intro pa w
    rw [Bool.eq_iff_iff, hasEnd_iff, hasEnd_iff]
    exact exists_congr fun g => by rw [pipeView_update_eq hx]
  funext pa
  simp only [pipeOf, he]

namespace PipeInv

theorem free_none_update (hp : PipeInv ft pipes) (hfree : x.ref = 0 → x.type = .none) (g : Fin NFILE)
    (hg : (Function.update ft f x g).ref = 0) : (Function.update ft f x g).type = .none := by
  by_cases hgf : g = f
  · subst hgf; simp at hg ⊢; exact hfree hg
  · simp [Function.update_of_ne hgf] at hg ⊢; exact hp.free_none g hg

theorem update (hp : PipeInv ft pipes) (hx : pipeView x = pipeView (ft f)) (hfree : x.ref = 0 → x.type = .none) :
    PipeInv (Function.update ft f x) pipes := by
  have hv := pipeView_update_eq hx
  refine ⟨hp.free_none_update hfree, fun g pa r w hg => hp.one_way g pa r w (hv g ▸ hg),
    fun g g' pa r w hg hg' => hp.end_unique g g' pa r w (hv g ▸ hg) (hv g' ▸ hg'), ?_⟩
  rw [pipeOf_update hx]; exact hp.pipes_eq

theorem pipeView_eq (hp : PipeInv ft pipes) (h : pipeView (ft f) = some (pa, r, w)) :
    pipeView (ft f) = some (pa, !w, w) := by
  rw [h, hp.one_way f pa r w h]

/-- The last reference of the end `f` of the pipe on `pa` goes: its end closes, and the
pipe is freed when the other end is closed too, as `pipeclose` does. -/
theorem closeEnd (hp : PipeInv ft pipes) (hf : pipeView (ft f) = some (pa, !w, w))
    (hx : x.ref = 0 ∧ x.type = .none) :
    pipes pa = some ⟨hasEnd ft pa false, hasEnd ft pa true⟩ ∧
    PipeInv (Function.update ft f x) (Function.update pipes pa
      (let e : PipeEnds := if w then { readopen := hasEnd ft pa false, writeopen := false }
        else { readopen := false, writeopen := hasEnd ft pa true }
       if e.readopen = false ∧ e.writeopen = false then none else some e)) := by
  have hxv : pipeView x = none := pipeView_of_type (by rw [hx.2]; nofun)
  have hend : hasEnd ft pa w = true := hasEnd_iff.mpr ⟨f, hf⟩
  -- the other files keep their views; `f`'s end is gone, and no other file was that end
  have hgone : hasEnd (Function.update ft f x) pa w = false := by
    rw [Bool.eq_false_iff, ne_eq, hasEnd_iff]
    rintro ⟨g, hg⟩
    obtain ⟨hgf, hg⟩ := view_of_update_none hxv hg
    exact hgf (hp.end_unique g f pa _ _ hg hf)
  have hkeep : ∀ pa' w', (pa', w') ≠ (pa, w) → hasEnd (Function.update ft f x) pa' w' = hasEnd ft pa' w' := by
    intro pa' w' hne
    refine hasEnd_update_of_ne (by rw [hxv]; nofun) ?_
    rw [hf]; intro h; simp only [Option.some.injEq, Prod.mk.injEq] at h
    exact hne (by rw [h.1, h.2.2])
  have hpa : pipes pa = some ⟨hasEnd ft pa false, hasEnd ft pa true⟩ := by
    rw [hp.pipes_eq, pipeOf]
    cases w <;> simp [hend]
  refine ⟨hpa, hp.free_none_update (fun _ => hx.2), ?_, ?_, ?_⟩
  · intro g pa' r' w' hg
    exact hp.one_way g pa' r' w' (view_of_update_none hxv hg).2
  · intro g g' pa' r' w' hg hg'
    exact hp.end_unique g g' pa' r' w' (view_of_update_none hxv hg).2 (view_of_update_none hxv hg').2
  · funext pa'
    by_cases hpa' : pa' = pa
    · subst hpa'
      have hother := hkeep pa' (!w) (by simp)
      cases w
      · simp only [Bool.not_false] at hother
        simp [pipeOf, hgone, hother, Function.update_self]
        cases hasEnd ft pa' true <;> simp
      · simp only [Bool.not_true] at hother
        simp [pipeOf, hgone, hother, Function.update_self]
        cases hasEnd ft pa' false <;> simp
    · rw [Function.update_of_ne hpa', hp.pipes_eq, pipeOf, pipeOf,
        hkeep pa' false (by simp [hpa']), hkeep pa' true (by simp [hpa'])]

theorem readable_eq (hp : PipeInv ft pipes) (h0 : 0 < (ft f).ref) (ht : (ft f).type = .pipe) :
    (ft f).readable = !(ft f).writable :=
  hp.one_way f _ _ _ (pipeView_eq_some.mpr ⟨h0, ht, rfl⟩)

theorem hasEnd_iff_live (hp : PipeInv ft pipes) :
    hasEnd ft pa w = true ↔ ∃ f, 0 < (ft f).ref ∧ (ft f).type = .pipe ∧ (ft f).pipe = pa ∧ (ft f).writable = w := by
  rw [hasEnd_iff]
  refine exists_congr fun f => ⟨fun hf => ?_, fun ⟨h0, ht, hpa, hw⟩ => ?_⟩
  · obtain ⟨h0, ht, he⟩ := pipeView_eq_some.mp hf
    simp only [Prod.mk.injEq] at he
    exact ⟨h0, ht, he.1, he.2.2⟩
  · rw [pipeView_eq_some, hp.readable_eq h0 ht, hpa, hw]
    exact ⟨h0, ht, rfl⟩

theorem no_end (hp : PipeInv ft pipes) (hfresh : pipes pa = none) (g : Fin NFILE) (r w : Bool) :
    pipeView (ft g) ≠ some (pa, r, w) := by
  intro hg
  have hw : hasEnd ft pa w = true := hasEnd_iff.mpr ⟨g, hp.pipeView_eq hg⟩
  rw [hp.pipes_eq, pipeOf] at hfresh
  cases w <;> simp [hw] at hfresh

theorem newPipe {f0 f1 : Fin NFILE} {y0 y1 : OpenFile} (hp : PipeInv ft pipes) (hfresh : pipes pa = none)
    (h01 : f0 ≠ f1) (hn0 : pipeView (ft f0) = none) (hn1 : pipeView (ft f1) = none)
    (hy0 : pipeView y0 = some (pa, true, false)) (hy1 : pipeView y1 = some (pa, false, true))
    (hr0 : y0.ref ≠ 0) (hr1 : y1.ref ≠ 0) :
    PipeInv (Function.update (Function.update ft f0 y0) f1 y1) (Function.update pipes pa (some ⟨true, true⟩)) := by
  set ft' := Function.update (Function.update ft f0 y0) f1 y1
  have hv : ∀ g, g ≠ f0 → g ≠ f1 → ft' g = ft g := fun g h0 h1 => by
    simp [ft', Function.update_of_ne h0, Function.update_of_ne h1]
  have hv0 : ft' f0 = y0 := by simp [ft', Function.update_of_ne h01]
  have hv1 : ft' f1 = y1 := by simp [ft']
  -- a file of the new table that is an end: one of the two, or an old end on another page
  have hcases : ∀ g v, pipeView (ft' g) = some v → (g = f0 ∧ v = (pa, true, false)) ∨
      (g = f1 ∧ v = (pa, false, true)) ∨ (g ≠ f0 ∧ g ≠ f1 ∧ pipeView (ft g) = some v ∧ v.1 ≠ pa) := by
    intro g v hg
    by_cases h0 : g = f0
    · subst h0; rw [hv0, hy0, Option.some.injEq] at hg; exact .inl ⟨rfl, hg.symm⟩
    by_cases h1 : g = f1
    · subst h1; rw [hv1, hy1, Option.some.injEq] at hg; exact .inr (.inl ⟨rfl, hg.symm⟩)
    rw [hv g h0 h1] at hg
    refine .inr (.inr ⟨h0, h1, hg, fun hpa => hp.no_end hfresh g v.2.1 v.2.2 ?_⟩)
    rw [hg, ← hpa]
  refine ⟨fun g hg => ?_, fun g pa' r w hg => ?_, fun g g' pa' r w hg hg' => ?_, ?_⟩
  · by_cases h0 : g = f0
    · subst h0; rw [hv0] at hg; exact absurd hg hr0
    by_cases h1 : g = f1
    · subst h1; rw [hv1] at hg; exact absurd hg hr1
    rw [hv g h0 h1] at hg ⊢; exact hp.free_none g hg
  · rcases hcases g _ hg with ⟨-, he⟩ | ⟨-, he⟩ | ⟨-, -, hold, -⟩
    · simp only [Prod.mk.injEq] at he; rw [he.2.1, he.2.2]; rfl
    · simp only [Prod.mk.injEq] at he; rw [he.2.1, he.2.2]; rfl
    · exact hp.one_way g pa' r w hold
  · rcases hcases g _ hg with ⟨rfl, he⟩ | ⟨rfl, he⟩ | ⟨h0, h1, hold, hpa⟩ <;>
      rcases hcases g' _ hg' with ⟨rfl, he'⟩ | ⟨rfl, he'⟩ | ⟨h0', h1', hold', hpa'⟩
    all_goals first
      | rfl
      | (rw [he] at he'; simp at he')
      | (rw [he] at hpa'; exact absurd rfl hpa')
      | (rw [he'] at hpa; exact absurd rfl hpa)
      | exact hp.end_unique g g' pa' r w hold hold'
  · funext pa'
    have hkeep : ∀ w, pa' ≠ pa → hasEnd ft' pa' w = hasEnd ft pa' w := by
      intro w hpa
      have hne : ∀ y, (pipeView y = none ∨ ∃ r w', pipeView y = some (pa, r, w')) →
          pipeView y ≠ some (pa', !w, w) := by
        rintro y (hy | ⟨r, w', hy⟩) <;> rw [hy] <;> simp [Ne.symm hpa]
      rw [hasEnd_update_of_ne, hasEnd_update_of_ne] <;> first
        | exact hne _ (.inl hn0)
        | exact hne _ (.inr ⟨_, _, hy0⟩)
        | exact hne _ (.inr ⟨_, _, hy1⟩)
        | (rw [Function.update_of_ne (Ne.symm h01)]; exact hne _ (.inl hn1))
    by_cases hpa : pa' = pa
    · subst hpa
      have he0 : hasEnd ft' pa' false = true := hasEnd_iff.mpr ⟨f0, by rw [hv0, hy0]; rfl⟩
      have he1 : hasEnd ft' pa' true = true := hasEnd_iff.mpr ⟨f1, by rw [hv1, hy1]; rfl⟩
      simp [pipeOf, he0, he1]
    · rw [Function.update_of_ne hpa, hp.pipes_eq, pipeOf, pipeOf, hkeep false hpa, hkeep true hpa]

end PipeInv

namespace FdSys

variable {s s' : FdSys} {f : Fin NFILE} {p : Fin NPROC}

/-- The pipe invariant of a system. -/
abbrev Pipes (s : FdSys) : Prop := PipeInv s.ftable s.pipes

theorem Pipes.filealloc (hp : s.Pipes) (ha : s.filealloc = some (f, s')) : s'.Pipes := by
  obtain ⟨h0, rfl⟩ := filealloc_eq_some ha
  have hn : (s.ftable f).type = .none := hp.free_none f h0
  exact hp.update (by rw [pipeView_of_type (by rw [hn]; nofun), pipeView_of_type (by rw [hn]; nofun)]) nofun

theorem Pipes.filedup (hp : s.Pipes) (hd : s.filedup f = .ok s') : s'.Pipes := by
  obtain ⟨h0, rfl⟩ := filedup_eq_ok hd
  exact hp.update (by simp [pipeView, h0]) (by simp)

theorem fileclose_procs (hc : s.fileclose f = .ok s') : s'.procs = s.procs := by
  rcases fileclose_eq_ok hc with ⟨-, rfl⟩ | ⟨-, -, rfl⟩ | ⟨-, -, hp⟩
  · rfl
  · rfl
  · exact (pipeclose_eq_ok hp).2.1

theorem Pipes.fileclose (hp : s.Pipes) (hc : s.fileclose f = .ok s') : s'.Pipes := by
  rcases fileclose_eq_ok hc with ⟨h1, rfl⟩ | ⟨h1, hty, rfl⟩ | ⟨h1, hty, hpc⟩
  · exact hp.update (by simp [pipeView, show 0 < (s.ftable f).ref by omega, show 0 < (s.ftable f).ref - 1 by omega])
      (by simp; omega)
  · exact hp.update (by rw [pipeView_of_type (by simp), pipeView_of_type hty]) (fun _ => rfl)
  · -- the last reference of a pipe end: `pipeclose` closes that end
    obtain ⟨hft, -, e, he, hpipes⟩ := pipeclose_eq_ok hpc
    have hview : pipeView (s.ftable f) = some ((s.ftable f).pipe, !(s.ftable f).writable, (s.ftable f).writable) :=
      hp.pipeView_eq (pipeView_eq_some.mpr ⟨by omega, hty, rfl⟩)
    obtain ⟨hpa, hinv⟩ := hp.closeEnd hview (x := { s.ftable f with ref := 0, type := .none }) ⟨rfl, rfl⟩
    rw [setFile_pipes, hpa, Option.some.injEq] at he
    subst he
    show PipeInv s'.ftable s'.pipes
    rw [hft, hpipes]
    exact hinv

/-! ## Between calls -/

/-- A process that is not live holds no descriptor. -/
def Idle (s : FdSys) : Prop := ∀ q fd, (s.procs q).live = false → (s.procs q).ofile fd = none

/-- What holds between calls: no reference is held outside the descriptors, the pipes are
the ones the file table calls for, and a process that is not live holds no descriptor. -/
structure FdInv (s : FdSys) : Prop where
  ledger : s.Ledger 0
  pipes : s.Pipes
  idle : s.Idle

variable {h : Fin NFILE → ℤ} {fd : Fin NOFILE}

theorem Ledger.setState (hl : s.Ledger h) (st : Procstate) : (s.setState p st).Ledger h := by
  intro g
  rw [setState_ftable, nrefs_setState]
  exact hl g

theorem Ledger.of_eq {h' : Fin NFILE → ℤ} (hl : s.Ledger h) (hh : h = h') : s.Ledger h' := hh ▸ hl

theorem setOfile_live (x : Option (Fin NFILE)) (q : Fin NPROC) :
    ((s.setOfile p fd x).procs q).live = (s.procs q).live := by
  simp only [FdProc.live, setOfile_state]

theorem Idle.setOfile (hi : s.Idle) (hp : (s.procs p).live = true) (fd : Fin NOFILE) (x : Option (Fin NFILE)) :
    (s.setOfile p fd x).Idle := by
  intro q j hq
  rw [setOfile_live] at hq
  have hqp : q ≠ p := by rintro rfl; rw [hp] at hq; cases hq
  rw [setOfile_procs_of_ne x hqp]
  exact hi q j hq

theorem Idle.congr (hi : s.Idle) (h : s'.procs = s.procs) : s'.Idle := by
  intro q j hq
  rw [h] at hq ⊢
  exact hi q j hq

theorem argfd_eq_some {n : ℕ} (h : s.argfd p n = some (fd, f)) : (s.procs p).ofile fd = some f := by
  unfold argfd at h
  split at h
  · simp only [Option.map_eq_some_iff, Prod.mk.injEq] at h
    obtain ⟨f', hf', rfl, rfl⟩ := h
    exact hf'
  · cases h

theorem FdInv.sysClose {n : ℕ} (hi : s.FdInv) (hp : (s.procs p).live = true) (h : s.sysClose p n = .ok s') :
    s'.FdInv := by
  unfold FdSys.sysClose at h
  split at h
  · cases h; exact hi
  · rename_i fd f hfd
    have hslot := argfd_eq_some hfd
    exact ⟨((hi.ledger.clear hslot).fileclose h).of_eq (by simp), Pipes.fileclose (s := s.setOfile p fd none) hi.pipes h,
      (hi.idle.setOfile hp _ none).congr (fileclose_procs h)⟩

theorem FdInv.sysDup {n : ℕ} (hi : s.FdInv) (hp : (s.procs p).live = true) (h : s.sysDup p n = .ok s') :
    s'.FdInv := by
  unfold FdSys.sysDup at h
  rcases hfd : s.argfd p n with _ | ⟨fd0, f⟩ <;> simp only [hfd] at h
  · cases h; exact hi
  · rcases ha : s.fdalloc p f with _ | ⟨fd, s1⟩ <;> simp only [ha] at h
    · cases h; exact hi
    · obtain ⟨hfree, rfl⟩ := fdalloc_eq_some ha
      obtain ⟨-, hs'⟩ := filedup_eq_ok h
      exact ⟨((hi.ledger.place hfree).filedup h).of_eq (by simp), Pipes.filedup (s := s.setOfile p fd (some f)) hi.pipes h,
        (hi.idle.setOfile hp _ _).congr (by rw [hs']; rfl)⟩

theorem FdInv.openFile {ip : Fin NINODE} {dev : Bool} {omode : ℕ} (hi : s.FdInv) (hp : (s.procs p).live = true)
    (h : s.openFile p ip dev omode = .ok s') : s'.FdInv := by
  unfold FdSys.openFile at h
  split at h
  · cases h; exact hi
  · rename_i f s1 ha
    have hl1 := hi.ledger.filealloc ha
    have hp1 := hi.pipes.filealloc ha
    obtain ⟨h0, rfl⟩ := filealloc_eq_some ha
    split at h
    · -- no descriptor free: the file is closed again
      exact ⟨(hl1.fileclose h).of_eq (by simp), hp1.fileclose h, hi.idle.congr ((fileclose_procs h).trans rfl)⟩
    · rename_i fd s2 hfa
      obtain ⟨hfree, rfl⟩ := fdalloc_eq_some hfa
      cases h
      have hnone : (s.ftable f).type = .none := hi.pipes.free_none f h0
      refine ⟨((hl1.place hfree).setFile _ 0 (by simp)).of_eq (by simp), ?_, (hi.idle.setOfile hp _ _).congr rfl⟩
      refine PipeInv.update hp1 ?_ (by simp)
      rw [pipeView_of_type (by split <;> simp), pipeView_of_type (by simp [hnone])]

/-- The references `pipealloc` hands to its caller: one on each end of the new pipe. -/
def pipeHeld : Option (Fin NFILE × Fin NFILE) → Fin NFILE → ℤ
  | none => 0
  | some (rf, wf) => Pi.single rf 1 + Pi.single wf 1

theorem pipealloc_spec {pa : Option ℕ} {r : Option (Fin NFILE × Fin NFILE)} (hl : s.Ledger 0) (hp : s.Pipes)
    (hfree : s.freePage pa = true) (h : s.pipealloc pa = .ok (r, s')) :
    s'.Ledger (pipeHeld r) ∧ s'.Pipes ∧ s'.procs = s.procs := by
  unfold FdSys.pipealloc at h
  rcases ha0 : s.filealloc with _ | ⟨f0, s1⟩ <;> simp only [ha0] at h
  · cases h; exact ⟨hl, hp, rfl⟩
  have hl1 := hl.filealloc ha0
  have hp1 := hp.filealloc ha0
  obtain ⟨h0, hs1⟩ := filealloc_eq_some ha0
  have hpr1 : s1.procs = s.procs := by rw [hs1]; rfl
  rcases ha1 : s1.filealloc with _ | ⟨f1, s2⟩ <;> simp only [ha1] at h
  · -- no second file: the first is closed again
    obtain ⟨s3, hc, hret⟩ := bind_eq_ok.mp h
    cases hret
    exact ⟨(hl1.fileclose hc).of_eq (by simp [pipeHeld]), hp1.fileclose hc, (fileclose_procs hc).trans hpr1⟩
  have hl2 := hl1.filealloc ha1
  have hp2 := hp1.filealloc ha1
  obtain ⟨h1, hs2⟩ := filealloc_eq_some ha1
  have hpr2 : s2.procs = s.procs := by rw [hs2]; exact hpr1
  rcases pa with _ | pa <;> simp only at h
  · -- no page for the pipe: both files are closed again
    obtain ⟨s3, hc0, h⟩ := bind_eq_ok.mp h
    obtain ⟨s4, hc1, hret⟩ := bind_eq_ok.mp h
    cases hret
    exact ⟨((hl2.fileclose hc0).fileclose hc1).of_eq (by simp [pipeHeld]), (hp2.fileclose hc0).fileclose hc1,
      ((fileclose_procs hc1).trans (fileclose_procs hc0)).trans hpr2⟩
  cases h
  have h01 : f0 ≠ f1 := by
    rintro rfl; rw [hs1] at h1; simp at h1
  have hf0 : s2.ftable f0 = { s.ftable f0 with ref := 1 } := by
    rw [hs2, hs1]; simp [Function.update_of_ne h01]
  have hf1 : s2.ftable f1 = { s1.ftable f1 with ref := 1 } := by rw [hs2]; simp
  have hn0 : (s.ftable f0).type = .none := hp.free_none f0 h0
  have hn1 : (s1.ftable f1).type = .none := hp1.free_none f1 h1
  have hfresh : s2.pipes pa = none := by
    rw [hs2, hs1]; simpa [freePage] using hfree
  refine ⟨?_, PipeInv.newPipe hp2 hfresh h01 ?_ ?_ ?_ ?_ ?_ ?_, hpr2⟩
  · refine ((((hl2.congr { s2 with pipes := Function.update s2.pipes pa (some ⟨true, true⟩) } rfl rfl).setFile
      _ 0 (by simp)).setFile _ 0 (by simp [Function.update_of_ne (Ne.symm h01)]))).of_eq ?_
    simp [pipeHeld]
  · rw [pipeView_of_type (by simp [hf0, hn0])]
  · rw [pipeView_of_type (by simp [hf1, hn1])]
  · simp [pipeView, hf0]
  · simp [pipeView, Function.update_of_ne (Ne.symm h01), hf1]
  · simp [hf0]
  · simp [Function.update_of_ne (Ne.symm h01), hf1]

theorem undo_spec {rf wf : Fin NFILE} (hl : s.Ledger h) (hp : s.Pipes)
    (hu : (do let s ← s.fileclose rf; s.fileclose wf) = .ok s') :
    s'.Ledger (h - Pi.single rf 1 - Pi.single wf 1) ∧ s'.Pipes ∧ s'.procs = s.procs := by
  obtain ⟨s1, hc0, hc1⟩ := bind_eq_ok.mp hu
  exact ⟨(hl.fileclose hc0).fileclose hc1, (hp.fileclose hc0).fileclose hc1,
    (fileclose_procs hc1).trans (fileclose_procs hc0)⟩

theorem FdInv.sysPipe {pa : Option ℕ} {copyout : Bool} (hi : s.FdInv) (hp : (s.procs p).live = true)
    (hfree : s.freePage pa = true) (h : s.sysPipe p pa copyout = .ok s') : s'.FdInv := by
  unfold FdSys.sysPipe at h
  obtain ⟨⟨r, s1⟩, ha, h⟩ := bind_eq_ok.mp h
  obtain ⟨hl1, hp1, hpr1⟩ := pipealloc_spec hi.ledger hi.pipes hfree ha
  have hid1 : s1.Idle := hi.idle.congr hpr1
  have hlive1 : (s1.procs p).live = true := by rw [hpr1]; exact hp
  rcases r with _ | ⟨rf, wf⟩
  · cases h; exact ⟨hl1, hp1, hid1⟩
  simp only at h
  rcases hfa0 : s1.fdalloc p rf with _ | ⟨fd0, s2⟩ <;> simp only [hfa0] at h
  · -- no descriptor for the read end
    obtain ⟨hl, hpi, hpr⟩ := undo_spec hl1 hp1 h
    exact ⟨hl.of_eq (by simp [pipeHeld]), hpi, hid1.congr hpr⟩
  obtain ⟨hfree0, rfl⟩ := fdalloc_eq_some hfa0
  have hl2 := hl1.place (f := rf) hfree0
  have hid2 := hid1.setOfile hlive1 fd0 (some rf)
  have hlive2 : ((s1.setOfile p fd0 (some rf)).procs p).live = true := by rw [setOfile_live]; exact hlive1
  rcases hfa1 : (s1.setOfile p fd0 (some rf)).fdalloc p wf with _ | ⟨fd1, s3⟩ <;> simp only [hfa1] at h
  · -- no descriptor for the write end: the read end's descriptor is cleared first
    obtain ⟨hl, hpi, hpr⟩ := undo_spec (hl2.clear (setOfile_ofile_self _)) hp1 h
    exact ⟨hl.of_eq (by simp [pipeHeld]), hpi, (hid2.setOfile hlive2 _ none).congr hpr⟩
  obtain ⟨hfree1, rfl⟩ := fdalloc_eq_some hfa1
  have h10 : fd1 ≠ fd0 := by rintro rfl; simp at hfree1
  have hl3 := hl2.place (f := wf) hfree1
  have hid3 := hid2.setOfile hlive2 fd1 (some wf)
  cases copyout
  · -- the descriptors did not reach user memory: both are cleared and both ends closed
    simp only [Bool.false_eq_true, if_false] at h
    have hs0 : (((s1.setOfile p fd0 (some rf)).setOfile p fd1 (some wf)).procs p).ofile fd0 = some rf := by
      rw [setOfile_ofile_of_ne _ (Ne.symm h10), setOfile_ofile_self]
    have hs1 : ((((s1.setOfile p fd0 (some rf)).setOfile p fd1 (some wf)).setOfile p fd0 none).procs p).ofile fd1 =
        some wf := by
      rw [setOfile_ofile_of_ne _ h10, setOfile_ofile_self]
    obtain ⟨hl, hpi, hpr⟩ := undo_spec ((hl3.clear hs0).clear hs1) hp1 h
    refine ⟨hl.of_eq (by simp [pipeHeld]), hpi, Idle.congr ?_ hpr⟩
    exact (hid3.setOfile (by rw [setOfile_live]; exact hlive2) _ none).setOfile
      (by rw [setOfile_live, setOfile_live]; exact hlive2) _ none
  · simp only [if_true] at h
    cases h
    exact ⟨hl3.of_eq (by simp [pipeHeld]), hp1, hid3⟩

/-- `fork`'s loop over the descriptors: each file the parent holds gets one more reference,
held by the child's descriptor of the same number. -/
theorem forkLoop {c : Fin NPROC} (hcp : c ≠ p) :
    ∀ (l : List (Fin NOFILE)) {s s' : FdSys}, l.Nodup → s.Ledger 0 → s.Pipes →
      (∀ i ∈ l, (s.procs c).ofile i = none) → l.foldlM (forkFile p c) s = .ok s' →
      s'.Ledger 0 ∧ s'.Pipes ∧ (∀ q, q ≠ c → s'.procs q = s.procs q) ∧ (s'.procs c).state = (s.procs c).state
  | [], _, _, _, hl, hp, _, h => by cases h; exact ⟨hl, hp, fun _ _ => rfl, rfl⟩
  | i :: l, s, s', hnd, hl, hp, hc, h => by
    rw [List.foldlM_cons] at h
    obtain ⟨s1, h1, h⟩ := bind_eq_ok.mp h
    obtain ⟨hil, hnd⟩ := List.nodup_cons.mp hnd
    have hround : s1.Ledger 0 ∧ s1.Pipes ∧ (∀ q, q ≠ c → s1.procs q = s.procs q) ∧
        (s1.procs c).state = (s.procs c).state ∧ ∀ j ∈ l, (s1.procs c).ofile j = none := by
      unfold forkFile at h1
      rcases hpf : (s.procs p).ofile i with _ | f <;> simp only [hpf] at h1
      · cases h1; exact ⟨hl, hp, fun _ _ => rfl, rfl, fun j hj => hc j (List.mem_cons_of_mem _ hj)⟩
      obtain ⟨s2, hd, hret⟩ := bind_eq_ok.mp h1
      cases hret
      have hl2 := hl.filedup hd
      have hp2 := hp.filedup hd
      obtain ⟨-, rfl⟩ := filedup_eq_ok hd
      refine ⟨(hl2.place (f := f) (hc i List.mem_cons_self)).of_eq (by simp), hp2,
        fun q hq => setOfile_procs_of_ne _ hq, by simp, fun j hj => ?_⟩
      rw [setOfile_ofile_of_ne _ (fun hji : j = i => hil (hji ▸ hj))]
      exact hc j (List.mem_cons_of_mem _ hj)
    obtain ⟨hl1, hp1, hpr1, hst1, hc1⟩ := hround
    obtain ⟨hl', hp', hpr', hst'⟩ := forkLoop hcp l hnd hl1 hp1 hc1 h
    exact ⟨hl', hp', fun q hq => (hpr' q hq).trans (hpr1 q hq), hst'.trans hst1⟩

theorem exitLoop :
    ∀ (l : List (Fin NOFILE)) {s s' : FdSys}, s.Ledger 0 → s.Pipes → l.foldlM (exitFile p) s = .ok s' →
      s'.Ledger 0 ∧ s'.Pipes ∧ (∀ q, q ≠ p → s'.procs q = s.procs q) ∧ (s'.procs p).state = (s.procs p).state ∧
      (∀ j, (s.procs p).ofile j = none → (s'.procs p).ofile j = none) ∧ ∀ j ∈ l, (s'.procs p).ofile j = none
  | [], _, _, hl, hp, h => by cases h; exact ⟨hl, hp, fun _ _ => rfl, rfl, fun _ h => h, nofun⟩
  | i :: l, s, s', hl, hp, h => by
    rw [List.foldlM_cons] at h
    obtain ⟨s1, h1, h⟩ := bind_eq_ok.mp h
    have hround : s1.Ledger 0 ∧ s1.Pipes ∧ (∀ q, q ≠ p → s1.procs q = s.procs q) ∧
        (s1.procs p).state = (s.procs p).state ∧
        (∀ j, (s.procs p).ofile j = none → (s1.procs p).ofile j = none) ∧ (s1.procs p).ofile i = none := by
      unfold exitFile at h1
      rcases hpf : (s.procs p).ofile i with _ | f <;> simp only [hpf] at h1
      · cases h1; exact ⟨hl, hp, fun _ _ => rfl, rfl, fun _ h => h, hpf⟩
      obtain ⟨s2, hc, hret⟩ := bind_eq_ok.mp h1
      cases hret
      have hpr2 := fileclose_procs hc
      have hslot : (s2.procs p).ofile i = some f := by rw [hpr2]; exact hpf
      refine ⟨((hl.fileclose hc).clear hslot).of_eq (by simp), (show s2.Pipes from hp.fileclose hc),
        fun q hq => (setOfile_procs_of_ne _ hq).trans (by rw [hpr2]), by simp [hpr2], fun j hj => ?_, by simp⟩
      by_cases hji : j = i
      · subst hji; simp
      · rw [setOfile_ofile_of_ne _ hji, hpr2]; exact hj
    obtain ⟨hl1, hp1, hpr1, hst1, hkeep1, hi1⟩ := hround
    obtain ⟨hl', hp', hpr', hst', hkeep', hall'⟩ := exitLoop l hl1 hp1 h
    refine ⟨hl', hp', fun q hq => (hpr' q hq).trans (hpr1 q hq), hst'.trans hst1,
      fun j hj => hkeep' j (hkeep1 j hj), fun j hj => ?_⟩
    rcases List.mem_cons.mp hj with rfl | hj
    · exact hkeep' j hi1
    · exact hall' j hj

theorem allocproc_unused {c : Fin NPROC} (h : s.allocproc = some c) : (s.procs c).state = .unused := by
  simpa using List.find?_some h

theorem FdInv.fork {ok : Bool} (hi : s.FdInv) (hp : (s.procs p).live = true) (h : s.fork p ok = .ok s') :
    s'.FdInv := by
  unfold FdSys.fork at h
  rcases hc : s.allocproc with _ | c <;> simp only [hc] at h
  · cases h; exact hi
  cases ok
  · cases h; exact hi
  obtain ⟨s1, hloop, hret⟩ := bind_eq_ok.mp h
  cases hret
  have hcl : (s.procs c).live = false := by simp [FdProc.live, allocproc_unused hc]
  have hcp : c ≠ p := by rintro rfl; rw [hp] at hcl; cases hcl
  obtain ⟨hl, hpi, hpr, -⟩ :=
    forkLoop hcp _ (List.nodup_finRange _) hi.ledger hi.pipes (fun i _ => hi.idle c i hcl) hloop
  refine ⟨hl.setState _, hpi, fun q j hq => ?_⟩
  by_cases hqc : q = c
  · subst hqc; simp [FdProc.live, setState_state] at hq
  · rw [setState_procs_of_ne _ hqc, hpr q hqc] at hq ⊢
    exact hi.idle q j hq

theorem FdInv.exit (hi : s.FdInv) (h : s.exit p = .ok s') : s'.FdInv := by
  unfold FdSys.exit at h
  split at h
  · cases h
  obtain ⟨s1, hloop, hret⟩ := bind_eq_ok.mp h
  cases hret
  obtain ⟨hl, hpi, hpr, -, -, hall⟩ := exitLoop _ hi.ledger hi.pipes hloop
  refine ⟨hl.setState _, hpi, fun q j hq => ?_⟩
  by_cases hqp : q = p
  · subst hqp; rw [setState_ofile]; exact hall j (List.mem_finRange j)
  · rw [setState_procs_of_ne _ hqp, hpr q hqp] at hq ⊢
    exact hi.idle q j hq

theorem FdInv.free {c : Fin NPROC} (hi : s.FdInv) (hz : (s.procs c).state = .zombie) :
    (s.setState c .unused).FdInv := by
  refine ⟨hi.ledger.setState _, hi.pipes, fun q j hq => ?_⟩
  rw [setState_ofile]
  by_cases hqc : q = c
  · subst hqc; exact hi.idle q j (by simp [FdProc.live, hz])
  · rw [setState_procs_of_ne _ hqc] at hq; exact hi.idle q j hq

theorem call_eq_some {r : Except String FdSys} {x : Except String FdSys} (h : s.call p r = some x) :
    (s.procs p).live = true ∧ r = x := by
  unfold call at h
  split at h
  · cases h; exact ⟨‹_›, rfl⟩
  · cases h

end FdSys

open FdSys

theorem fdNext_inv {s s' : FdSys} {e : FdEvent} (hi : s.FdInv) (h : fdNext s e = some s') : s'.FdInv := by
  have hs : fdStep s e = some (.ok s') := by
    unfold fdNext at h
    split at h
    · cases h; assumption
    · cases h
  cases e with
  | «open» p ip omode =>
    obtain ⟨hp, hr⟩ := call_eq_some hs
    cases ip with
    | none => cases hr; exact hi
    | some x => exact hi.openFile hp hr
  | dup p fd => obtain ⟨hp, hr⟩ := call_eq_some hs; exact hi.sysDup hp hr
  | close p fd => obtain ⟨hp, hr⟩ := call_eq_some hs; exact hi.sysClose hp hr
  | pipe p pa copyout =>
    simp only [fdStep] at hs
    split at hs
    · obtain ⟨hp, hr⟩ := call_eq_some hs; exact hi.sysPipe hp ‹_› hr
    · cases hs
  | fork p ok => obtain ⟨hp, hr⟩ := call_eq_some hs; exact hi.fork hp hr
  | exit p => obtain ⟨-, hr⟩ := call_eq_some hs; exact hi.exit hr
  | free c =>
    simp only [fdStep] at hs
    split at hs
    · cases hs; exact hi.free ‹_›
    · cases hs

theorem fdInv_boot : fdBoot.FdInv := by
  have hnone : ∀ f, fdBoot.nrefs f = 0 := fun f => nrefs_eq_zero.mpr fun _ _ => nofun
  refine ⟨fun f => by rw [hnone, Pi.zero_apply]; rfl, ⟨fun _ _ => rfl, fun _ _ _ _ h => by simp [pipeView, fdBoot] at h,
    fun _ _ _ _ _ h => by simp [pipeView, fdBoot] at h, ?_⟩, fun _ _ _ => rfl⟩
  funext pa
  simp [pipeOf, hasEnd, pipeView, fdBoot]

theorem fdInv_reachable {s : FdSys} (hs : Run.Reachable fdNext fdBoot s) : s.FdInv :=
  Run.Reachable.induction fdInv_boot (fun _ _ _ hi h => fdNext_inv hi h) hs

/-- `pipe` on page 4096, `fork`, and the parent's `close(0)`. -/
def pipeForkClose : List FdEvent := [.pipe 0 (some 4096) true, .fork 0 true, .close 0 0]

end Xv6
