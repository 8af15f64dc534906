import Mathlib.Data.List.DropRight
import Xv6.Spec.Path

/-! Path names. The elements of a path are its nonempty pieces between slashes, and
`skipelem` hands them out in order, each as `name` holds it: its first `DIRSIZ` bytes,
NUL-terminated when shorter. `namex` is thus a walk over that list of names from the root
or from `cwd`, which stops at a non-directory or a missing name, and for `nameiparent` at
the directory that should hold the last name. -/

namespace Xv6

/-- The elements of a path: its nonempty `'/'`-separated pieces, in order. -/
def pathElems (path : List UInt8) : List (List UInt8) := (path.splitOn SLASH).filter (· ≠ [])

/-- An element as `skipelem` copies it into `name`. -/
def elemName (e : List UInt8) : List UInt8 := if DIRSIZ ≤ e.length then e.take DIRSIZ else e ++ [0]

/-- `skipelem` called until it returns `0`, at most `fuel` times: the names it copied, or
`none` when the fuel runs out first. -/
def skipelems : ℕ → List UInt8 → Option (List (List UInt8))
  | 0, _ => none
  | fuel + 1, path =>
    match skipelem path with
    | none => some []
    | some (name, rest) => (skipelems fuel rest).map (name :: ·)

/-- `namex`'s loop over a list of names instead of a path, one name a round. -/
def walkNames (nameiparent : Bool) : Fs → Fin NINODE → List (List UInt8) →
    Except String (Option (Fin NINODE) × List UInt8 × Fs)
  | s, ip, [] =>
    if nameiparent then do
      let s ← iput s ip
      return (none, [], s)
    else return (some ip, [], s)
  | s, ip, name :: names => do
    let s ← ilock s ip
    if (s.itable ip).dinode.type ≠ T_DIR then do
      let s ← iunlockput s ip
      return (none, name, s)
    else if nameiparent ∧ names = [] then do
      let s ← iunlock s ip
      return (some ip, name, s)
    else do
      let (next, s) ← dirlookup s ip (fun j => name.getD j 0)
      match next with
      | none => do
        let s ← iunlockput s ip
        return (none, name, s)
      | some (next, _) => do
        let s ← iunlockput s ip
        walkNames nameiparent s next names

/-! ## The elements of a path -/

@[simp] theorem pathElems_nil : pathElems [] = [] := rfl

@[simp] theorem pathElems_slash (path : List UInt8) : pathElems (SLASH :: path) = pathElems path := by
  simp [pathElems, List.splitOn_cons_eq_if_modifyHead]

theorem pathElems_dropWhile (path : List UInt8) : pathElems (path.dropWhile (· == SLASH)) = pathElems path := by
  induction path with
  | nil => rfl
  | cons x path ih =>
    by_cases hx : x = SLASH
    · subst hx
      simpa using ih
    · simp [hx]

theorem pathElems_elem {e : List UInt8} (he : SLASH ∉ e) (hne : e ≠ []) (rest : List UInt8) :
    pathElems (e ++ SLASH :: rest) = e :: pathElems rest := by
  simp [pathElems, List.splitOn_append_cons_self_of_not_mem he, hne]

theorem pathElems_last {e : List UInt8} (he : SLASH ∉ e) (hne : e ≠ []) : pathElems e = [e] := by
  simp [pathElems, List.splitOn_eq_singleton he, hne]

theorem pathElems_cons {x : UInt8} (hx : x ≠ SLASH) (path : List UInt8) :
    pathElems (x :: path) = (x :: path).takeWhile (· != SLASH) ::
      pathElems (((x :: path).dropWhile (· != SLASH)).dropWhile (· == SLASH)) := by
  have he : SLASH ∉ (x :: path).takeWhile (· != SLASH) := fun h => by
    simpa using List.mem_takeWhile_imp h
  have hne : (x :: path).takeWhile (· != SLASH) ≠ [] := by simp [hx]
  rw [pathElems_dropWhile]
  conv_lhs => rw [← List.takeWhile_append_dropWhile (p := (· != SLASH)) (l := x :: path)]
  cases hd : (x :: path).dropWhile (· != SLASH) with
  | nil => simp [pathElems_last he hne]
  | cons y r =>
    have hy : y = SLASH := by
      simpa [hd] using List.head_dropWhile_not (· != SLASH) (l := x :: path) (by simp [hd])
    subst hy
    simp [pathElems_elem he hne]

theorem pathElems_eq_nil_iff {path : List UInt8} : pathElems path = [] ↔ path.dropWhile (· == SLASH) = [] := by
  rw [← pathElems_dropWhile]
  cases hq : path.dropWhile (· == SLASH) with
  | nil => simp
  | cons x r =>
    have hx : x ≠ SLASH := by
      simpa [hq] using List.head_dropWhile_not (· == SLASH) (l := path) (by simp [hq])
    simp [pathElems_cons hx]

/-! ## `skipelem` -/

/-- `skipelem` returns `0` exactly for a path without elements; otherwise it copies the first
element and returns a shorter path that holds the others and starts with none of the
slashes, so that it is empty exactly when no element is left. -/
theorem skipelem_spec (path : List UInt8) :
    (skipelem path = none ∧ pathElems path = []) ∨
      ∃ e rest, skipelem path = some (elemName e, rest) ∧ pathElems path = e :: pathElems rest ∧
        rest.length < path.length ∧ (rest = [] ↔ pathElems rest = []) := by
  cases hq : path.dropWhile (· == SLASH) with
  | nil =>
    left
    exact ⟨by simp [skipelem, hq], pathElems_eq_nil_iff.mpr hq⟩
  | cons x r =>
    right
    have hx : x ≠ SLASH := by
      simpa [hq] using List.head_dropWhile_not (· == SLASH) (l := path) (by simp [hq])
    refine ⟨(x :: r).takeWhile (· != SLASH), ((x :: r).dropWhile (· != SLASH)).dropWhile (· == SLASH),
      by simp [skipelem, hq, elemName], ?_, ?_, ?_⟩
    · rw [← pathElems_dropWhile, hq, pathElems_cons hx]
    · rw [List.dropWhile_cons_of_pos (by simpa using hx)]
      have h₁ := List.length_dropWhile_le (· == SLASH) (r.dropWhile (· != SLASH))
      have h₂ := List.length_dropWhile_le (· != SLASH) r
      have h₃ := List.length_dropWhile_le (· == SLASH) path
      simp only [hq, List.length_cons] at h₃
      omega
    · rw [pathElems_eq_nil_iff, List.dropWhile_idempotent]

/-- `skipelem` called until it returns `0` stops within one call more than the path has
bytes, having copied the path's elements in order. -/
theorem skipelems_eq (fuel : ℕ) (path : List UInt8) (h : path.length < fuel) :
    skipelems fuel path = some ((pathElems path).map elemName) := by
  induction fuel generalizing path with
  | zero => omega
  | succ fuel ih =>
    rcases skipelem_spec path with ⟨hs, he⟩ | ⟨e, rest, hs, he, hlen, -⟩
    · simp [skipelems, hs, he]
    · simp [skipelems, hs, he, ih rest (by omega)]

/-- `"//a//"` has the one element `"a"`. -/
example : skipelems 6 [47, 47, 97, 47, 47] = some [[97, 0]] := by decide

/-! ## `namex` -/

theorem namexLoop_eq (b : Bool) (fuel : ℕ) (s : Fs) (ip : Fin NINODE) (path : List UInt8)
    (h : path.length < fuel) :
    namexLoop b fuel s ip path = walkNames b s ip ((pathElems path).map elemName) := by
  induction fuel generalizing s ip path with
  | zero => omega
  | succ fuel ih =>
    rcases skipelem_spec path with ⟨hs, he⟩ | ⟨e, rest, hs, he, hlen, hnil⟩
    · cases b <;> simp [namexLoop, namexStep, hs, he, walkNames]
    · rw [he, List.map_cons, walkNames, namexLoop, namexStep, hs]
      have hc : (b = true ∧ rest = []) ↔ (b = true ∧ (pathElems rest).map elemName = []) := by
        rw [List.map_eq_nil_iff, hnil]
      simp only [bind_assoc, hc]
      refine bind_congr fun s₁ => ?_
      split_ifs
      · simp
      · simp
      · simp only [bind_assoc]
        refine bind_congr fun r => ?_
        obtain ⟨_ | ⟨next, off⟩, s₂⟩ := r
        · simp
        · simp [ih _ _ rest (by omega)]

theorem namex_eq (s : Fs) (cwd : Fin NINODE) (path : List UInt8) (b : Bool) :
    namex s cwd path b =
      namexStart s cwd path >>= fun (ip, s) => walkNames b s ip ((pathElems path).map elemName) := by
  rw [namex]
  exact bind_congr fun ⟨ip, s⟩ => namexLoop_eq b _ s ip path (by omega)

/-- `nameiparent`'s walk is `namei`'s over all names but the last, and then one round at
the directory reached, which must be a directory and is returned with the last name. -/
theorem walkNames_parent (s : Fs) (ip : Fin NINODE) (init : List (List UInt8)) (last : List UInt8) :
    walkNames true s ip (init ++ [last]) = do
      let (r, name, s) ← walkNames false s ip init
      match r with
      | none => return (none, name, s)
      | some dp => do
        let s ← ilock s dp
        if (s.itable dp).dinode.type ≠ T_DIR then do
          let s ← iunlockput s dp
          return (none, last, s)
        else do
          let s ← iunlock s dp
          return (some dp, last, s) := by
  induction init generalizing s ip with
  | nil => simp [walkNames]
  | cons name init ih =>
    simp only [List.cons_append, walkNames, bind_assoc, Bool.false_eq_true, false_and,
      List.append_eq_nil_iff, List.cons_ne_nil, and_false, if_false]
    refine bind_congr fun s₁ => ?_
    split_ifs
    · simp
    · simp only [bind_assoc]
      refine bind_congr fun ⟨next, s₂⟩ => ?_
      rcases next with _ | ⟨next, off⟩
      · simp
      · simp [ih]

theorem namex_pathElems (path : List UInt8) :
    skipelems (path.length + 1) path = some ((pathElems path).map elemName) ∧
    (∀ s cwd, namei s cwd path = (do
      let (ip, s) ← namexStart s cwd path
      let (r, _, s) ← walkNames false s ip ((pathElems path).map elemName)
      return (r, s))) ∧
    (∀ s cwd, nameiparent s cwd path = (do
      let (ip, s) ← namexStart s cwd path
      match (pathElems path).getLast? with
      | none => do
        let s ← iput s ip
        return (none, [], s)
      | some last => do
        let (r, name, s) ← walkNames false s ip ((pathElems path).dropLast.map elemName)
        match r with
        | none => return (none, name, s)
        | some dp => do
          let s ← ilock s dp
          if (s.itable dp).dinode.type ≠ T_DIR then do
            let s ← iunlockput s dp
            return (none, elemName last, s)
          else do
            let s ← iunlock s dp
            return (some dp, elemName last, s))) := by
  refine ⟨skipelems_eq _ path (by omega), fun s cwd => ?_, fun s cwd => ?_⟩
  · rw [namei, namex_eq, bind_assoc]
  · rw [nameiparent, namex_eq]
    refine bind_congr fun ⟨ip, s⟩ => ?_
    rcases List.eq_nil_or_concat (pathElems path) with he | ⟨init, last, he⟩
    · simp [he, walkNames]
    · rw [List.concat_eq_append] at he
      simp only [he, List.getLast?_concat, List.dropLast_concat, List.map_append, List.map_cons,
        List.map_nil, walkNames_parent]

end Xv6
