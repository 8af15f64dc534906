import Xv6.Proofs.Copy

/-! The initial user stack `exec` builds. The strings go down from `sz`, each with its NUL
at the 16-byte-aligned address below the one before (`argPlaces`), and the `argv[]` array
below the last of them (`arrayPlace`). `exec` checks the stack pointer against `stackbase`
after each push and copies each piece with `copyout`; the phase fails exactly when the
array's place is below the stack page, and otherwise the page holds every string and the
array, and `a1` holds `sp`.

The page is the one `uvmalloc` mapped: its frame is a page of its own, holding none of the
PTEs that map it and not the trapframe. Every `copyout` of the phase writes inside that
frame, so every later walk still finds it. -/

namespace Xv6

open ByteMem

/-! ## Writes inside one frame -/

/-- `m'` differs from `m` only inside the page at `pa`. -/
def SameOutside (m m' : Phys) (pa : ℕ) : Prop := ∀ x, x < pa ∨ pa + PGSIZE ≤ x → m'.mem x = m.mem x

theorem SameOutside.refl (m : Phys) (pa : ℕ) : SameOutside m m pa := fun _ _ => rfl

theorem SameOutside.memmove {m m' : Phys} {pa a : ℕ} {bs : List UInt8} (h : SameOutside m m' pa)
    (hlo : pa ≤ a) (hhi : a + bs.length ≤ pa + PGSIZE) : SameOutside m (m'.memmove a bs) pa := by
  intro x hx
  rw [← h x hx]
  rcases hx with hx | hx
  · exact writeBytes_of_lt (by omega)
  · exact writeBytes_of_le (by omega)

theorem walkaddr_sameOutside {m m' : Phys} {pagetable va pa : ℕ}
    (hptes : ∀ a ∈ walkPtes m pagetable va, a + 8 ≤ pa ∨ pa + PGSIZE ≤ a) (h : SameOutside m m' pa) :
    walkaddr m' pagetable va = walkaddr m pagetable va :=
  walkaddr_congr fun a ha i hi => h _ (by rcases hptes a ha with h' | h' <;> omega)

/-! ## Where the strings and the array go -/

theorem alignDown16_le (sp : ℕ) : alignDown16 sp ≤ sp := Nat.sub_le _ _

theorem alignDown16_mod (sp : ℕ) : alignDown16 sp % 16 = 0 := by
  unfold alignDown16; omega

/-- Where `exec` puts the strings below `top`: each with its NUL at the 16-byte-aligned
address just below the one before. -/
def argPlaces : ℕ → List (List UInt8) → List ℕ
  | _, [] => []
  | top, a :: as => alignDown16 (top - (a.length + 1)) :: argPlaces (alignDown16 (top - (a.length + 1))) as

/-- The last of those places, or `top` for no strings: the stack pointer after them. -/
def argsBottom : ℕ → List (List UInt8) → ℕ
  | top, [] => top
  | top, a :: as => argsBottom (alignDown16 (top - (a.length + 1))) as

/-- Where the array of `argc + 1` pointers goes. -/
def arrayPlace (sz : ℕ) (argv : List (List UInt8)) : ℕ :=
  alignDown16 (argsBottom sz argv - (argv.length + 1) * 8)

@[simp] theorem length_argPlaces (top : ℕ) (argv : List (List UInt8)) :
    (argPlaces top argv).length = argv.length := by
  induction argv generalizing top with
  | nil => rfl
  | cons a argv ih => simp [argPlaces, ih]

theorem argsBottom_le (top : ℕ) (argv : List (List UInt8)) : argsBottom top argv ≤ top := by
  induction argv generalizing top with
  | nil => exact le_rfl
  | cons a argv ih =>
    exact (ih _).trans ((alignDown16_le _).trans (Nat.sub_le _ _))

/-- Each string lies below the one before and above the last place, on a 16-byte boundary,
when the last place is above `0`. -/
theorem argPlaces_layout (top : ℕ) (argv : List (List UInt8)) (hpos : 0 < argsBottom top argv) :
    (∀ p a, (p, a) ∈ (argPlaces top argv).zip argv →
      argsBottom top argv ≤ p ∧ p + (a.length + 1) ≤ top ∧ p % 16 = 0) ∧
    ((argPlaces top argv).zip argv).Pairwise fun x y => y.1 + (y.2.length + 1) ≤ x.1 := by
  induction argv generalizing top with
  | nil => simp [argPlaces]
  | cons a argv ih =>
    set p := alignDown16 (top - (a.length + 1))
    have hb : argsBottom p argv ≤ p := argsBottom_le p argv
    -- the place of `a` is above `0`, so the subtraction did not stop at `0`
    have hp : p + (a.length + 1) ≤ top := by
      have := alignDown16_le (top - (a.length + 1))
      have : 0 < p := lt_of_lt_of_le hpos hb
      omega
    obtain ⟨hmem, hpair⟩ := ih p hpos
    simp only [argPlaces, argsBottom, List.zip_cons_cons, List.mem_cons, Prod.mk.injEq,
      List.pairwise_cons]
    refine ⟨?_, fun y hy => ?_, hpair⟩
    · rintro q b (⟨rfl, rfl⟩ | hq)
      · exact ⟨hb, hp, alignDown16_mod _⟩
      · obtain ⟨h1, h2, h3⟩ := hmem q b hq
        exact ⟨h1, by omega, h3⟩
    · exact (hmem y.1 y.2 hy).2.1

section Push

variable {m₀ : Phys} {pagetable stackbase pa : ℕ}
  (hpa : walkaddr m₀ pagetable stackbase = .ok pa) (hpa0 : pa ≠ 0)
  (hptes : ∀ a ∈ walkPtes m₀ pagetable stackbase, a + 8 ≤ pa ∨ pa + PGSIZE ≤ a)
  (hbase : stackbase % PGSIZE = 0) (hpos : 0 < stackbase)
include hpa hpa0 hptes hbase

theorem copyout_stack {m : Phys} (hm : SameOutside m₀ m pa) {sp : ℕ} {bs : List UInt8}
    (hlo : stackbase ≤ sp) (hhi : sp + bs.length ≤ stackbase + PGSIZE) (hbs : bs ≠ []) :
    copyout m pagetable sp bs = .ok (0, m.memmove (pa + (sp - stackbase)) bs) := by
  have hoff : sp % PGSIZE = sp - stackbase := by
    have : bs.length ≠ 0 := by simpa using hbs
    simp only [PGSIZE] at *; omega
  have hpage : PGROUNDDOWN sp = stackbase := by
    rw [← sub_PGROUNDDOWN] at hoff
    have := PGROUNDDOWN_le sp
    omega
  rw [← hoff]
  exact copyout_page (by rw [hpage, walkaddr_sameOutside hptes hm, hpa]) hpa0 (by omega)

include hpos in
/-- The loop pushes the strings at their places as long as they stay in the stack page; it
writes only inside the frame and below `sp`. -/
theorem pushArgs_spec : ∀ (argv : List (List UInt8)) (argc sp : ℕ) (ustack : List ℕ) (m : Phys),
    SameOutside m₀ m pa → stackbase ≤ sp → sp ≤ stackbase + PGSIZE → argc + argv.length < MAXARG →
    ∃ r m', pushArgs pagetable stackbase argv argc sp ustack m = .ok (r, m') ∧
      SameOutside m₀ m' pa ∧ (∀ x, pa + (sp - stackbase) ≤ x → m'.mem x = m.mem x) ∧
      (r = none ↔ argsBottom sp argv < stackbase) ∧
      ∀ sp' ust, r = some (sp', ust) → sp' = argsBottom sp argv ∧ ust = ustack ++ argPlaces sp argv ∧
        ∀ p a, (p, a) ∈ (argPlaces sp argv).zip argv →
          readBytes m'.mem (pa + (p - stackbase)) (a.length + 1) = a ++ [0]
  | [], _, sp, ustack, m, hm, hlo, _, _ => by
    refine ⟨_, m, rfl, hm, fun _ _ => rfl, ?_, ?_⟩
    · simp [argsBottom, Nat.not_lt.mpr hlo]
    · rintro sp' ust ⟨⟩
      simp [argsBottom, argPlaces]
  | a :: argv, argc, sp, ustack, m, hm, hlo, hhi, hargc => by
    simp only [List.length_cons] at hargc
    simp only [pushArgs, if_neg (show ¬ MAXARG ≤ argc by omega)]
    set p := alignDown16 (sp - (a.length + 1))
    by_cases hp : p < stackbase
    · -- the string does not fit: `goto bad`
      rw [if_pos hp]
      refine ⟨none, m, rfl, hm, fun _ _ => rfl, iff_of_true rfl ?_, by simp⟩
      exact lt_of_le_of_lt (argsBottom_le p argv) hp
    rw [if_neg hp]
    have hfit : p + (a.length + 1) ≤ sp := by
      have := alignDown16_le (sp - (a.length + 1))
      omega
    have hlen : (a ++ [0]).length = a.length + 1 := by simp
    rw [copyout_stack hpa hpa0 hptes hbase hm (Nat.not_lt.mp hp) (by omega) (by simp)]
    simp only [Except.ok_bind, show ¬ (0 : ℤ) < 0 from lt_irrefl 0, if_false]
    have hm₁ : SameOutside m₀ (m.memmove (pa + (p - stackbase)) (a ++ [0])) pa :=
      hm.memmove (by omega) (by omega)
    obtain ⟨r, m', hrun, hm', habove, hiff, hsome⟩ :=
      pushArgs_spec argv (argc + 1) p (ustack ++ [p]) _ hm₁ (Nat.not_lt.mp hp) (by omega) (by omega)
    -- what the later pushes leave alone: everything from `p` up
    have hkeep : ∀ x, pa + (p - stackbase) ≤ x →
        m'.mem x = (m.memmove (pa + (p - stackbase)) (a ++ [0])).mem x := habove
    refine ⟨r, m', hrun, hm', fun x hx => ?_, hiff, fun sp' ust hr => ?_⟩
    · rw [hkeep x (by omega)]
      exact writeBytes_of_le (by omega)
    obtain ⟨h1, h2, h3⟩ := hsome sp' ust hr
    refine ⟨h1, by rw [h2, List.append_assoc]; rfl, ?_⟩
    simp only [argPlaces, List.zip_cons_cons, List.mem_cons, Prod.mk.injEq]
    rintro q b (⟨hq, hb⟩ | hq)
    · rw [hq, hb, readBytes_congr fun i hi => hkeep _ (by omega)]
      have h := readBytes_writeBytes (m := m.mem) (pa + (p - stackbase)) (a ++ [0])
      rwa [hlen] at h
    · exact h3 q b hq

end Push

/-! ## The stack phase -/

/-- The stack page as `exec` has it after `uvmalloc` and `uvmclear`: `[sz - PGSIZE, sz)`
is a mapped user page whose frame `pa` is a page of its own. The frame holds none of the
PTEs that map the page, and the trapframe's `a1` is neither in the frame nor one of those
PTEs. -/
structure StackPage (m : Phys) (pagetable sz trapframe pa : ℕ) : Prop where
  aligned : sz % PGSIZE = 0
  guard : 2 * PGSIZE ≤ sz
  mapped : walkaddr m pagetable (sz - PGSIZE) = .ok pa
  frame_ne : pa ≠ 0
  ptes : ∀ a ∈ walkPtes m pagetable (sz - PGSIZE), a + 8 ≤ pa ∨ pa + PGSIZE ≤ a
  a1_frame : trapframe + TRAPFRAME_A1 + 8 ≤ pa ∨ pa + PGSIZE ≤ trapframe + TRAPFRAME_A1
  a1_ptes : ∀ a ∈ walkPtes m pagetable (sz - PGSIZE),
    a + 8 ≤ trapframe + TRAPFRAME_A1 ∨ trapframe + TRAPFRAME_A1 + 8 ≤ a

/-- What the stack phase leaves when it returns `argc` and `sp`: every string with its NUL
at its place, on a 16-byte boundary inside the page and above the array, the strings
pairwise apart, the array of their addresses and a 0 at `sp`, and `sp` in `a1`. -/
structure StackImage (m : Phys) (pagetable sz trapframe : ℕ) (argv : List (List UInt8))
    (argc sp : ℕ) : Prop where
  argc_eq : argc = argv.length
  sp_eq : sp = arrayPlace sz argv
  sp_aligned : sp % 16 = 0
  in_page : sz - PGSIZE ≤ sp
  strings : ∀ p a, (p, a) ∈ (argPlaces sz argv).zip argv →
    sp + (argc + 1) * 8 ≤ p ∧ p + (a.length + 1) ≤ sz ∧ p % 16 = 0 ∧
      ∀ j ≤ a.length, uread m pagetable (p + j) = some ((a ++ [0]).getD j 0)
  disjoint : ((argPlaces sz argv).zip argv).Pairwise fun x y => y.1 + (y.2.length + 1) ≤ x.1
  array : ∀ j < (argc + 1) * 8,
    uread m pagetable (sp + j) = some (((argPlaces sz argv ++ [0]).flatMap (leBytes 8)).getD j 0)
  a1 : readWord m.mem (trapframe + TRAPFRAME_A1) 8 = sp

theorem length_arrayBytes (sz : ℕ) (argv : List (List UInt8)) :
    ((argPlaces sz argv ++ [0]).flatMap (leBytes 8)).length = (argv.length + 1) * 8 := by
  simp only [length_flatMap_leBytes, List.length_append, length_argPlaces, List.length_singleton]
  ring

theorem arrayPlace_add_le {sz : ℕ} {argv : List (List UInt8)} (hpos : 0 < arrayPlace sz argv) :
    arrayPlace sz argv + (argv.length + 1) * 8 ≤ argsBottom sz argv := by
  have : arrayPlace sz argv ≤ argsBottom sz argv - (argv.length + 1) * 8 := alignDown16_le _
  omega

/-- The end of the stack phase: the array copied to its place below the strings and its
address stored into `a1` leave the image. -/
theorem stackImage_of_array {m m₁ : Phys} {pagetable sz trapframe pa : ℕ} {argv : List (List UInt8)}
    (hs : StackPage m pagetable sz trapframe pa) (hm₁ : SameOutside m m₁ pa)
    (hstr : ∀ p a, (p, a) ∈ (argPlaces sz argv).zip argv →
      readBytes m₁.mem (pa + (p - (sz - PGSIZE))) (a.length + 1) = a ++ [0])
    (hq : sz - PGSIZE ≤ arrayPlace sz argv) :
    StackImage ((m₁.memmove (pa + (arrayPlace sz argv - (sz - PGSIZE)))
        ((argPlaces sz argv ++ [0]).flatMap (leBytes 8))).store (trapframe + TRAPFRAME_A1)
        (arrayPlace sz argv))
      pagetable sz trapframe argv argv.length (arrayPlace sz argv) := by
  obtain ⟨hal, hguard, hpa, hpa0, hptes, htf, htfp⟩ := hs
  have hbase : (sz - PGSIZE) % PGSIZE = 0 := by simp only [PGSIZE] at *; omega
  have hbot := arrayPlace_add_le (show 0 < arrayPlace sz argv by simp only [PGSIZE] at *; omega)
  have htop := argsBottom_le sz argv
  have hblen := length_arrayBytes sz argv
  set q := arrayPlace sz argv
  generalize hbytes : (argPlaces sz argv ++ [0]).flatMap (leBytes 8) = bytes at hblen ⊢
  set A := pa + (q - (sz - PGSIZE))
  set T := trapframe + TRAPFRAME_A1
  have hm₂ : SameOutside m (m₁.memmove A bytes) pa := hm₁.memmove (by omega) (by omega)
  -- the a1 store is outside the frame and the PTEs, so the page is still mapped to `pa`
  have hwalk : walkaddr ((m₁.memmove A bytes).store T q) pagetable (sz - PGSIZE) = .ok pa := by
    rw [walkaddr_congr fun a ha i hi => ?_, hpa]
    rw [← hm₂ _ (by rcases hptes a ha with h' | h' <;> omega), Phys.mem_store]
    exact writeWord_of_not_mem (by rcases htfp a ha with h' | h' <;> omega)
  have hpage : PGROUNDDOWN (sz - PGSIZE) = sz - PGSIZE := by
    simp only [PGROUNDDOWN, PGSIZE] at *; omega
  have hu : ∀ k < PGSIZE, uread ((m₁.memmove A bytes).store T q) pagetable (sz - PGSIZE + k) =
      some (writeBytes m₁.mem A bytes (pa + k)) := by
    intro k hk
    rw [uread_of_walkaddr (by rw [hpage]; exact hwalk) hpa0 (by rw [hbase]; omega), hbase,
      Nat.zero_add, Phys.mem_store, writeWord_of_not_mem (by omega), Phys.mem_memmove]
  have hpos' : 0 < argsBottom sz argv := by omega
  obtain ⟨hplaces, hpair⟩ := argPlaces_layout sz argv hpos'
  refine ⟨rfl, rfl, alignDown16_mod _, hq, fun p a hpa' => ?_, hpair, fun j hj => ?_, ?_⟩
  · -- a string: the array's copy went below it
    obtain ⟨hb, hp, h16⟩ := hplaces p a hpa'
    refine ⟨by omega, hp, h16, fun j hj => ?_⟩
    have hk : p - (sz - PGSIZE) + j < PGSIZE := by omega
    have h2 : writeBytes m₁.mem A bytes (pa + (p - (sz - PGSIZE) + j)) =
        m₁.mem (pa + (p - (sz - PGSIZE) + j)) := writeBytes_of_le (by rw [hblen]; omega)
    rw [show p + j = sz - PGSIZE + (p - (sz - PGSIZE) + j) by omega, hu _ hk, h2, ← hstr p a hpa',
      getD_readBytes (by omega), Nat.add_assoc]
  · -- the array
    have h2 : writeBytes m₁.mem A bytes (A + j) = bytes.getD j 0 := writeBytes_add (by omega)
    rw [show q + j = sz - PGSIZE + (q - (sz - PGSIZE) + j) by omega, hu _ (by omega),
      ← Nat.add_assoc, h2, hbytes]
  · -- `a1`: `q` is below `MAXVA`, so the 64-bit store keeps it whole
    have hmax : sz - PGSIZE < MAXVA := by
      by_contra hle
      rw [walkaddr_of_le (Nat.le_of_not_lt hle)] at hpa
      exact hpa0 (Except.ok.inj hpa).symm
    rw [Phys.mem_store, readWord_writeWord]
    exact Nat.mod_eq_of_lt (by simp only [MAXVA, PGSIZE] at *; omega)
theorem execStack_layout (m : Phys) (pagetable sz trapframe pa : ℕ) (argv : List (List UInt8))
    (hargv : argv.length < MAXARG) (hs : StackPage m pagetable sz trapframe pa) :
    ∃ r m', execStack m pagetable sz trapframe argv = .ok (r, m') ∧
      (r = none ↔ arrayPlace sz argv < sz - PGSIZE) ∧
      ∀ argc sp, r = some (argc, sp) → StackImage m' pagetable sz trapframe argv argc sp := by
  have hbase : (sz - PGSIZE) % PGSIZE = 0 := by have := hs.aligned; simp only [PGSIZE] at *; omega
  have hpos : 0 < sz - PGSIZE := by have := hs.guard; simp only [PGSIZE] at *; omega
  obtain ⟨r, m₁, hrun, hm₁, -, hiff, hsome⟩ := pushArgs_spec hs.mapped hs.frame_ne hs.ptes hbase hpos
    argv 0 sz [] m (SameOutside.refl m pa) (by omega) (by omega) (by omega)
  dsimp only [execStack]
  rw [hrun, Except.ok_bind]
  cases r with
  | none =>
    -- a string already fell below the page, and the array would go lower still
    refine ⟨none, m₁, rfl, iff_of_true rfl ?_, by simp⟩
    exact lt_of_le_of_lt ((alignDown16_le _).trans (Nat.sub_le _ _)) (hiff.mp rfl)
  | some res =>
    obtain ⟨sp₁, ust⟩ := res
    obtain ⟨rfl, hust, hstr⟩ := hsome sp₁ ust rfl
    rw [List.nil_append] at hust
    subst hust
    simp only [length_argPlaces]
    rw [show alignDown16 (argsBottom sz argv - (argv.length + 1) * 8) = arrayPlace sz argv from rfl]
    by_cases hq : arrayPlace sz argv < sz - PGSIZE
    · -- the array does not fit: `goto bad`
      rw [if_pos hq]
      exact ⟨none, m₁, rfl, iff_of_true rfl hq, by simp⟩
    rw [if_neg hq]
    -- the array lies below the strings, inside the page
    have hbot := arrayPlace_add_le (show 0 < arrayPlace sz argv by omega)
    have htop := argsBottom_le sz argv
    have hblen := length_arrayBytes sz argv
    rw [copyout_stack hs.mapped hs.frame_ne hs.ptes hbase hm₁ (Nat.not_lt.mp hq) (by omega)
      (List.ne_nil_of_length_pos (by omega))]
    simp only [Except.ok_bind, show ¬ (0 : ℤ) < 0 from lt_irrefl 0, if_false]
    refine ⟨_, _, rfl, iff_of_false (by simp) hq, fun argc sp h => ?_⟩
    obtain ⟨rfl, rfl⟩ := Prod.mk.inj (Option.some.inj h)
    exact stackImage_of_array hs hm₁ hstr (Nat.not_lt.mp hq)

/-- A process whose stack page is `[0x2000, 0x3000)`: the root table at `stackRoot`, the
two tables on the way to the page in the next pages, then the stack frame and the
trapframe. -/
def stackRoot : ℕ := 0x87f00000

def stackPhys : Phys where
  mem :=
    let pte (pa flags : ℕ) : ℕ := PA2PTE pa ||| flags
    let m := writeWord (fun _ => 0) stackRoot 8 (pte (stackRoot + PGSIZE) PTE_V)
    let m := writeWord m (stackRoot + PGSIZE) 8 (pte (stackRoot + 2 * PGSIZE) PTE_V)
    writeWord m (stackRoot + 2 * PGSIZE + 8 * 2) 8
      (pte (stackRoot + 3 * PGSIZE) (PTE_R ||| PTE_W ||| PTE_U ||| PTE_V))
  freelist := 0
  kend := KERNBASE

/-- `exec("echo", ["hi", "x"])`: the stack phase over that page either fails because the
layout does not fit, or leaves the strings and the array in place. -/
theorem execStack_layout_hi :
    ∃ r m', execStack stackPhys stackRoot 0x3000 (stackRoot + 4 * PGSIZE) [[104, 105], [120]] =
        .ok (r, m') ∧
      (r = none ↔ arrayPlace 0x3000 [[104, 105], [120]] < 0x3000 - PGSIZE) ∧
      ∀ argc sp, r = some (argc, sp) →
        StackImage m' stackRoot 0x3000 (stackRoot + 4 * PGSIZE) [[104, 105], [120]] argc sp :=
  execStack_layout stackPhys stackRoot 0x3000 (stackRoot + 4 * PGSIZE) (stackRoot + 3 * PGSIZE) _
    (by decide) ⟨by decide, by decide, by decide, by decide, by decide, by decide,
      by decide⟩

end Xv6
