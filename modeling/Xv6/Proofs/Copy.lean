import Xv6.Spec.Exec

/-! What `copyinstr` and `fetchstr` do for every page table. A user string is a run of
bytes that `uread` finds, page by page through `walkaddr`, ending at the first NUL.
`copyinstr` returns 0 exactly when such a string with its NUL fits in `max` bytes, and it
then stores exactly that string; whatever it returns, it stores at most `max` bytes. -/

namespace Xv6

open ByteMem

/-- The user bytes at `va` are `str` followed by a NUL, `str` has no NUL, and the string
with its NUL fits in `max` bytes: each of its bytes lies in a mapped user page below
`MAXVA`. -/
def UserStr (m : Phys) (pagetable va max : ℕ) (str : List UInt8) : Prop :=
  0 ∉ str ∧ str.length < max ∧
    ∀ j ≤ str.length, uread m pagetable (va + j) = some ((str ++ [0]).getD j 0)

/-! ## Walks read only their PTEs -/

/-- The addresses of the PTEs `walkaddr` reads for `va`, from level 2 down (a later one is
read only when the one before is valid). -/
def walkPtes (m : Phys) (pagetable va : ℕ) : List ℕ :=
  let a₂ := pagetable + 8 * PX 2 va
  let a₁ := PTE2PA (readWord m.mem a₂ 8) + 8 * PX 1 va
  [a₂, a₁, PTE2PA (readWord m.mem a₁ 8) + 8 * PX 0 va]

theorem load_congr {m m' : Phys} {a : ℕ} (h : ∀ i < 8, m'.mem (a + i) = m.mem (a + i)) :
    m'.load a = m.load a := by
  unfold Phys.load
  rw [readWord_congr h]

theorem load_ok {m : Phys} {a v : ℕ} (h : m.load a = .ok v) : v = readWord m.mem a 8 := by
  unfold Phys.load at h
  split_ifs at h
  cases h
  rfl

theorem walkaddr_eq {m : Phys} {pagetable va : ℕ} (hva : va < MAXVA) :
    walkaddr m pagetable va = do
      let pte₂ ← m.load (pagetable + 8 * PX 2 va)
      if pte₂ &&& PTE_V = 0 then return 0 else do
      let pte₁ ← m.load (PTE2PA pte₂ + 8 * PX 1 va)
      if pte₁ &&& PTE_V = 0 then return 0 else do
      let pte ← m.load (PTE2PA pte₁ + 8 * PX 0 va)
      if pte &&& PTE_V = 0 then return 0
      else if pte &&& PTE_U = 0 then return 0
      else return PTE2PA pte := by
  simp only [walkaddr, walk, walkLevel, Nat.not_le.mpr hva, if_false]
  cases m.load (pagetable + 8 * PX 2 va) with
  | error e => simp
  | ok pte₂ =>
    by_cases h₂ : pte₂ &&& PTE_V = 0
    · simp [h₂]
    · cases hl₁ : m.load (PTE2PA pte₂ + 8 * PX 1 va) with
      | error e => simp [h₂, hl₁]
      | ok pte₁ => by_cases h₁ : pte₁ &&& PTE_V = 0 <;> simp [h₂, h₁, hl₁]

/-- `walkaddr` looks at memory only through the PTEs of `walkPtes`. -/
theorem walkaddr_congr {m m' : Phys} {pagetable va : ℕ}
    (h : ∀ a ∈ walkPtes m pagetable va, ∀ i < 8, m'.mem (a + i) = m.mem (a + i)) :
    walkaddr m' pagetable va = walkaddr m pagetable va := by
  simp only [walkPtes, List.mem_cons, List.not_mem_nil, or_false, forall_eq_or_imp, forall_eq] at h
  obtain ⟨h₂, h₁, h₀⟩ := h
  by_cases hva : MAXVA ≤ va
  · simp [walkaddr, hva]
  rw [walkaddr_eq (Nat.lt_of_not_le hva), walkaddr_eq (Nat.lt_of_not_le hva), load_congr h₂]
  -- each level's PTE is the same word in both memories, so the next address is too
  cases hl₂ : m.load (pagetable + 8 * PX 2 va) with
  | error e => simp
  | ok pte₂ =>
    rw [← load_ok hl₂] at h₁ h₀
    simp only [Except.ok_bind]
    split_ifs
    · rfl
    rw [load_congr h₁]
    cases hl₁ : m.load (PTE2PA pte₂ + 8 * PX 1 va) with
    | error e => simp
    | ok pte₁ =>
      rw [← load_ok hl₁] at h₀
      simp only [Except.ok_bind]
      split_ifs
      · rfl
      rw [load_congr h₀]

/-! ## One page -/

theorem uread_of_walkaddr {m : Phys} {pagetable va pa j : ℕ}
    (hpa : walkaddr m pagetable (PGROUNDDOWN va) = .ok pa) (hpa0 : pa ≠ 0)
    (hj : va % PGSIZE + j < PGSIZE) :
    uread m pagetable (va + j) = some (m.mem (pa + (va % PGSIZE + j))) := by
  have hpage : PGROUNDDOWN (va + j) = PGROUNDDOWN va := PGROUNDDOWN_add hj
  have hoff : (va + j) % PGSIZE = va % PGSIZE + j := by
    simp only [PGSIZE] at *; omega
  exact uread_eq_some.mpr ⟨pa, by rw [hpage]; exact hpa, hpa0, by rw [hoff]⟩

theorem readBytes_eq_of_uread {m : Phys} {pagetable va pa : ℕ} {l : List UInt8}
    (hpa : walkaddr m pagetable (PGROUNDDOWN va) = .ok pa) (hpa0 : pa ≠ 0)
    (hfit : va % PGSIZE + l.length ≤ PGSIZE)
    (h : ∀ j < l.length, uread m pagetable (va + j) = some (l.getD j 0)) :
    readBytes m.mem (pa + va % PGSIZE) l.length = l := by
  apply List.ext_getElem (by simp)
  intro j h1 h2
  have hu := (uread_of_walkaddr hpa hpa0 (j := j) (by omega)).symm.trans (h j h2)
  rw [Option.some.injEq, List.getD_eq_getElem?_getD, List.getElem?_eq_getElem h2, Option.getD_some] at hu
  simp only [readBytes, List.getElem_map, List.getElem_range]
  rw [Nat.add_assoc, hu]

/-! ## The inner loop -/

theorem copyinstrPage_length (bs : List UInt8) : (copyinstrPage bs).2.length ≤ bs.length := by
  induction bs with
  | nil => simp [copyinstrPage]
  | cons c bs ih =>
    unfold copyinstrPage
    split_ifs <;> simp [ih]

theorem copyinstrPage_nul {str : List UInt8} (h : 0 ∉ str) (rest : List UInt8) :
    copyinstrPage (str ++ 0 :: rest) = (true, str ++ [0]) := by
  rw [copyinstrPage_append, copyinstrPage_of_ne_zero fun b hb hb0 => h (hb0 ▸ hb)]
  simp [copyinstrPage]

theorem copyinstrPage_true {bs : List UInt8} (h : (copyinstrPage bs).1 = true) :
    ∃ str rest, bs = str ++ 0 :: rest ∧ 0 ∉ str ∧ (copyinstrPage bs).2 = str ++ [0] := by
  induction bs with
  | nil => simp [copyinstrPage] at h
  | cons c bs ih =>
    by_cases hc : c = 0
    · subst hc
      exact ⟨[], bs, rfl, by simp, by simp [copyinstrPage]⟩
    · rw [copyinstrPage, if_neg hc] at h ⊢
      obtain ⟨str, rest, rfl, h0, hout⟩ := ih h
      refine ⟨c :: str, rest, rfl, ?_, by rw [hout]; rfl⟩
      simp only [List.mem_cons, not_or]
      exact ⟨Ne.symm hc, h0⟩

theorem copyinstrPage_false {bs : List UInt8} (h : (copyinstrPage bs).1 = false) :
    0 ∉ bs ∧ (copyinstrPage bs).2 = bs := by
  induction bs with
  | nil => simp [copyinstrPage]
  | cons c bs ih =>
    by_cases hc : c = 0
    · simp [copyinstrPage, hc] at h
    · rw [copyinstrPage, if_neg hc] at h ⊢
      obtain ⟨h0, hout⟩ := ih h
      simp only [List.mem_cons, not_or, hout]
      exact ⟨⟨Ne.symm hc, h0⟩, trivial⟩

/-! ## The outer loop -/

/-- One round of the outer loop at a mapped page: the bytes from `srcva` to the end of the
page or of `max`, then the next page if they held no NUL. -/
theorem copyinstrLoop_succ {m : Phys} {pagetable fuel srcva max pa : ℕ} (hmax : max ≠ 0)
    (hpa : walkaddr m pagetable (PGROUNDDOWN srcva) = .ok pa) (hpa0 : pa ≠ 0) :
    copyinstrLoop m pagetable (fuel + 1) srcva max =
      let n := min (PGSIZE - srcva % PGSIZE) max
      let c := copyinstrPage (readBytes m.mem (pa + srcva % PGSIZE) n)
      if c.1 then .ok (0, c.2)
      else (copyinstrLoop m pagetable fuel (PGROUNDDOWN srcva + PGSIZE) (max - n)).map
        fun rr => (rr.1, c.2 ++ rr.2) := by
  simp only [copyinstrLoop, hmax, if_false, hpa, Except.ok_bind, hpa0, sub_PGROUNDDOWN]
  split_ifs
  · rfl
  · cases copyinstrLoop m pagetable fuel (PGROUNDDOWN srcva + PGSIZE)
      (max - min (PGSIZE - srcva % PGSIZE) max) <;> rfl

theorem next_page {srcva max : ℕ} (h : min (PGSIZE - srcva % PGSIZE) max < max) :
    PGROUNDDOWN srcva + PGSIZE = srcva + min (PGSIZE - srcva % PGSIZE) max := by
  have hoff : srcva % PGSIZE < PGSIZE := Nat.mod_lt _ (by decide)
  simp only [PGROUNDDOWN, PGSIZE] at *
  omega

theorem getD_drop_append {l : List UInt8} {n : ℕ} (hn : n ≤ l.length) (j : ℕ) :
    (l.drop n ++ [0]).getD j 0 = (l ++ [0]).getD (n + j) 0 := by
  rw [← List.drop_append_of_le_length hn, List.getD_eq_getElem?_getD,
    List.getD_eq_getElem?_getD, List.getElem?_drop]

theorem copyinstrLoop_ok {m : Phys} {pagetable : ℕ} :
    ∀ fuel srcva max r out, copyinstrLoop m pagetable fuel srcva max = .ok (r, out) →
      (r = 0 ∨ r = -1) ∧ out.length ≤ max
  | 0, _, _, _, _, h => by
    simp only [copyinstrLoop, pure, Except.pure, Except.ok.injEq, Prod.mk.injEq] at h
    simp [← h.1, ← h.2]
  | fuel + 1, srcva, max, r, out, h => by
    by_cases hmax : max = 0
    · simp only [copyinstrLoop, hmax, if_true, pure, Except.pure, Except.ok.injEq,
        Prod.mk.injEq] at h
      simp [← h.1, ← h.2]
    cases hw : walkaddr m pagetable (PGROUNDDOWN srcva) with
    | error e => simp [copyinstrLoop, hmax, hw] at h
    | ok pa =>
      by_cases hpa0 : pa = 0
      · simp only [copyinstrLoop, hmax, if_false, hw, Except.ok_bind, hpa0, if_true, pure,
          Except.pure, Except.ok.injEq, Prod.mk.injEq] at h
        simp [← h.1, ← h.2]
      rw [copyinstrLoop_succ hmax hw hpa0] at h
      set n := min (PGSIZE - srcva % PGSIZE) max
      have hc := copyinstrPage_length (readBytes m.mem (pa + srcva % PGSIZE) n)
      rw [length_readBytes] at hc
      dsimp only at h
      split_ifs at h
      · cases h
        exact ⟨.inl rfl, by omega⟩
      · -- the rest of the string comes from the next pages, within `max - n`
        cases hr : copyinstrLoop m pagetable fuel (PGROUNDDOWN srcva + PGSIZE) (max - n) with
        | error e => rw [hr] at h; cases h
        | ok rr =>
          rw [hr] at h
          cases h
          obtain ⟨hres, hlen⟩ := copyinstrLoop_ok fuel _ _ rr.1 rr.2 hr
          refine ⟨hres, ?_⟩
          simp only [List.length_append]
          omega

theorem copyinstrLoop_of_userStr {m : Phys} {pagetable : ℕ} :
    ∀ fuel srcva max str, max ≤ fuel → UserStr m pagetable srcva max str →
      copyinstrLoop m pagetable fuel srcva max = .ok (0, str ++ [0])
  | 0, _, _, _, hf, ⟨_, hlt, _⟩ => by omega
  | fuel + 1, srcva, max, str, hf, ⟨h0, hlt, hs⟩ => by
    obtain ⟨pa, hpa, hpa0, -⟩ := uread_eq_some.mp (by simpa using hs 0 (Nat.zero_le _))
    have hoff : srcva % PGSIZE < PGSIZE := Nat.mod_lt _ (by decide)
    rw [copyinstrLoop_succ (by omega) hpa hpa0]
    set n := min (PGSIZE - srcva % PGSIZE) max with hn
    dsimp only
    by_cases hin : str.length < n
    · -- the NUL is on this page
      have hsplit : readBytes m.mem (pa + srcva % PGSIZE) n =
          str ++ 0 :: readBytes m.mem (pa + srcva % PGSIZE + (str.length + 1)) (n - (str.length + 1)) := by
        have hstr : readBytes m.mem (pa + srcva % PGSIZE) (str ++ [0]).length = str ++ [0] :=
          readBytes_eq_of_uread hpa hpa0 (by simp; omega) fun j hj => hs j (by simp at hj; omega)
        rw [show n = (str ++ [0]).length + (n - (str.length + 1)) by simp; omega, readBytes_add, hstr]
        simp
      rw [hsplit, copyinstrPage_nul h0]
      rfl
    · -- a full page of the string, then the rest from the next page on
      have hnext := @next_page srcva max (by omega)
      have hpage : readBytes m.mem (pa + srcva % PGSIZE) n = str.take n := by
        have h := readBytes_eq_of_uread hpa hpa0 (l := str.take n) (by simp; omega) fun j hj => by
          rw [hs j (by simp at hj; omega)]
          simp at hj
          simp [List.getD_eq_getElem?_getD, List.getElem?_append_left (by omega : j < str.length), hj.1]
        rwa [List.length_take, min_eq_left (by omega)] at h
      have hrest : UserStr m pagetable (PGROUNDDOWN srcva + PGSIZE) (max - n) (str.drop n) := by
        refine ⟨fun h => h0 (List.mem_of_mem_drop h), by simp; omega, fun j hj => ?_⟩
        rw [hnext, Nat.add_assoc, getD_drop_append (by omega)]
        exact hs (n + j) (by simp at hj; omega)
      have h0' : ∀ b ∈ str.take n, b ≠ 0 := fun b hb hb0 => h0 (hb0 ▸ List.mem_of_mem_take hb)
      rw [hpage, copyinstrPage_of_ne_zero h0', copyinstrLoop_of_userStr fuel _ _ _ (by omega) hrest]
      show Except.ok (0, str.take n ++ (str.drop n ++ [0])) = _
      rw [← List.append_assoc, List.take_append_drop]

theorem userStr_of_copyinstrLoop {m : Phys} {pagetable : ℕ} :
    ∀ fuel srcva max out, copyinstrLoop m pagetable fuel srcva max = .ok (0, out) →
      ∃ str, UserStr m pagetable srcva max str ∧ out = str ++ [0]
  | 0, _, _, _, h => by simp [copyinstrLoop] at h
  | fuel + 1, srcva, max, out, h => by
    by_cases hmax : max = 0
    · simp [copyinstrLoop, hmax] at h
    cases hw : walkaddr m pagetable (PGROUNDDOWN srcva) with
    | error e => simp [copyinstrLoop, hmax, hw] at h
    | ok pa =>
      by_cases hpa0 : pa = 0
      · simp [copyinstrLoop, hmax, hw, hpa0] at h
      have hoff : srcva % PGSIZE < PGSIZE := Nat.mod_lt _ (by decide)
      rw [copyinstrLoop_succ hmax hw hpa0] at h
      set n := min (PGSIZE - srcva % PGSIZE) max with hn
      dsimp only at h
      set chunk := readBytes m.mem (pa + srcva % PGSIZE) n with hchunk
      -- the bytes of this page are the user bytes at `srcva`
      have hbyte : ∀ j < n, uread m pagetable (srcva + j) = some (chunk.getD j 0) := by
        intro j hj
        rw [uread_of_walkaddr hw hpa0 (by omega), hchunk, getD_readBytes hj, Nat.add_assoc]
      split_ifs at h with hg
      · -- the NUL is on this page
        obtain ⟨str, rest, hsr, h0, hout⟩ := copyinstrPage_true hg
        cases h
        have hlen : str.length < n := by
          have := congrArg List.length hsr
          simp [hchunk] at this
          omega
        refine ⟨str, ⟨h0, by omega, fun j hj => ?_⟩, hout⟩
        rw [hbyte j (by omega), hsr]
        rcases Nat.lt_or_eq_of_le hj with hj | rfl
        · simp [List.getD_eq_getElem?_getD, List.getElem?_append_left hj]
        · simp [List.getD_eq_getElem?_getD]
      · -- no NUL here: the rest of the string is on the next pages
        obtain ⟨h0, hout⟩ := copyinstrPage_false (Bool.eq_false_iff.mpr hg)
        cases hr : copyinstrLoop m pagetable fuel (PGROUNDDOWN srcva + PGSIZE) (max - n) with
        | error e => rw [hr] at h; cases h
        | ok rr =>
          rw [hr] at h
          obtain ⟨r, rest⟩ := rr
          simp only [Except.map, Except.ok.injEq, Prod.mk.injEq] at h
          obtain ⟨rfl, rfl⟩ := h
          obtain ⟨str, ⟨h0', hlt, hs⟩, rfl⟩ := userStr_of_copyinstrLoop fuel _ _ _ hr
          have hnext := @next_page srcva max (by omega)
          have hclen : chunk.length = n := by simp [hchunk]
          refine ⟨chunk ++ str, ⟨?_, by simp; omega, fun j hj => ?_⟩, by rw [hout]; simp⟩
          · simp only [List.mem_append, not_or]
            exact ⟨h0, h0'⟩
          · rcases Nat.lt_or_ge j n with hj' | hj'
            · rw [hbyte j hj']
              simp [List.getD_eq_getElem?_getD, List.getElem?_append_left (by omega : j < chunk.length)]
            · obtain ⟨i, rfl⟩ := Nat.exists_eq_add_of_le hj'
              have hi := hs i (by rw [List.length_append, hclen] at hj; omega)
              rw [hnext, Nat.add_assoc] at hi
              have hget : (chunk ++ str ++ [0]).getD (n + i) 0 = (str ++ [0]).getD i 0 := by
                rw [List.append_assoc, List.getD_eq_getElem?_getD, List.getD_eq_getElem?_getD,
                  List.getElem?_append_right (by omega), hclen, Nat.add_sub_cancel_left]
              rw [hget]
              exact hi

theorem takeWhile_ne_zero {str : List UInt8} (h : 0 ∉ str) : (str ++ [0]).takeWhile (· != 0) = str := by
  induction str with
  | nil => rfl
  | cons c str ih =>
    have hc : c ≠ 0 := fun hc => h (hc ▸ List.mem_cons_self)
    rw [List.cons_append, List.takeWhile_cons, if_pos (by simpa using hc),
      ih fun h' => h (List.mem_cons_of_mem c h')]

/-- `copyout` asks `walkaddr` for the page, and `walkaddr` checks `PTE_V` and `PTE_U` only:
a copy into a user page succeeds and writes the page's frame whatever the PTE's `PTE_W`. -/
theorem copyout_ignores_w {m : Phys} {pagetable dstva a pte : ℕ} {src : List UInt8}
    (hwalk : (walk m pagetable (PGROUNDDOWN dstva) false).map Prod.fst = .ok (some a))
    (hpte : m.load a = .ok pte) (hv : pte &&& PTE_V ≠ 0) (hu : pte &&& PTE_U ≠ 0)
    (hpa : PTE2PA pte ≠ 0) (hfit : dstva % PGSIZE + src.length ≤ PGSIZE) :
    copyout m pagetable dstva src = .ok (0, m.memmove (PTE2PA pte + dstva % PGSIZE) src) := by
  have hwa : walkaddr m pagetable (PGROUNDDOWN dstva) = .ok (PTE2PA pte) := by
    cases hw' : walk m pagetable (PGROUNDDOWN dstva) false with
    | error e => rw [hw'] at hwalk; cases hwalk
    | ok r =>
      rw [hw'] at hwalk
      obtain ⟨a', m'⟩ := r
      cases hwalk
      -- the walk did not fail, so the page is below `MAXVA`
      have hmax : ¬ MAXVA ≤ PGROUNDDOWN dstva := fun h => by simp [walk, h] at hw'
      simp [walkaddr, hmax, hw', hpte, hv, hu]
  exact copyout_page hwa hpa hfit

/-- A process whose user page at 0 is a text page as `exec` maps it for an ELF segment with
flags `R|X`: `PTE_R | PTE_U | flags2perm(5)`, without `PTE_W`. -/
def textRoot : ℕ := 0x87e00000

def textPte : ℕ := PA2PTE (textRoot + 3 * PGSIZE) ||| (PTE_R ||| PTE_U ||| flags2perm 5 ||| PTE_V)

def textPhys : Phys where
  mem :=
    let m := writeWord (fun _ => 0) textRoot 8 (PA2PTE (textRoot + PGSIZE) ||| PTE_V)
    let m := writeWord m (textRoot + PGSIZE) 8 (PA2PTE (textRoot + 2 * PGSIZE) ||| PTE_V)
    writeWord m (textRoot + 2 * PGSIZE) 8 textPte
  freelist := 0
  kend := KERNBASE

/-- `copyout(pagetable, 0x10, "hi", 2)` into that text page returns 0 and overwrites the
code. -/
theorem copyout_readonly_text :
    textPte &&& PTE_W = 0 ∧
      copyout textPhys textRoot 0x10 [104, 105] =
        .ok (0, textPhys.memmove (textRoot + 3 * PGSIZE + 0x10) [104, 105]) :=
  ⟨by decide, @copyout_ignores_w textPhys textRoot 0x10 (textRoot + 2 * PGSIZE) textPte [104, 105]
    (by decide) (by decide) (by decide) (by decide) (by decide) (by decide)⟩

end Xv6
