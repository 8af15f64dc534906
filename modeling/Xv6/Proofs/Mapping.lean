import Mathlib.Data.Nat.Bitwise
import Xv6.Proofs.PageTable

/-! `mappages` and `uvmunmap` over the page-table tree. Below `MAXVA` the three indices of an
address are the digits of its page number, so a store through the PTE that `walk` found for
`va` changes the leaf of `va`'s page and no other (`walk_alloc_store`). `mappages` sets the
leaves of the pages from `PGROUNDDOWN va` to `PGROUNDDOWN (va + size - 1)` and only those
(`mappages_leaves`); `uvmunmap` clears its `npages` leaves and only those
(`uvmunmap_leaves`). -/

namespace Xv6

open ByteMem

/-! ## Pages and indices -/

theorem PX_eq_page (level va : ℕ) : PX level va = va / PGSIZE / 512 ^ level % 512 := by
  rw [PX, PGSIZE, Nat.div_div_eq_div_mul, pow_add, pow_mul]
  norm_num

theorem same_page_iff {a b : ℕ} (ha : a < MAXVA) (hb : b < MAXVA) :
    (pxIdx 2 b = pxIdx 2 a ∧ pxIdx 1 b = pxIdx 1 a ∧ PX 0 b = PX 0 a) ↔ b / PGSIZE = a / PGSIZE := by
  simp only [Fin.ext_iff, pxIdx_val, PX_eq_page, pow_zero, pow_one, Nat.div_one]
  simp only [MAXVA, PGSIZE] at *
  omega

theorem PGROUNDDOWN_mod (a : ℕ) : PGROUNDDOWN a % PGSIZE = 0 := Nat.mul_mod_left _ _

theorem page_eq_iff {a b : ℕ} (ha : a % PGSIZE = 0) : b / PGSIZE = a / PGSIZE ↔ PGROUNDDOWN b = a := by
  simp only [PGROUNDDOWN, PGSIZE] at *
  omega

theorem page_eq_iff_mem {a b : ℕ} (ha : a % PGSIZE = 0) : b / PGSIZE = a / PGSIZE ↔ a ≤ b ∧ b < a + PGSIZE := by
  simp only [PGSIZE] at *
  omega

theorem leaf_of_page {mem : ℕ → UInt8} {root a b : ℕ} (h : b / PGSIZE = a / PGSIZE) :
    leaf mem root b = leaf mem root a := by
  have hpx : ∀ level, PX level b = PX level a := fun level => by rw [PX_eq_page, PX_eq_page, h]
  have hi : ∀ level, pxIdx level b = pxIdx level a := fun level => Fin.ext (hpx level)
  unfold leaf
  rw [hi 2, hi 1, hpx 0]

/-! ## Stores into the tree -/

section Store

variable {m : Phys} {root va : ℕ} {l : List ℕ}

theorem Alloc.store_node (ha : Alloc m root l) {n : Node} {p k : ℕ} (hp : nodePage m.mem root n = some p)
    (hal : p % PGSIZE = 0) (hk : k < 512) (w : ℕ)
    (hn : nodePage (writeWord m.mem (p + 8 * k) 8 w) root = nodePage m.mem root) :
    Alloc (m.store (p + 8 * k) w) root l where
  chain := ha.chain.frame fun q hq i hi => by
    have hqp : q ≠ p := fun e => ha.not_node q hq n (e ▸ hp)
    have hout := word_outside (ha.page q hq).1 hal hqp hi
    have hword : q + i < p + 8 * k ∨ p + 8 * k + 8 ≤ q + i := by
      simp only [PGSIZE] at hout
      omega
    rw [Phys.mem_store, writeWord_of_not_mem hword]
  nodup := ha.nodup
  page := ha.page
  not_node q hq := by
    rw [Phys.mem_store, hn]
    exact ha.not_node q hq

/-- A store through the PTE that `walk` with `alloc` found sets the leaf of `va`'s page and no
other; the tree and the free list stay such. -/
theorem walk_alloc_store (ht : PageTree m.mem root) (ha : Alloc m root l) {pte : ℕ} {m₁ : Phys}
    (hw : walk m root va true = .ok (some pte, m₁)) (w : ℕ) :
    va < MAXVA ∧ PageTree (m₁.store pte w).mem root ∧ (∃ l', Alloc (m₁.store pte w) root l') ∧
      ∀ b < MAXVA, leaf (m₁.store pte w).mem root b =
        if b / PGSIZE = va / PGSIZE then w % 2 ^ 64 else leaf m.mem root b := by
  obtain ⟨hva, p₀, l₁, rfl, hb, ht₁, ha₁, hleaf⟩ := walk_alloc_some ht ha hw
  obtain ⟨hn, hl⟩ := ht₁.store_leaf hb (PX_lt 0 va) w
  refine ⟨hva, ht₁.congr hn, ⟨l₁, ha₁.store_node hb (ht₁.page _ _ hb).1 (PX_lt 0 va) w hn⟩,
    fun b hb' => ?_⟩
  rw [Phys.mem_store, hl, hleaf]
  exact if_congr (same_page_iff hva hb') rfl rfl

/-- A store through the PTE of `va` after a `walk` that grew the tree: the leaf of `va`'s page
is set, and the rest of the free list stays free. -/
theorem store_of_grown {m₁ : Phys} (hg : Grown m m₁ root va l) (hva : va < MAXVA) {p₀ : ℕ}
    (hb : nodePage m₁.mem root (.bot (pxIdx 2 va) (pxIdx 1 va)) = some p₀) (w : ℕ) :
    PageTree (m₁.store (p₀ + 8 * PX 0 va) w).mem root ∧
      Alloc (m₁.store (p₀ + 8 * PX 0 va) w) root (l.drop (missing m.mem root va).length) ∧
      ∀ b < MAXVA, leaf (m₁.store (p₀ + 8 * PX 0 va) w).mem root b =
        if b / PGSIZE = va / PGSIZE then w % 2 ^ 64 else leaf m.mem root b := by
  obtain ⟨hn, hl⟩ := hg.table.store_leaf hb (PX_lt 0 va) w
  refine ⟨hg.table.congr hn, hg.alloc.store_node hb (hg.table.page _ _ hb).1 (PX_lt 0 va) w hn,
    fun b hb' => ?_⟩
  rw [Phys.mem_store, hl, hg.leaf]
  exact if_congr (same_page_iff hva hb') rfl rfl

theorem walk_alloc_load (ht : PageTree m.mem root) (ha : Alloc m root l) {pte v : ℕ} {m₁ : Phys}
    (hw : walk m root va true = .ok (some pte, m₁)) (hv : m₁.load pte = .ok v) : v = leaf m.mem root va := by
  obtain ⟨-, p₀, l₁, rfl, hb, ht₁, -, hleaf⟩ := walk_alloc_some ht ha hw
  rw [load_entry (ht₁.page _ _ hb) (PX_lt 0 va), ← leaf_of_some hb, hleaf] at hv
  exact (Except.ok.inj hv).symm

end Store

/-! ## `mappages` -/

section Mappages

variable {root : ℕ}

/-- One round of `mappages` that did not fail: `walk` found the PTE of `a`, which held no valid
mapping and now maps `pa`, and the loop stops at `last` or goes on with the next page. -/
theorem mappagesLoop_round {last perm fuel a pa : ℕ} {m m' : Phys}
    (h : mappagesLoop root last perm (fuel + 1) m a pa = .ok (0, m')) :
    ∃ pte m₁ v, walk m root a true = .ok (some pte, m₁) ∧ m₁.load pte = .ok v ∧ v &&& PTE_V = 0 ∧
      if a = last then m' = m₁.store pte (PA2PTE pa ||| perm ||| PTE_V)
      else mappagesLoop root last perm fuel (m₁.store pte (PA2PTE pa ||| perm ||| PTE_V)) (a + PGSIZE)
        (pa + PGSIZE) = .ok (0, m') := by
  rw [mappagesLoop, Except.bind_eq_ok] at h
  obtain ⟨⟨_ | pte, m₁⟩, hw, h⟩ := h
  · -- `walk` ran out of free pages: the result is `-1`
    cases h
  · obtain ⟨v, hv, h⟩ := Except.bind_eq_ok.mp h
    dsimp only at h
    -- a valid PTE is a remap, which panics
    by_cases hvalid : v &&& PTE_V ≠ 0
    · rw [if_pos hvalid] at h
      cases h
    rw [if_neg hvalid] at h
    refine ⟨pte, m₁, v, hw, hv, not_not.mp hvalid, ?_⟩
    by_cases hlast : a = last
    · rw [if_pos hlast] at h ⊢
      cases h
      rfl
    · rw [if_neg hlast] at h ⊢
      exact h

theorem mappagesLoop_succ {last perm fuel a pa : ℕ} {m m' : Phys}
    (h : mappagesLoop root last perm (fuel + 1) m a pa = .ok (0, m')) :
    ∃ pte m₁, walk m root a true = .ok (some pte, m₁) ∧
      if a = last then m' = m₁.store pte (PA2PTE pa ||| perm ||| PTE_V)
      else mappagesLoop root last perm fuel (m₁.store pte (PA2PTE pa ||| perm ||| PTE_V)) (a + PGSIZE)
        (pa + PGSIZE) = .ok (0, m') := by
  obtain ⟨pte, m₁, -, hw, -, -, h⟩ := mappagesLoop_round h
  exact ⟨pte, m₁, hw, h⟩

/-- The loop from the aligned page `a` to `last`, `n` pages above it: each page in between
maps the frame as far above `pa` as the page lies above `a`, and no other leaf changed. -/
theorem mappagesLoop_leaves (perm : ℕ) {last : ℕ} (n : ℕ) :
    ∀ {m m' : Phys} {a pa : ℕ} {l : List ℕ}, PageTree m.mem root → Alloc m root l → a % PGSIZE = 0 →
      last = a + n * PGSIZE → mappagesLoop root last perm (n + 1) m a pa = .ok (0, m') →
      last < MAXVA ∧ PageTree m'.mem root ∧ (∃ l', Alloc m' root l') ∧
        ∀ b < MAXVA, leaf m'.mem root b =
          if a ≤ PGROUNDDOWN b ∧ PGROUNDDOWN b ≤ last then
            (PA2PTE (pa + (PGROUNDDOWN b - a)) ||| perm ||| PTE_V) % 2 ^ 64
          else leaf m.mem root b := by
  -- induction on the pages left after `a`; the round's store is `walk_alloc_store`
  induction n with
  | zero =>
    intro m m' a pa l ht ha hal hlast h
    obtain ⟨pte, m₁, hw, h⟩ := mappagesLoop_succ h
    have hla : a = last := by
      rw [hlast]
      simp
    rw [if_pos hla] at h
    subst h
    obtain ⟨hva, ht₂, ha₂, hl₂⟩ := walk_alloc_store ht ha hw (PA2PTE pa ||| perm ||| PTE_V)
    refine ⟨hla ▸ hva, ht₂, ha₂, fun b hb => ?_⟩
    rw [hl₂ b hb, ← hla]
    have hpg := page_eq_iff (b := b) hal
    by_cases hd : PGROUNDDOWN b = a
    · rw [if_pos (hpg.mpr hd), if_pos ⟨hd.ge, hd.le⟩, hd, Nat.sub_self, Nat.add_zero]
    · rw [if_neg (fun h => hd (hpg.mp h)), if_neg (fun h => hd (le_antisymm h.2 h.1))]
  | succ n ih =>
    intro m m' a pa l ht ha hal hlast h
    obtain ⟨pte, m₁, hw, h⟩ := mappagesLoop_succ h
    have hne : a ≠ last := by
      simp only [hlast, PGSIZE]
      omega
    rw [if_neg hne] at h
    obtain ⟨-, ht₂, ⟨l₂, ha₂⟩, hl₂⟩ := walk_alloc_store ht ha hw (PA2PTE pa ||| perm ||| PTE_V)
    have hal' : (a + PGSIZE) % PGSIZE = 0 := (Nat.add_mod_right a PGSIZE).trans hal
    have hlast' : last = a + PGSIZE + n * PGSIZE := by
      rw [hlast]
      ring
    obtain ⟨hva, ht', ha', hl'⟩ := ih ht₂ ha₂ hal' hlast' h
    refine ⟨hva, ht', ha', fun b hb => ?_⟩
    rw [hl' b hb, hl₂ b hb]
    have hpg := page_eq_iff (b := b) hal
    have hd := PGROUNDDOWN_mod b
    by_cases h₁ : a + PGSIZE ≤ PGROUNDDOWN b ∧ PGROUNDDOWN b ≤ last
    · -- a page past `a`: the later rounds mapped it
      have hpa : pa + PGSIZE + (PGROUNDDOWN b - (a + PGSIZE)) = pa + (PGROUNDDOWN b - a) := by
        omega
      rw [if_pos h₁, if_pos ⟨by omega, h₁.2⟩, hpa]
    · rw [if_neg h₁]
      by_cases h₀ : PGROUNDDOWN b = a
      · -- the page `a` itself: this round mapped it
        rw [if_pos (hpg.mpr h₀), if_pos ⟨h₀.ge, by omega⟩, h₀, Nat.sub_self, Nat.add_zero]
      · have hout : ¬(a ≤ PGROUNDDOWN b ∧ PGROUNDDOWN b ≤ last) := by
          simp only [PGSIZE] at *
          omega
        rw [if_neg (fun h => h₀ (hpg.mp h)), if_neg hout]

/-- `mappages` that returned 0 mapped each page from `PGROUNDDOWN va` to
`PGROUNDDOWN (va + size - 1)` to the frame as far above `pa`, and changed no other leaf. -/
theorem mappages_leaves {m : Phys} {l : List ℕ} (ht : PageTree m.mem root) (ha : Alloc m root l)
    {va size pa perm : ℕ} {m' : Phys} (h : mappages m root va size pa perm = .ok (0, m')) :
    PGROUNDDOWN (va + size - 1) < MAXVA ∧ PageTree m'.mem root ∧ (∃ l', Alloc m' root l') ∧
      ∀ b < MAXVA, leaf m'.mem root b =
        if PGROUNDDOWN va ≤ PGROUNDDOWN b ∧ PGROUNDDOWN b ≤ PGROUNDDOWN (va + size - 1) then
          (PA2PTE (pa + (PGROUNDDOWN b - PGROUNDDOWN va)) ||| perm ||| PTE_V) % 2 ^ 64
        else leaf m.mem root b := by
  rw [mappages] at h
  by_cases hsize : size = 0
  · rw [if_pos hsize] at h
    cases h
  rw [if_neg hsize] at h
  -- the last page lies a whole number of pages above the first
  have hlast : PGROUNDDOWN (va + size - 1) =
      PGROUNDDOWN va + (PGROUNDDOWN (va + size - 1) - PGROUNDDOWN va) / PGSIZE * PGSIZE := by
    simp only [PGROUNDDOWN, PGSIZE]
    omega
  exact mappagesLoop_leaves perm _ ht ha (PGROUNDDOWN_mod va) hlast h

theorem last_page_eq {va size : ℕ} (hsize : size ≠ 0) :
    PGROUNDDOWN (va + size - 1) =
      PGROUNDDOWN va + (PGROUNDDOWN (va + size - 1) - PGROUNDDOWN va) / PGSIZE * PGSIZE := by
  simp only [PGROUNDDOWN, PGSIZE]
  omega

theorem mappages_loop {m m' : Phys} {va size pa perm : ℕ} {r : ℤ}
    (h : mappages m root va size pa perm = .ok (r, m')) :
    size ≠ 0 ∧ mappagesLoop root (PGROUNDDOWN (va + size - 1)) perm
      ((PGROUNDDOWN (va + size - 1) - PGROUNDDOWN va) / PGSIZE + 1) m (PGROUNDDOWN va) pa = .ok (r, m') := by
  rw [mappages] at h
  by_cases hsize : size = 0
  · rw [if_pos hsize] at h
    cases h
  rw [if_neg hsize] at h
  exact ⟨hsize, h⟩

/-- The loop maps only pages whose leaf held no valid mapping: a valid one is a remap, and
the loop panics. -/
theorem mappagesLoop_fresh (perm : ℕ) {last : ℕ} (n : ℕ) :
    ∀ {m m' : Phys} {a pa : ℕ} {l : List ℕ}, PageTree m.mem root → Alloc m root l → a % PGSIZE = 0 →
      last = a + n * PGSIZE → mappagesLoop root last perm (n + 1) m a pa = .ok (0, m') →
      ∀ b < MAXVA, a ≤ PGROUNDDOWN b → PGROUNDDOWN b ≤ last → leaf m.mem root b &&& PTE_V = 0 := by
  -- induction on the pages left after `a`, as for `mappagesLoop_leaves`
  induction n with
  | zero =>
    intro m m' a pa l ht ha hal hlast h b _ hb₁ hb₂
    obtain ⟨pte, m₁, v, hw, hv, hfree, -⟩ := mappagesLoop_round h
    have hpage : b / PGSIZE = a / PGSIZE := (page_eq_iff hal).mpr (by simp at hlast; omega)
    rw [leaf_of_page hpage, ← walk_alloc_load ht ha hw hv]
    exact hfree
  | succ n ih =>
    intro m m' a pa l ht ha hal hlast h b hb hb₁ hb₂
    obtain ⟨pte, m₁, v, hw, hv, hfree, h⟩ := mappagesLoop_round h
    have hne : a ≠ last := by
      simp only [hlast, PGSIZE]
      omega
    rw [if_neg hne] at h
    by_cases hpage : PGROUNDDOWN b = a
    · -- the page this round mapped
      rw [leaf_of_page ((page_eq_iff hal).mpr hpage), ← walk_alloc_load ht ha hw hv]
      exact hfree
    · -- a later page: this round's store left its leaf
      obtain ⟨-, ht₂, ⟨l₂, ha₂⟩, hl₂⟩ := walk_alloc_store ht ha hw (PA2PTE pa ||| perm ||| PTE_V)
      have hal' : (a + PGSIZE) % PGSIZE = 0 := (Nat.add_mod_right a PGSIZE).trans hal
      have hlast' : last = a + PGSIZE + n * PGSIZE := by
        rw [hlast]
        ring
      have hb' : a + PGSIZE ≤ PGROUNDDOWN b := by
        have hd := PGROUNDDOWN_mod b
        simp only [PGSIZE] at *
        omega
      have hfresh := ih ht₂ ha₂ hal' hlast' h b hb hb' hb₂
      rwa [hl₂ b hb, if_neg (fun h => hpage ((page_eq_iff hal).mp h))] at hfresh

theorem mappagesLoop_step {last perm fuel a pa pte v : ℕ} {m m₁ : Phys}
    (hw : walk m root a true = .ok (some pte, m₁)) (hv : m₁.load pte = .ok v) (hfree : v &&& PTE_V = 0) :
    mappagesLoop root last perm (fuel + 1) m a pa =
      if a = last then .ok (0, m₁.store pte (PA2PTE pa ||| perm ||| PTE_V))
      else mappagesLoop root last perm fuel (m₁.store pte (PA2PTE pa ||| perm ||| PTE_V)) (a + PGSIZE)
        (pa + PGSIZE) := by
  rw [mappagesLoop, hw, Except.ok_bind]
  dsimp only
  rw [hv, Except.ok_bind, if_neg (not_not.mpr hfree)]
  split_ifs <;> rfl

/-- A round on an unmapped page below `MAXVA` with two free pages: `walk` grows the tree and
the round stores the PTE. -/
theorem mappagesLoop_round_ok {m : Phys} {l : List ℕ} {a : ℕ} (ht : PageTree m.mem root) (ha : Alloc m root l)
    (hva : a < MAXVA) (hl : 2 ≤ l.length) (hfree : leaf m.mem root a &&& PTE_V = 0) (last perm fuel pa : ℕ) :
    ∃ m₁ p₀, Grown m m₁ root a l ∧ nodePage m₁.mem root (.bot (pxIdx 2 a) (pxIdx 1 a)) = some p₀ ∧
      mappagesLoop root last perm (fuel + 1) m a pa =
        if a = last then .ok (0, m₁.store (p₀ + 8 * PX 0 a) (PA2PTE pa ||| perm ||| PTE_V))
        else mappagesLoop root last perm fuel (m₁.store (p₀ + 8 * PX 0 a) (PA2PTE pa ||| perm ||| PTE_V))
          (a + PGSIZE) (pa + PGSIZE) := by
  -- the path of `a` misses at most its two tables
  have hk : (missing m.mem root a).length ≤ 2 := List.length_filter_le _ _
  obtain ⟨m₁, p₀, hw, hb, hg⟩ := walk_alloc_ok ht ha hva (hk.trans hl)
  have hv := load_entry (m := m₁) (hg.table.page _ _ hb) (PX_lt 0 a)
  have hfree' : entry m₁.mem p₀ (PX 0 a) &&& PTE_V = 0 := by
    rw [← leaf_of_some hb, hg.leaf]
    exact hfree
  exact ⟨m₁, p₀, hg, hb, mappagesLoop_step hw hv hfree'⟩

/-- The loop does not fail when each page from `a` to `last` below `MAXVA` is unmapped and the
free list holds two pages for each. -/
theorem mappagesLoop_ok (perm : ℕ) {last : ℕ} (n : ℕ) :
    ∀ {m : Phys} {a pa : ℕ} {l : List ℕ}, PageTree m.mem root → Alloc m root l → a % PGSIZE = 0 →
      last = a + n * PGSIZE → last < MAXVA → 2 * (n + 1) ≤ l.length →
      (∀ b < MAXVA, a ≤ PGROUNDDOWN b → PGROUNDDOWN b ≤ last → leaf m.mem root b &&& PTE_V = 0) →
      ∃ m', mappagesLoop root last perm (n + 1) m a pa = .ok (0, m') := by
  -- induction on the pages left after `a`; the round is `mappagesLoop_round_ok`
  induction n with
  | zero =>
    intro m a pa l ht ha hal hlast hlt hl hfresh
    have hla : a = last := by simpa using hlast.symm
    subst hla
    have hda : PGROUNDDOWN a = a := by
      simp only [PGROUNDDOWN, PGSIZE] at *
      omega
    obtain ⟨m₁, p₀, -, -, h⟩ := mappagesLoop_round_ok ht ha hlt (by omega) (hfresh a hlt hda.ge hda.le) a perm 0 pa
    rw [if_pos rfl] at h
    exact ⟨_, h⟩
  | succ n ih =>
    intro m a pa l ht ha hal hlast hlt hl hfresh
    have hne : a ≠ last := by
      simp only [hlast, PGSIZE]
      omega
    have hva : a < MAXVA := calc
      a ≤ last := by rw [hlast]; exact Nat.le_add_right _ _
      _ < MAXVA := hlt
    have hda : PGROUNDDOWN a = a := by
      simp only [PGROUNDDOWN, PGSIZE] at *
      omega
    have hfree := hfresh a hva hda.ge (by rw [hda, hlast]; omega)
    obtain ⟨m₁, p₀, hg, hb, h⟩ := mappagesLoop_round_ok ht ha hva (by omega) hfree last perm (n + 1) pa
    rw [if_neg hne] at h
    rw [h]
    obtain ⟨ht₂, ha₂, hl₂⟩ := store_of_grown hg hva hb (PA2PTE pa ||| perm ||| PTE_V)
    have hk : (missing m.mem root a).length ≤ 2 := List.length_filter_le _ _
    refine ih ht₂ ha₂ (by simp only [PGSIZE] at *; omega) (by rw [hlast]; ring) hlt
      (by rw [List.length_drop]; omega) fun b hb hb₁ hb₂ => ?_
    -- a later page kept its leaf through this round's store
    have hpage : ¬b / PGSIZE = a / PGSIZE := fun h => by
      have h' := (page_eq_iff hal).mp h
      simp only [PGSIZE] at hb₁ h'
      omega
    rw [hl₂ b hb, if_neg hpage]
    exact hfresh b hb (by omega) hb₂

end Mappages

/-! ## `uvmunmap` -/

section Uvmunmap

variable {m : Phys} {root va : ℕ} {f : Bool}

/-- One round of `uvmunmap` that did not panic: `walk` found a valid leaf PTE for the page,
whose frame was freed if asked, and the PTE was cleared. -/
theorem uvmunmapStep_ok {k : ℕ} {m' : Phys} (h : uvmunmapStep root va f m k = .ok m') :
    ∃ pte v m₁ m₂, walk m root (va + k * PGSIZE) false = .ok (some pte, m₁) ∧ m.load pte = .ok v ∧
      v &&& PTE_V ≠ 0 ∧ PTE_FLAGS v ≠ PTE_V ∧
      (if f then kfree m (PTE2PA v) else .ok m) = .ok m₂ ∧ m' = m₂.store pte 0 := by
  rw [uvmunmapStep, Except.bind_eq_ok] at h
  obtain ⟨⟨_ | pte, m₁⟩, hw, h⟩ := h
  · cases h
  · obtain ⟨v, hv, h⟩ := Except.bind_eq_ok.mp h
    dsimp only at h
    by_cases hv₀ : v &&& PTE_V = 0
    · rw [if_pos hv₀] at h
      cases h
    rw [if_neg hv₀] at h
    by_cases hflags : PTE_FLAGS v = PTE_V
    · rw [if_pos hflags] at h
      cases h
    rw [if_neg hflags] at h
    -- the `do` block put the final store into both branches of the `if`
    have h' : ((if f then kfree m (PTE2PA v) else .ok m) >>= fun m => pure (m.store pte 0)) = .ok m' := by
      cases f <;> exact h
    obtain ⟨m₂, hm₂, h⟩ := Except.bind_eq_ok.mp h'
    cases h
    exact ⟨pte, v, m₁, m₂, hw, hv, hv₀, hflags, hm₂, rfl⟩

theorem uvmunmapStep_lt {k : ℕ} {m' : Phys} (h : uvmunmapStep root va f m k = .ok m') :
    va + k * PGSIZE < MAXVA := by
  obtain ⟨pte, v, m₁, m₂, hw, -⟩ := uvmunmapStep_ok h
  exact lt_MAXVA_of_walk hw

theorem uvmunmapStep_leaf (ht : PageTree m.mem root) {k : ℕ} {m' : Phys}
    (hf : f = true → ∀ n, nodePage m.mem root n ≠ some (PTE2PA (leaf m.mem root (va + k * PGSIZE))))
    (h : uvmunmapStep root va f m k = .ok m') :
    nodePage m'.mem root = nodePage m.mem root ∧
      ∀ b < MAXVA, leaf m'.mem root b =
        if b / PGSIZE = (va + k * PGSIZE) / PGSIZE then 0 else leaf m.mem root b := by
  obtain ⟨pte, v, m₁, m₂, hw, hv, -, -, hm₂, rfl⟩ := uvmunmapStep_ok h
  obtain ⟨hva, -, p₀, hb, rfl⟩ := walk_lookup_some ht hw
  rw [load_entry (ht.page _ _ hb) (PX_lt 0 _), ← leaf_of_some hb] at hv
  cases hv
  -- freeing the frame, a page that is no table, leaves the tree and its leaves
  have hframe : nodePage m₂.mem root = nodePage m.mem root ∧ leaf m₂.mem root = leaf m.mem root := by
    cases f with
    | false =>
      rw [if_neg Bool.false_ne_true] at hm₂
      cases hm₂
      exact ⟨rfl, rfl⟩
    | true =>
      rw [if_pos rfl] at hm₂
      obtain ⟨hal, hout⟩ := kfree_frame hm₂
      exact ht.frame hal (hf rfl) hout
  have ht₂ := ht.congr hframe.1
  obtain ⟨hn, hl⟩ := ht₂.store_leaf (hframe.1 ▸ hb) (PX_lt 0 _) 0
  refine ⟨hn.trans hframe.1, fun b hb' => ?_⟩
  rw [Phys.mem_store, hl, Nat.zero_mod, hframe.2]
  exact if_congr (same_page_iff hva hb') rfl rfl

theorem uvmunmap_run (ht : PageTree m.mem root) (hal : va % PGSIZE = 0) (n : ℕ) :
    ∀ {m' : Phys},
      (f = true → ∀ k < n, ∀ c, nodePage m.mem root c ≠ some (PTE2PA (leaf m.mem root (va + k * PGSIZE)))) →
      (List.range n).foldlM (uvmunmapStep root va f) m = .ok m' →
      nodePage m'.mem root = nodePage m.mem root ∧
        ∀ b < MAXVA, leaf m'.mem root b = if va ≤ b ∧ b < va + n * PGSIZE then 0 else leaf m.mem root b := by
  -- induction on the rounds, peeling the last one off the end of `List.range`
  induction n with
  | zero =>
    intro m' _ h
    cases h
    exact ⟨rfl, fun b _ => by rw [if_neg (by omega)]⟩
  | succ n ih =>
    intro m' hf h
    rw [List.range_succ, List.foldlM_append, Except.bind_eq_ok] at h
    obtain ⟨mₙ, hₙ, hstep⟩ := h
    simp only [List.foldlM_cons, List.foldlM_nil, bind_pure] at hstep
    obtain ⟨hnₙ, hlₙ⟩ := ih (fun hf' k hk => hf hf' k (by omega)) hₙ
    have hlt := uvmunmapStep_lt hstep
    -- the page of round `n` was untouched by the rounds before
    have hfₙ : f = true → ∀ c, nodePage mₙ.mem root c ≠ some (PTE2PA (leaf mₙ.mem root (va + n * PGSIZE))) := by
      intro hf' c
      rw [hnₙ, hlₙ _ hlt, if_neg (by omega)]
      exact hf hf' n (by omega) c
    obtain ⟨hn', hl'⟩ := uvmunmapStep_leaf (ht.congr hnₙ) hfₙ hstep
    refine ⟨hn'.trans hnₙ, fun b hb => ?_⟩
    have hpage : (va + n * PGSIZE) % PGSIZE = 0 := by
      simp only [PGSIZE] at *
      omega
    have hc : (va ≤ b ∧ b < va + (n + 1) * PGSIZE) ↔
        b / PGSIZE = (va + n * PGSIZE) / PGSIZE ∨ (va ≤ b ∧ b < va + n * PGSIZE) := by
      rw [page_eq_iff_mem hpage]
      constructor <;> intro h <;> simp only [PGSIZE] at * <;> omega
    rw [hl' b hb, hlₙ b hb]
    by_cases h₁ : b / PGSIZE = (va + n * PGSIZE) / PGSIZE
    · rw [if_pos h₁, if_pos (hc.mpr (.inl h₁))]
    · by_cases h₂ : va ≤ b ∧ b < va + n * PGSIZE
      · rw [if_neg h₁, if_pos h₂, if_pos (hc.mpr (.inr h₂))]
      · rw [if_neg h₁, if_neg h₂, if_neg (fun h => (hc.mp h).elim h₁ h₂)]

theorem uvmunmapStep_kend {k : ℕ} {m' : Phys} (h : uvmunmapStep root va f m k = .ok m') : m'.kend = m.kend := by
  obtain ⟨pte, v, m₁, m₂, -, -, -, -, hm₂, rfl⟩ := uvmunmapStep_ok h
  cases f with
  | false =>
    rw [if_neg Bool.false_ne_true] at hm₂
    cases hm₂
    rfl
  | true =>
    rw [if_pos rfl] at hm₂
    show m₂.kend = m.kend
    exact kfree_kend hm₂

theorem uvmunmapStep_succeeds (ht : PageTree m.mem root) {k : ℕ} (hva : va + k * PGSIZE < MAXVA)
    (hv : leaf m.mem root (va + k * PGSIZE) &&& PTE_V ≠ 0)
    (hflags : PTE_FLAGS (leaf m.mem root (va + k * PGSIZE)) ≠ PTE_V)
    (hfree : f = true → m.kend ≤ PTE2PA (leaf m.mem root (va + k * PGSIZE)) ∧
      PTE2PA (leaf m.mem root (va + k * PGSIZE)) < PHYSTOP) :
    ∃ m', uvmunmapStep root va f m k = .ok m' := by
  have h0 : leaf m.mem root (va + k * PGSIZE) ≠ 0 := fun h => hv (by rw [h, Nat.zero_and])
  obtain ⟨pte, hw, hl⟩ := walk_leaf ht hva h0 false
  generalize leaf m.mem root (va + k * PGSIZE) = v at hl hv hflags hfree
  rw [uvmunmapStep, hw, Except.ok_bind]
  dsimp only
  rw [hl, Except.ok_bind, if_neg hv, if_neg hflags]
  cases f with
  | false => exact ⟨_, rfl⟩
  | true =>
    -- the frame is aligned, being a PTE's, and in `kfree`'s range
    obtain ⟨hk, hp⟩ := hfree rfl
    have hal : PTE2PA v % PGSIZE = 0 := by
      unfold PTE2PA PGSIZE
      omega
    have hok : ¬(PTE2PA v % PGSIZE ≠ 0 ∨ PTE2PA v < m.kend ∨ PHYSTOP ≤ PTE2PA v) := by omega
    rw [if_pos rfl, kfree, if_neg hok]
    exact ⟨_, rfl⟩

/-- `uvmunmap` that did not panic cleared the leaves of its `npages` pages and no other, when no
frame it freed is a table. -/
theorem uvmunmap_leaves (ht : PageTree m.mem root) {npages : ℕ} {m' : Phys}
    (hf : f = true → ∀ k < npages, ∀ c, nodePage m.mem root c ≠ some (PTE2PA (leaf m.mem root (va + k * PGSIZE))))
    (h : uvmunmap m root va npages f = .ok m') :
    PageTree m'.mem root ∧
      ∀ b < MAXVA, leaf m'.mem root b = if va ≤ b ∧ b < va + npages * PGSIZE then 0 else leaf m.mem root b := by
  rw [uvmunmap] at h
  by_cases hal : va % PGSIZE ≠ 0
  · rw [if_pos hal] at h
    cases h
  rw [if_neg hal] at h
  obtain ⟨hn, hl⟩ := uvmunmap_run ht (not_not.mp hal) npages hf h
  exact ⟨ht.congr hn, hl⟩

end Uvmunmap

/-! ## A fresh tree -/

/-- Memory with a zeroed root page at `KERNBASE` and the two pages above it on the free list. -/
def freshPhys : Phys :=
  ⟨writeWord (fun _ => 0) (KERNBASE + PGSIZE) 8 (KERNBASE + 2 * PGSIZE), KERNBASE + PGSIZE, KERNBASE⟩

theorem freshPhys_mem {x : ℕ} (hx : x < KERNBASE + PGSIZE ∨ KERNBASE + PGSIZE + 8 ≤ x) : freshPhys.mem x = 0 :=
  @writeWord_of_not_mem (fun _ => 0) (KERNBASE + PGSIZE) 8 (KERNBASE + 2 * PGSIZE) x hx

theorem freshPhys_readWord {a : ℕ} (ha : a + 8 ≤ KERNBASE + PGSIZE ∨ KERNBASE + PGSIZE + 8 ≤ a) :
    readWord freshPhys.mem a 8 = 0 := by
  rw [@readWord_congr _ (fun _ => 0) a a _ fun i hi => freshPhys_mem (by omega)]
  simp [readWord]

theorem freshPhys_entry : ∀ k < 512, entry freshPhys.mem KERNBASE k = 0 := fun k hk =>
  freshPhys_readWord (.inl (by simp only [PGSIZE]; omega))

theorem freshPhys_pageTree : PageTree freshPhys.mem KERNBASE :=
  pageTree_of_zero (by simpa using ramPage_kernbase 0 (by decide)) freshPhys_entry

theorem freshPhys_alloc : Alloc freshPhys KERNBASE [KERNBASE + PGSIZE, KERNBASE + 2 * PGSIZE] := by
  -- the free list: the first page holds the address of the second, which holds 0
  have hchain : FreeChain freshPhys.mem freshPhys.freelist [KERNBASE + PGSIZE, KERNBASE + 2 * PGSIZE] := by
    have hfl : freshPhys.freelist = KERNBASE + PGSIZE := rfl
    have h₁ : readWord freshPhys.mem (KERNBASE + PGSIZE) 8 = KERNBASE + 2 * PGSIZE := by
      simp only [freshPhys, readWord_writeWord]
      simp [KERNBASE, PGSIZE]
    rw [hfl]
    refine .cons (by simp [KERNBASE]) ?_
    rw [h₁]
    refine .cons (by simp [KERNBASE]) ?_
    rw [freshPhys_readWord (.inr (by simp only [PGSIZE]; omega))]
    exact .nil
  refine ⟨hchain, List.nodup_cons.mpr ⟨by simp [PGSIZE], List.nodup_singleton _⟩, fun q hq => ?_,
    fun q hq n hn => ?_⟩
  · simp only [List.mem_cons, List.not_mem_nil, or_false] at hq
    rcases hq with rfl | rfl
    · simpa using ramPage_kernbase 1 (by decide)
    · exact ramPage_kernbase 2 (by decide)
  · rw [(nodePage_of_zero freshPhys_entry hn).2] at hq
    simp [PGSIZE] at hq

/-! ## Building and tearing down the tree -/

section Construction

variable {m : Phys} {root : ℕ} {l : List ℕ}

end Construction

/-! ## One page mapped into the fresh tree -/

section Fresh

theorem freshPhys_leaf (b : ℕ) : leaf freshPhys.mem KERNBASE b = 0 := by
  cases hb : nodePage freshPhys.mem KERNBASE (.bot (pxIdx 2 b) (pxIdx 1 b)) with
  | none => exact leaf_of_none hb
  | some p => cases (nodePage_of_zero freshPhys_entry hb).1

theorem freshPhys_mappages :
    ∃ m', mappages freshPhys KERNBASE 0 PGSIZE (KERNBASE + 3 * PGSIZE) (PTE_R ||| PTE_U) = .ok (0, m') := by
  have hsize : PGSIZE ≠ 0 := by decide
  rw [mappages, if_neg hsize]
  exact mappagesLoop_ok _ _ freshPhys_pageTree freshPhys_alloc (PGROUNDDOWN_mod 0) (last_page_eq hsize)
    (by decide) (by decide) fun b _ _ _ => by rw [freshPhys_leaf, Nat.zero_and]

theorem freshPhys_mapped {m' : Phys}
    (h : mappages freshPhys KERNBASE 0 PGSIZE (KERNBASE + 3 * PGSIZE) (PTE_R ||| PTE_U) = .ok (0, m')) :
    PageTree m'.mem KERNBASE ∧
      leaf m'.mem KERNBASE 0 = (PA2PTE (KERNBASE + 3 * PGSIZE) ||| (PTE_R ||| PTE_U) ||| PTE_V) % 2 ^ 64 := by
  obtain ⟨-, ht', -, hl⟩ := mappages_leaves freshPhys_pageTree freshPhys_alloc h
  refine ⟨ht', ?_⟩
  rw [hl 0 (by decide), if_pos (by decide)]
  simp only [Nat.sub_self, Nat.add_zero]

theorem freshPhys_uvmunmap {m' : Phys}
    (h : mappages freshPhys KERNBASE 0 PGSIZE (KERNBASE + 3 * PGSIZE) (PTE_R ||| PTE_U) = .ok (0, m')) :
    ∃ m'', uvmunmap m' KERNBASE 0 1 false = .ok m'' := by
  obtain ⟨ht', hl⟩ := freshPhys_mapped h
  have hl₀ : leaf m'.mem KERNBASE (0 + 0 * PGSIZE) = _ := hl
  have hstep : ∃ m'', uvmunmapStep KERNBASE 0 false m' 0 = .ok m'' :=
    uvmunmapStep_succeeds ht' (by decide) (by rw [hl₀]; decide) (by rw [hl₀]; decide)
      (fun hf => absurd hf Bool.false_ne_true)
  obtain ⟨m'', hstep⟩ := hstep
  refine ⟨m'', ?_⟩
  rw [uvmunmap, if_neg (by decide), List.range_one]
  simp only [List.foldlM_cons, List.foldlM_nil, hstep, Except.ok_bind]
  rfl

end Fresh

/-! ## Mapping and unmapping without a panic -/

section Succeeds

variable {root : ℕ}

/-- `mappages` never replaces a valid mapping: when it returns 0, no page of the range had a
leaf with `PTE_V` before. -/
theorem mappages_fresh {m : Phys} {l : List ℕ} (ht : PageTree m.mem root) (ha : Alloc m root l)
    {va size pa perm : ℕ} {m' : Phys} (h : mappages m root va size pa perm = .ok (0, m')) :
    ∀ b, PGROUNDDOWN va ≤ PGROUNDDOWN b → PGROUNDDOWN b ≤ PGROUNDDOWN (va + size - 1) →
      leaf m.mem root b &&& PTE_V = 0 := by
  intro b hb₁ hb₂
  -- the page of `b` is at most the last, which lies below `MAXVA`
  have hb : b < MAXVA := by
    have hlt := (mappages_leaves ht ha h).1
    have hl₀ := PGROUNDDOWN_mod (va + size - 1)
    simp only [PGROUNDDOWN, MAXVA, PGSIZE] at hlt hl₀ hb₂ ⊢
    omega
  obtain ⟨hsize, hloop⟩ := mappages_loop h
  exact mappagesLoop_fresh perm _ ht ha (PGROUNDDOWN_mod va) (last_page_eq hsize) hloop b hb hb₁ hb₂

theorem mappages_fresh_page0 :
    ∃ m', mappages freshPhys KERNBASE 0 PGSIZE (KERNBASE + 3 * PGSIZE) (PTE_R ||| PTE_U) = .ok (0, m') ∧
      leaf freshPhys.mem KERNBASE 7 &&& PTE_V = 0 := by
  obtain ⟨m', h⟩ := freshPhys_mappages
  exact ⟨m', h, mappages_fresh freshPhys_pageTree freshPhys_alloc h 7 (by decide) (by decide)⟩

/-- `mappages` returns 0 on a range below `MAXVA` that holds no valid mapping, when the free
list has two pages for each page of the range. -/
theorem mappages_succeeds {m : Phys} {l : List ℕ} (ht : PageTree m.mem root) (ha : Alloc m root l)
    {va size pa perm : ℕ} (hsize : size ≠ 0) (hlt : PGROUNDDOWN (va + size - 1) < MAXVA)
    (hfresh : ∀ b, PGROUNDDOWN va ≤ PGROUNDDOWN b → PGROUNDDOWN b ≤ PGROUNDDOWN (va + size - 1) →
      leaf m.mem root b &&& PTE_V = 0)
    (hl : 2 * ((PGROUNDDOWN (va + size - 1) - PGROUNDDOWN va) / PGSIZE + 1) ≤ l.length) :
    ∃ m', mappages m root va size pa perm = .ok (0, m') := by
  rw [mappages, if_neg hsize]
  exact mappagesLoop_ok perm _ ht ha (PGROUNDDOWN_mod va) (last_page_eq hsize) hlt hl
    fun b _ hb₁ hb₂ => hfresh b hb₁ hb₂

theorem mappages_succeeds_page0 :
    ∃ m', mappages freshPhys KERNBASE 0 PGSIZE (KERNBASE + 3 * PGSIZE) (PTE_R ||| PTE_U) = .ok (0, m') :=
  mappages_succeeds freshPhys_pageTree freshPhys_alloc (by decide) (by decide)
    (fun b _ _ => by rw [freshPhys_leaf, Nat.zero_and]) (by decide)

end Succeeds

section UvmunmapSucceeds

variable {m : Phys} {root va : ℕ} {f : Bool}

/-- `uvmunmap` does not panic on an aligned range below `MAXVA` whose pages all hold valid
leaf PTEs, when the frames it frees lie in `kfree`'s range and are no tables. -/
theorem uvmunmap_succeeds (ht : PageTree m.mem root) {npages : ℕ} (hal : va % PGSIZE = 0)
    (hlt : va + npages * PGSIZE ≤ MAXVA)
    (hleaf : ∀ k < npages, leaf m.mem root (va + k * PGSIZE) &&& PTE_V ≠ 0 ∧
      PTE_FLAGS (leaf m.mem root (va + k * PGSIZE)) ≠ PTE_V)
    (hf : f = true → ∀ k < npages, m.kend ≤ PTE2PA (leaf m.mem root (va + k * PGSIZE)) ∧
      PTE2PA (leaf m.mem root (va + k * PGSIZE)) < PHYSTOP ∧
      ∀ c, nodePage m.mem root c ≠ some (PTE2PA (leaf m.mem root (va + k * PGSIZE)))) :
    ∃ m', uvmunmap m root va npages f = .ok m' := by
  rw [uvmunmap, if_neg (not_not.mpr hal)]
  -- induction on the rounds; the first `n` left the tree and the later leaves as they were
  induction npages with
  | zero => exact ⟨m, rfl⟩
  | succ n ih =>
    obtain ⟨mₙ, hₙ⟩ := ih (by nlinarith [show 0 < PGSIZE by decide]) (fun k hk => hleaf k (by omega))
      (fun hf' k hk => hf hf' k (by omega))
    obtain ⟨hnₙ, hlₙ⟩ := uvmunmap_run ht hal n (fun hf' k hk => (hf hf' k (by omega)).2.2) hₙ
    have hkend : mₙ.kend = m.kend :=
      Except.foldlM_invariant (fun s : Phys => s.kend = m.kend) (fun s k s' hs h => (uvmunmapStep_kend h).trans hs)
        _ rfl hₙ
    have hva : va + n * PGSIZE < MAXVA := by
      have : 0 < PGSIZE := by decide
      nlinarith
    have hl : leaf mₙ.mem root (va + n * PGSIZE) = leaf m.mem root (va + n * PGSIZE) := by
      rw [hlₙ _ hva, if_neg (by omega)]
    obtain ⟨hv, hflags⟩ := hleaf n (by omega)
    obtain ⟨m', hstep⟩ := uvmunmapStep_succeeds (f := f) (ht.congr hnₙ) hva (hl ▸ hv) (hl ▸ hflags)
      (fun hf' => by
        obtain ⟨hk, hp, -⟩ := hf hf' n (by omega)
        rw [hkend, hl]
        exact ⟨hk, hp⟩)
    refine ⟨m', ?_⟩
    rw [List.range_succ, List.foldlM_append, hₙ, Except.ok_bind]
    simp only [List.foldlM_cons, List.foldlM_nil, hstep, Except.ok_bind]
    rfl

theorem uvmunmap_succeeds_page0 :
    ∃ m' m'', mappages freshPhys KERNBASE 0 PGSIZE (KERNBASE + 3 * PGSIZE) (PTE_R ||| PTE_U) = .ok (0, m') ∧
      uvmunmap m' KERNBASE 0 1 false = .ok m'' := by
  obtain ⟨m', h⟩ := freshPhys_mappages
  obtain ⟨ht', hl⟩ := freshPhys_mapped h
  have hl₀ : leaf m'.mem KERNBASE (0 + 0 * PGSIZE) = _ := hl
  have hu : ∃ m'', uvmunmap m' KERNBASE 0 1 false = .ok m'' :=
    uvmunmap_succeeds ht' (by decide) (by decide)
      (fun k hk => by
        obtain rfl : k = 0 := by omega
        rw [hl₀]
        decide)
      (fun hf => absurd hf Bool.false_ne_true)
  obtain ⟨m'', hu⟩ := hu
  exact ⟨m', m'', h, hu⟩

end UvmunmapSucceeds

/-! ## Translation through the mapped pages -/

section Translation

variable {root : ℕ}

theorem and_two_pow_eq_zero (n i : ℕ) : n &&& 2 ^ i = 0 ↔ n.testBit i = false := by
  rw [Nat.and_two_pow]
  cases n.testBit i <;> simp

theorem pte_val {x perm : ℕ} (hx : x < 2 ^ 56) (hperm : perm < 2 ^ 10) :
    (PA2PTE x ||| perm ||| PTE_V) % 2 ^ 64 = 2 ^ 10 * (x / 2 ^ 12) + (perm ||| PTE_V) := by
  have hr : perm ||| PTE_V < 2 ^ 10 := Nat.or_lt_two_pow hperm (by decide)
  rw [PA2PTE, Nat.or_assoc, Nat.mul_comm, ← Nat.two_pow_add_eq_or_of_lt hr, Nat.mod_eq_of_lt]
  omega

theorem testBit_pte {k r : ℕ} (hr : r < 2 ^ 10) {i : ℕ} (hi : i < 10) :
    (2 ^ 10 * k + r).testBit i = r.testBit i := by
  rw [Nat.testBit_two_pow_mul_add k hr, if_pos hi]

theorem PTE2PA_pte {k r : ℕ} (hr : r < 2 ^ 10) : PTE2PA (2 ^ 10 * k + r) = 2 ^ 12 * k := by
  unfold PTE2PA
  omega

theorem walkaddr_pte {m : Phys} (ht : PageTree m.mem root) {b x perm : ℕ} (hb : b < MAXVA)
    (hx : x % PGSIZE = 0) (hx' : x < 2 ^ 56) (hperm : perm < 2 ^ 10) (hu : perm &&& PTE_U ≠ 0)
    (hl : leaf m.mem root b = (PA2PTE x ||| perm ||| PTE_V) % 2 ^ 64) :
    walkaddr m root b = .ok x := by
  have hr : perm ||| PTE_V < 2 ^ 10 := Nat.or_lt_two_pow hperm (by decide)
  rw [pte_val hx' hperm] at hl
  have hv : leaf m.mem root b &&& PTE_V ≠ 0 := by
    rw [show PTE_V = 2 ^ 0 from rfl, Ne, and_two_pow_eq_zero, hl, testBit_pte hr (by omega), Nat.testBit_or]
    simp [PTE_V]
  have hu' : leaf m.mem root b &&& PTE_U ≠ 0 := by
    rw [show PTE_U = 2 ^ 4 from rfl, Ne, and_two_pow_eq_zero, hl, testBit_pte hr (by omega), Nat.testBit_or,
      Bool.or_eq_false_iff]
    rw [show PTE_U = 2 ^ 4 from rfl, Ne, and_two_pow_eq_zero] at hu
    exact fun h => hu h.1
  rw [walkaddr_leaf ht hb, if_neg hv, if_neg hu', hl, PTE2PA_pte hr]
  congr 1
  simp only [PGSIZE] at hx
  omega

/-- Mapping, then translating: after `mappages` returned 0 for frames of memory below `2^56`
with the user bit among the flags, each user address of the mapped pages reads the byte at
the same offset above `pa`, and every other page below `MAXVA` translates as before. -/
theorem mappages_translate {m : Phys} {l : List ℕ} (ht : PageTree m.mem root) (ha : Alloc m root l)
    {va size pa perm : ℕ} {m' : Phys} (h : mappages m root va size pa perm = .ok (0, m'))
    (hpa : pa % PGSIZE = 0) (hpa₀ : 0 < pa) (hperm : perm < 2 ^ 10) (hu : perm &&& PTE_U ≠ 0)
    (hend : pa + (PGROUNDDOWN (va + size - 1) - PGROUNDDOWN va) < 2 ^ 56) :
    (∀ x, PGROUNDDOWN va ≤ x → x < PGROUNDDOWN (va + size - 1) + PGSIZE →
      uread m' root x = some (m'.mem (pa + (x - PGROUNDDOWN va)))) ∧
    ∀ b < MAXVA, (PGROUNDDOWN b < PGROUNDDOWN va ∨ PGROUNDDOWN (va + size - 1) < PGROUNDDOWN b) →
      walkaddr m' root b = walkaddr m root b := by
  obtain ⟨hlast, ht', -, hl⟩ := mappages_leaves ht ha h
  refine ⟨fun x hx₁ hx₂ => ?_, fun b hb hout => ?_⟩
  · -- the page of `x` is one of the range, and its frame lies `PGROUNDDOWN x - PGROUNDDOWN va` above `pa`
    have hd := PGROUNDDOWN_mod x
    have hdx := PGROUNDDOWN_le x
    have ha₀ := PGROUNDDOWN_mod va
    have hdd : PGROUNDDOWN (PGROUNDDOWN x) = PGROUNDDOWN x := by
      simp only [PGROUNDDOWN, PGSIZE] at *
      omega
    have hin : PGROUNDDOWN va ≤ PGROUNDDOWN x ∧ PGROUNDDOWN x ≤ PGROUNDDOWN (va + size - 1) := by
      have hl₀ := PGROUNDDOWN_mod (va + size - 1)
      simp only [PGROUNDDOWN, PGSIZE] at *
      omega
    have hleaf := hl (PGROUNDDOWN x) (by omega)
    rw [hdd, if_pos hin] at hleaf
    have hframe : (pa + (PGROUNDDOWN x - PGROUNDDOWN va)) % PGSIZE = 0 := by
      simp only [PGSIZE] at *
      omega
    have hw := walkaddr_pte ht' (by omega) hframe (by omega) hperm hu hleaf
    unfold uread
    rw [hw]
    dsimp only
    have hne : pa + (PGROUNDDOWN x - PGROUNDDOWN va) ≠ 0 := by omega
    rw [if_neg hne]
    congr 2
    omega
  · have hn : ¬(PGROUNDDOWN va ≤ PGROUNDDOWN b ∧ PGROUNDDOWN b ≤ PGROUNDDOWN (va + size - 1)) := by omega
    rw [walkaddr_leaf ht' hb, walkaddr_leaf ht hb, hl b hb, if_neg hn]

theorem mappages_translate_page0 :
    ∃ m', mappages freshPhys KERNBASE 0 PGSIZE (KERNBASE + 3 * PGSIZE) (PTE_R ||| PTE_U) = .ok (0, m') ∧
      uread m' KERNBASE 5 = some (m'.mem (KERNBASE + 3 * PGSIZE + 5)) ∧
      walkaddr m' KERNBASE PGSIZE = walkaddr freshPhys KERNBASE PGSIZE := by
  obtain ⟨m', h⟩ := freshPhys_mappages
  obtain ⟨hread, hother⟩ := mappages_translate freshPhys_pageTree freshPhys_alloc h (by decide) (by decide)
    (by decide) (by decide) (by decide)
  exact ⟨m', h, hread 5 (by decide) (by decide), hother PGSIZE (by decide) (.inr (by decide))⟩

end Translation

/-! ## The address space the hardware sees -/

/-- What the tree maps `va` to, as the MMU reads it: the leaf, when it is valid. -/
def mapping (mem : ℕ → UInt8) (root va : ℕ) : Option ℕ :=
  if leaf mem root va &&& PTE_V = 0 then none else some (leaf mem root va)

/-- Mapping a range and then unmapping it gives the address space back: `mappages` found no
valid mapping in the range, and `uvmunmap` without freeing clears exactly the pages it
mapped. -/
theorem mappages_uvmunmap {m : Phys} {root : ℕ} {l : List ℕ} (ht : PageTree m.mem root)
    (ha : Alloc m root l) {va size pa perm : ℕ} {m' m'' : Phys}
    (h : mappages m root va size pa perm = .ok (0, m'))
    (h' : uvmunmap m' root (PGROUNDDOWN va)
      ((PGROUNDDOWN (va + size - 1) - PGROUNDDOWN va) / PGSIZE + 1) false = .ok m'') :
    ∀ b < MAXVA, mapping m''.mem root b = mapping m.mem root b := by
  obtain ⟨-, ht', -, hl⟩ := mappages_leaves ht ha h
  obtain ⟨-, hl''⟩ := uvmunmap_leaves ht' (fun hf => absurd hf Bool.false_ne_true) h'
  obtain ⟨hsize, hloop⟩ := mappages_loop h
  intro b hb
  -- the pages `uvmunmap` clears are those `mappages` mapped
  have hrange : (PGROUNDDOWN va ≤ b ∧
      b < PGROUNDDOWN va + ((PGROUNDDOWN (va + size - 1) - PGROUNDDOWN va) / PGSIZE + 1) * PGSIZE) ↔
      (PGROUNDDOWN va ≤ PGROUNDDOWN b ∧ PGROUNDDOWN b ≤ PGROUNDDOWN (va + size - 1)) := by
    have h₀ := PGROUNDDOWN_mod va
    have h₁ := PGROUNDDOWN_mod (va + size - 1)
    have h₂ := PGROUNDDOWN_mod b
    have h₃ := PGROUNDDOWN_le b
    have h₄ := PGROUNDDOWN_le (va + size - 1)
    simp only [PGROUNDDOWN, PGSIZE] at *
    constructor <;> intro h <;> omega
  unfold mapping
  rw [hl'' b hb]
  by_cases hin : PGROUNDDOWN va ≤ PGROUNDDOWN b ∧ PGROUNDDOWN b ≤ PGROUNDDOWN (va + size - 1)
  · -- `mappages` found the page unmapped
    have hfree := mappagesLoop_fresh perm _ ht ha (PGROUNDDOWN_mod va) (last_page_eq hsize) hloop b hb hin.1 hin.2
    rw [if_pos (hrange.mpr hin), Nat.zero_and, if_pos rfl, if_pos hfree]
  · rw [if_neg (fun h => hin (hrange.mp h)), hl b hb, if_neg hin]

theorem mappages_uvmunmap_page0 :
    ∃ m' m'', mappages freshPhys KERNBASE 0 PGSIZE (KERNBASE + 3 * PGSIZE) (PTE_R ||| PTE_U) = .ok (0, m') ∧
      uvmunmap m' KERNBASE 0 1 false = .ok m'' ∧ mapping m''.mem KERNBASE 0 = mapping freshPhys.mem KERNBASE 0 := by
  obtain ⟨m', h⟩ := freshPhys_mappages
  obtain ⟨m'', h'⟩ := freshPhys_uvmunmap h
  exact ⟨m', m'', h, h', mappages_uvmunmap freshPhys_pageTree freshPhys_alloc h h' 0 (by decide)⟩

end Xv6
