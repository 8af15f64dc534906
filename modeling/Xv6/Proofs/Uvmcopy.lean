import Xv6.Proofs.Uvmalloc

/-! `uvmcopy`, `fork`'s copy of the parent's memory, over two trees in one physical memory.
The child's tree grows beside its free list, and the parent's tables and frames are neither free
nor tables of the child's (`Apart`), so the table code never writes them. A copy that returned
`0` gave each page below `sz` a frame of its own holding the parent's bytes, mapped with the
parent's flags. One that returned `-1` ran out of pages, and its `err:` path unmapped and freed
the pages it had copied, writing only the child's tables and those copies. Either way the
parent's tree and frames are as they were. -/

namespace Xv6

open ByteMem

/-- The parent's tree beside the child's: its tables, and the frames its valid leaves below
`sz` point to, are neither free nor tables of the child's tree. -/
structure Apart (m : Phys) (old new : ℕ) (l : List ℕ) (sz : ℕ) : Prop where
  tree : PageTree m.mem old
  nodes : ∀ n p, nodePage m.mem old n = some p → Foreign m new l p
  frames : ∀ b < sz, leaf m.mem old b &&& PTE_V ≠ 0 → Foreign m new l (PTE2PA (leaf m.mem old b))

theorem PTE2PA_mod (v : ℕ) : PTE2PA v % PGSIZE = 0 := by
  unfold PTE2PA PGSIZE
  omega

theorem PGROUNDDOWN_frame (v : ℕ) {j : ℕ} (hj : j < PGSIZE) : PGROUNDDOWN (PTE2PA v + j) = PTE2PA v := by
  have := PTE2PA_mod v
  simp only [PGROUNDDOWN, PGSIZE] at this hj ⊢
  omega

theorem valid_pte (x : ℕ) : (x ||| PTE_V) % 2 ^ 64 &&& PTE_V ≠ 0 := by
  unfold PTE_V
  have h : (x ||| 1) % 2 = 1 := Nat.or_mod_two_eq_one.mpr (.inr rfl)
  rw [Nat.and_one_is_mod]
  omega

section Apart

variable {m m' : Phys} {old new sz : ℕ} {l l' : List ℕ}

theorem PageTree.keep {root : ℕ} (ht : PageTree m.mem root)
    (hk : ∀ n p, nodePage m.mem root n = some p → ∀ x, PGROUNDDOWN x = p → m'.mem x = m.mem x) :
    nodePage m'.mem root = nodePage m.mem root ∧ leaf m'.mem root = leaf m.mem root := by
  have hslot : ∀ n p, nodePage m.mem root n = some p → ∀ k < 512, entry m'.mem p k = entry m.mem p k := by
    intro n p hn k hk'
    have hal := (ht.page n p hn).1
    refine entry_congr hk' fun x hx₁ hx₂ => hk n p hn x ?_
    simp only [PGROUNDDOWN, PGSIZE] at hal hx₂ ⊢
    omega
  have hn := nodePage_congr fun n p h _ => hslot n p h
  exact ⟨hn, leaf_congr hn fun _ _ p h => hslot _ p h⟩

theorem Evolves.apart (he : Evolves m m' new l l') (hp : Apart m old new l sz) :
    nodePage m'.mem old = nodePage m.mem old ∧ leaf m'.mem old = leaf m.mem old ∧ Apart m' old new l' sz := by
  obtain ⟨hn, hl⟩ := hp.tree.keep fun n p h x hx => he.frame x (by rw [hx]; exact hp.nodes n p h)
  refine ⟨hn, hl, ⟨hp.tree.congr hn, fun n p h => he.foreign (hp.nodes n p ?_), fun b hb hv => ?_⟩⟩
  · rw [hn] at h
    exact h
  · rw [hl] at hv ⊢
    exact he.foreign (hp.frames b hb hv)

theorem Evolves.parent_frame (he : Evolves m m' new l l') (hp : Apart m old new l sz) {b : ℕ} (hb : b < sz)
    (hv : leaf m.mem old b &&& PTE_V ≠ 0) :
    ∀ j < PGSIZE, m'.mem (PTE2PA (leaf m.mem old b) + j) = m.mem (PTE2PA (leaf m.mem old b) + j) :=
  he.page (PTE2PA_mod _) (hp.frames b hb hv)

end Apart

/-! ## `fork`'s two tables -/

/-- `uvmcreate` beside a tree that shares its free list: the first free page becomes a root with
no table below it, and the other tree keeps its tables and leaves. -/
theorem uvmcreate_beside {m : Phys} {root : ℕ} {l : List ℕ} (ht : PageTree m.mem root) {q : ℕ}
    (ha : Alloc m root (q :: l)) :
    ∃ m', uvmcreate m = (q, m') ∧ PageTree m'.mem q ∧ Alloc m' q l ∧
      (∀ n p, nodePage m'.mem q n = some p → p = q) ∧ (∀ b, leaf m'.mem q b = 0) ∧
      PageTree m'.mem root ∧ Alloc m' root l ∧ Evolves m m' root (q :: l) l ∧
      leaf m'.mem root = leaf m.mem root ∧ Foreign m' root l q := by
  obtain ⟨m₁, hk, ht₁, ha₁, he₁, hl₁, hf₁, -⟩ := kalloc_take ht ha 0
  obtain ⟨m', hu, htq, haq, hlq⟩ := uvmcreate_tree ha.chain ha.nodup ha.page
  obtain ⟨-, rfl⟩ := Prod.mk.inj (hk.symm.trans (kalloc_eq ha))
  have hu' : uvmcreate m =
      (q, (({ m with freelist := readWord m.mem q 8 } : Phys).memset q 5 PGSIZE).memset q 0 PGSIZE) := by
    rw [uvmcreate, hk]
    dsimp only
    rw [if_neg (ha.page q List.mem_cons_self).ne_zero]
  obtain ⟨-, rfl⟩ := Prod.mk.inj (hu.symm.trans hu')
  exact ⟨_, hu', htq, haq, fun n p hn => (nodePage_of_zero (fun k hk => entry_fill_zero 5 hk) hn).2, hlq,
    ht₁, ha₁, he₁, hl₁, hf₁⟩

/-- From `kinit` at boot: a parent whose page 0 maps a zeroed frame of its own, and a child's
empty root beside it. -/
theorem fork_tables :
    ∃ m old new l, PageTree m.mem new ∧ Alloc m new l ∧ Apart m old new l PGSIZE ∧ 3 ≤ l.length ∧
      (∀ p ∈ grownPages 0 PGSIZE, leaf m.mem old p &&& PTE_V ≠ 0) ∧ ∀ b, leaf m.mem new b = 0 := by
  obtain ⟨m0, old, m₁, l, -, -, ht, ha, hl, hleaf, -⟩ := boot_table
  -- the parent's frame, zeroed and mapped at 0
  obtain ⟨q₀, l₁, rfl⟩ : ∃ q l₁, l = q :: l₁ := List.exists_cons_of_length_pos (by omega)
  have hq₀ := ha.page q₀ List.mem_cons_self
  obtain ⟨m₂, -, ht₂, ha₂, -, hleaf₂, hf₂, -⟩ := kalloc_take ht ha 0
  obtain ⟨m₃, l₂, -, hl₂, ht₃, ha₃, he₃, hleaf₃⟩ := mappages_page_ok ht₂ ha₂ (Nat.zero_mod _)
    (by decide) (by simp only [List.length_cons] at hl; omega) (by rw [hleaf₂, hleaf]; rfl) q₀ PTE_W
  -- the child's root, the next free page
  obtain ⟨c, l₃, rfl⟩ : ∃ c l₃, l₂ = c :: l₃ :=
    List.exists_cons_of_length_pos (by simp only [List.length_cons] at hl; omega)
  obtain ⟨m₄, -, htc, hac, hnc, hleafc, ht₄, ha₄, -, hleaf₄, hfc⟩ := uvmcreate_beside ht₃ ha₃
  have hf₃ := he₃.foreign hf₂
  have h0 : ∀ b < PGSIZE, leaf m₄.mem old b = (PA2PTE q₀ ||| PTE_W ||| PTE_V) % 2 ^ 64 := by
    intro b hb
    rw [hleaf₄, hleaf₃ b (by simp only [PGSIZE, MAXVA] at hb ⊢; omega),
      if_pos (by simp only [PGSIZE] at hb ⊢; omega)]
  refine ⟨m₄, old, c, l₃, htc, hac, ⟨ht₄, fun n p hn => ?_, fun b hb _ => ?_⟩, ?_, ?_, hleafc⟩
  · -- a table of the parent is neither free nor the child's root
    refine ⟨fun hp => ha₄.not_node p hp n hn, fun n' hn' => ?_⟩
    rw [hnc n' p hn'] at hn
    exact hfc.2 n hn
  · -- the parent's frame is neither free nor the child's root
    rw [h0 b hb, PTE2PA_leaf hq₀ (by decide)]
    refine ⟨fun hq => hf₃.1 (List.mem_cons_of_mem _ hq), fun n' hn' => ?_⟩
    exact hf₃.1 (by rw [hnc n' q₀ hn']; exact List.mem_cons_self)
  · simp only [List.length_cons] at hl hl₂
    omega
  · intro p hp
    rw [h0 p (mem_grownPages.mp hp).2.1]
    exact valid_pte _

/-! ## The loop of `uvmcopy` -/

section Uvmcopy

variable {old new sz : ℕ}

theorem uvmcopyErr_eq {m m' : Phys} {i : ℕ} {r : ℤ} (h : uvmcopyErr m new i = .ok (r, m')) :
    r = -1 ∧ uvmunmap m new 0 (i / PGSIZE) true = .ok m' := by
  obtain ⟨m'', hu, h⟩ := Except.bind_eq_ok.mp h
  cases h
  exact ⟨rfl, hu⟩

/-- One round of `uvmcopy`'s loop below `sz`: the parent's PTE for `i` was valid; then `kalloc`
found no page and the loop took the `err:` path, or `mappages` of the copy failed and the frame
was freed before it, or it succeeded and the loop goes on. -/
theorem uvmcopyLoop_round {fuel i : ℕ} {r : ℤ} {m m' : Phys} (hlt : i < sz)
    (h : uvmcopyLoop old new sz (fuel + 1) m i = .ok (r, m')) :
    ∃ pte m₀ v, walk m old i false = .ok (some pte, m₀) ∧ m.load pte = .ok v ∧ v &&& PTE_V ≠ 0 ∧
      (((kalloc m).1 = 0 ∧ uvmcopyErr (kalloc m).2 new i = .ok (r, m')) ∨
        ((kalloc m).1 ≠ 0 ∧ ∃ r' m₂, mappages ((kalloc m).2.memmove (kalloc m).1
            (readBytes (kalloc m).2.mem (PTE2PA v) PGSIZE)) new i PGSIZE (kalloc m).1 (PTE_FLAGS v) = .ok (r', m₂) ∧
          ((r' ≠ 0 ∧ ∃ m₃, kfree m₂ (kalloc m).1 = .ok m₃ ∧ uvmcopyErr m₃ new i = .ok (r, m')) ∨
            (r' = 0 ∧ uvmcopyLoop old new sz fuel m₂ (i + PGSIZE) = .ok (r, m'))))) := by
  rw [uvmcopyLoop, if_pos hlt, Except.bind_eq_ok] at h
  obtain ⟨⟨found, m₀⟩, hw, h⟩ := h
  cases found with
  | none => cases h
  | some pte =>
    obtain ⟨v, hv, h⟩ := Except.bind_eq_ok.mp h
    dsimp only at h
    by_cases hv0 : v &&& PTE_V = 0
    · rw [if_pos hv0] at h
      cases h
    rw [if_neg hv0] at h
    refine ⟨pte, m₀, v, hw, hv, hv0, ?_⟩
    rcases hk : kalloc m with ⟨q, m₁⟩
    rw [hk] at h
    dsimp only at h ⊢
    by_cases hq : q = 0
    · rw [if_pos hq] at h
      exact .inl ⟨hq, h⟩
    rw [if_neg hq] at h
    obtain ⟨⟨r', m₂⟩, hmp, h⟩ := Except.bind_eq_ok.mp h
    refine .inr ⟨hq, r', m₂, hmp, ?_⟩
    dsimp only at h
    by_cases hr : r' ≠ 0
    · rw [if_pos hr] at h
      obtain ⟨m₃, hf, h⟩ := Except.bind_eq_ok.mp h
      exact .inl ⟨hr, m₃, hf, h⟩
    · rw [if_neg hr] at h
      exact .inr ⟨not_not.mp hr, h⟩

theorem walk_lookup_load {m m₁ : Phys} {root va pte v : ℕ} (ht : PageTree m.mem root)
    (hw : walk m root va false = .ok (some pte, m₁)) (hv : m.load pte = .ok v) : v = leaf m.mem root va := by
  obtain ⟨-, -, p₀, hb, rfl⟩ := walk_lookup_some ht hw
  rw [load_entry (ht.page _ _ hb) (PX_lt 0 va), ← leaf_of_some hb] at hv
  exact (Except.ok.inj hv).symm

theorem kalloc_copy {m : Phys} {l : List ℕ} (ht : PageTree m.mem new) {q : ℕ} (ha : Alloc m new (q :: l))
    {pa : ℕ} (hpa : pa % PGSIZE = 0) (hne : pa ≠ q) :
    ∃ m₁, kalloc m = (q, m₁) ∧ PageTree (m₁.memmove q (readBytes m₁.mem pa PGSIZE)).mem new ∧
      Alloc (m₁.memmove q (readBytes m₁.mem pa PGSIZE)) new l ∧
      Evolves m (m₁.memmove q (readBytes m₁.mem pa PGSIZE)) new (q :: l) l ∧
      leaf (m₁.memmove q (readBytes m₁.mem pa PGSIZE)).mem new = leaf m.mem new ∧
      Foreign (m₁.memmove q (readBytes m₁.mem pa PGSIZE)) new l q ∧
      ∀ j < PGSIZE, (m₁.memmove q (readBytes m₁.mem pa PGSIZE)).mem (q + j) = m.mem (pa + j) := by
  have hq := (ha.page q List.mem_cons_self).1
  set m₁ : Phys := ({ m with freelist := readWord m.mem q 8 } : Phys).memset q 5 PGSIZE
  have hout : ∀ x, x < q ∨ q + PGSIZE ≤ x →
      (m₁.memmove q (readBytes m₁.mem pa PGSIZE)).mem x = m.mem x := by
    intro x hx
    simp only [m₁, Phys.memmove, Phys.memset]
    rcases hx with hx | hx
    · rw [writeBytes_of_lt hx, fill_of_not_mem (.inl hx)]
    · rw [writeBytes_of_le (by rw [length_readBytes]; exact hx), fill_of_not_mem (.inr hx)]
  obtain ⟨ht₁, ha₁, he₁, hl₁, hf₁⟩ := take_page ht ha hout rfl rfl
  refine ⟨m₁, kalloc_eq ha, ht₁, ha₁, he₁, hl₁, hf₁, fun j hj => ?_⟩
  -- the source page lies outside `q`, so the `memset` of `q` did not touch it
  have hd : PGROUNDDOWN (pa + j) ≠ q := by
    have : PGROUNDDOWN (pa + j) = pa := by
      simp only [PGROUNDDOWN, PGSIZE] at hpa hj ⊢
      omega
    rwa [this]
  simp only [m₁, Phys.memmove, Phys.memset]
  rw [writeBytes_add (by rw [length_readBytes]; exact hj), getD_readBytes hj, fill_of_not_mem (outside_page hq hd)]

/-- What a copy from `i` below `sz` of the parent's leaves `pte` left: each page maps a frame
of its own with the parent's flags, and the frame holds the bytes of the parent's. -/
structure Copied (m m' : Phys) (new : ℕ) (l l' : List ℕ) (i sz : ℕ) (pte fr : ℕ → ℕ) : Prop
    extends Mapped m m' new l l' i sz (fun p => PTE_FLAGS (pte p)) fr where
  valid : ∀ p ∈ grownPages i sz, pte p &&& PTE_V ≠ 0
  bytes : ∀ p ∈ grownPages i sz, ∀ j < PGSIZE, m'.mem (fr p + j) = m.mem (PTE2PA (pte p) + j)

theorem Copied.nil {m : Phys} {l : List ℕ} {i : ℕ} (ht : PageTree m.mem new) (ha : Alloc m new l) (hle : sz ≤ i)
    (pte fr : ℕ → ℕ) : Copied m m new l l i sz pte fr :=
  ⟨.nil ht ha hle _ fr, fun p hp => absurd (mem_grownPages.mp hp) (by omega),
    fun p hp => absurd (mem_grownPages.mp hp) (by omega)⟩

theorem uvmcopyLoop_copies (n : ℕ) :
    ∀ {m m' : Phys} {i : ℕ} {l : List ℕ}, PageTree m.mem new → Alloc m new l → Apart m old new l sz →
      i % PGSIZE = 0 → sz ≤ i + n * PGSIZE → uvmcopyLoop old new sz n m i = .ok (0, m') →
      ∃ l' fr, Copied m m' new l l' i sz (leaf m.mem old) fr := by
  -- induction on the rounds left; the round is `kalloc_copy` then `mappages_page`
  induction n with
  | zero =>
    intro m m' i l ht ha _ _ hfuel h
    rw [uvmcopyLoop] at h
    cases h
    exact ⟨l, id, .nil ht ha (by omega) _ id⟩
  | succ n ih =>
    intro m m' i l ht ha hp hal hfuel h
    by_cases hlt : i < sz
    swap
    · rw [uvmcopyLoop, if_neg hlt] at h
      cases h
      exact ⟨l, id, .nil ht ha (by omega) _ id⟩
    obtain ⟨pte, m₀, v, hw, hv, hvalid, hround⟩ := uvmcopyLoop_round hlt h
    rcases hround with ⟨-, herr⟩ | ⟨hq, r', m₂, hmp, ⟨-, m₃, -, herr⟩ | ⟨rfl, hrest⟩⟩
    · exact absurd (uvmcopyErr_eq herr).1 (by decide)
    · exact absurd (uvmcopyErr_eq herr).1 (by decide)
    -- the PTE the parent's `walk` found holds its leaf, which points to a frame apart from the child
    obtain rfl := walk_lookup_load hp.tree hw hv
    have hpa := hp.frames i hlt hvalid
    obtain ⟨q, l₁, rfl⟩ := ha.exists_cons hq
    obtain ⟨m₁, hk, ht₁, ha₁, he₁, hleaf₁, hfq, hcopy⟩ :=
      kalloc_copy ht ha (PTE2PA_mod _) fun e => hpa.1 (e ▸ List.mem_cons_self)
    simp only [hk] at hmp
    obtain ⟨l₂, ht₂, ha₂, he₂, ⟨h1, -⟩ | ⟨-, -, -, hleaf₂⟩⟩ := mappages_page ht₁ ha₁ hal hmp
    · cases h1
    have he := he₁.trans he₂
    obtain ⟨-, hold₂, hp₂⟩ := he.apart hp
    have hal' : (i + PGSIZE) % PGSIZE = 0 := (Nat.add_mod_right i PGSIZE).trans hal
    obtain ⟨l', fr, g⟩ := ih ht₂ ha₂ hp₂ hal' (by rw [Nat.add_mul, Nat.one_mul] at hfuel; omega) hrest
    rw [hold₂] at g
    have hleaf : ∀ b < MAXVA, leaf m₂.mem new b = if b / PGSIZE = i / PGSIZE then
        (PA2PTE q ||| PTE_FLAGS (leaf m.mem old i) ||| PTE_V) % 2 ^ 64 else leaf m.mem new b := by
      intro b hb
      rw [hleaf₂ b hb, hleaf₁]
    have hq := (ha.page q List.mem_cons_self).1
    refine ⟨l', Function.update fr i q, ⟨.cons hal hlt he (he₂.foreign hfq) hleaf g.toMapped, fun p hp' => ?_,
      fun p hp' j hj => ?_⟩⟩
    · by_cases hpi : p = i
      · rw [hpi]
        exact hvalid
      · exact g.valid p (grownPages_succ hal hp' hpi)
    · by_cases hpi : p = i
      -- this round's copy, which the rest of the loop did not touch
      · rw [hpi, Function.update_self, g.evolves.page hq (he₂.foreign hfq) j hj, he₂.page hq hfq j hj]
        exact hcopy j hj
      -- a later round's copy, of a parent frame this round did not touch
      · have hp'' := grownPages_succ hal hp' hpi
        rw [Function.update_of_ne hpi, g.bytes p hp'' j hj]
        exact he.parent_frame hp (mem_grownPages.mp hp'').2.1 (g.valid p hp'') j hj

/-- A round whose parent PTE was valid, whose page `kalloc` found and whose copy `mappages`
mapped goes on with the next page. -/
theorem uvmcopyLoop_next {fuel i pte v q : ℕ} {m m₁ m₂ : Phys} (hlt : i < sz)
    (hw : walk m old i false = .ok (some pte, m)) (hld : m.load pte = .ok v) (hv : v &&& PTE_V ≠ 0)
    (hk : kalloc m = (q, m₁)) (hq : q ≠ 0)
    (hmp : mappages (m₁.memmove q (readBytes m₁.mem (PTE2PA v) PGSIZE)) new i PGSIZE q (PTE_FLAGS v) =
      .ok (0, m₂)) :
    uvmcopyLoop old new sz (fuel + 1) m i = uvmcopyLoop old new sz fuel m₂ (i + PGSIZE) := by
  simp only [uvmcopyLoop, if_pos hlt, hw, hld, Except.ok_bind, if_neg hv, hk, if_neg hq, hmp]
  rfl

/-- The loop does not fail when the parent maps each page from `i` below `sz`, the child maps
none of them, and the free list holds three pages for each: its copy and at most two tables. -/
theorem uvmcopyLoop_ok (n : ℕ) :
    ∀ {m : Phys} {i : ℕ} {l : List ℕ}, PageTree m.mem new → Alloc m new l → Apart m old new l sz →
      i % PGSIZE = 0 → sz ≤ MAXVA → 3 * ((sz - i + PGSIZE - 1) / PGSIZE) ≤ l.length →
      (∀ p ∈ grownPages i sz, leaf m.mem old p &&& PTE_V ≠ 0) →
      (∀ b < MAXVA, i ≤ PGROUNDDOWN b → PGROUNDDOWN b < sz → leaf m.mem new b &&& PTE_V = 0) →
      ∃ m', uvmcopyLoop old new sz n m i = .ok (0, m') := by
  -- induction on the rounds left; a round is `kalloc_copy` then `mappages_page_ok`
  induction n with
  | zero =>
    intro m _ _ _ _ _ _ _ _ _ _
    exact ⟨m, rfl⟩
  | succ n ih =>
    intro m i l ht ha hp hal hmax hl hvalid hfresh
    by_cases hlt : i < sz
    swap
    · exact ⟨m, by rw [uvmcopyLoop, if_neg hlt]; rfl⟩
    rw [pages_succ hal hlt] at hl
    generalize hrest : (sz - (i + PGSIZE) + PGSIZE - 1) / PGSIZE = k at hl
    obtain ⟨q, l₁, rfl⟩ : ∃ q l₁, l = q :: l₁ := by
      cases l with
      | nil => simp at hl
      | cons q l₁ => exact ⟨q, l₁, rfl⟩
    rw [List.length_cons] at hl
    have hva : i < MAXVA := by omega
    have hda : PGROUNDDOWN i = i := by
      simp only [PGROUNDDOWN, PGSIZE] at hal ⊢
      omega
    -- the parent's PTE for `i`, whose frame lies apart from the child
    have hv := hvalid i ⟨le_rfl, hlt, hal⟩
    obtain ⟨pte, hw, hld⟩ := walk_leaf hp.tree hva (fun h0 => hv (by rw [h0, Nat.zero_and])) false
    have hpa := hp.frames i hlt hv
    obtain ⟨m₁, hk, ht₁, ha₁, he₁, hleaf₁, -, -⟩ :=
      kalloc_copy ht ha (PTE2PA_mod _) fun e => hpa.1 (e ▸ List.mem_cons_self)
    have hfree :
        leaf (m₁.memmove q (readBytes m₁.mem (PTE2PA (leaf m.mem old i)) PGSIZE)).mem new i &&& PTE_V = 0 := by
      rw [hleaf₁]
      exact hfresh i hva (by omega) (by omega)
    obtain ⟨m₂, l₂, hmp, hl₂, ht₂, ha₂, he₂, hleaf₂⟩ :=
      mappages_page_ok ht₁ ha₁ hal hva (by omega) hfree q (PTE_FLAGS (leaf m.mem old i))
    obtain ⟨-, hold₂, hp₂⟩ := (he₁.trans he₂).apart hp
    obtain ⟨m', h⟩ := ih (i := i + PGSIZE) ht₂ ha₂ hp₂ (by simp only [PGSIZE] at hal ⊢; omega) hmax
      (by rw [hrest]; omega) (fun p hp' => by
        rw [hold₂]
        exact hvalid p (by simp only [mem_grownPages] at hp' ⊢; omega)) fun b hb hb₁ hb₂ => by
        have hpage : ¬b / PGSIZE = i / PGSIZE := fun h => by
          have := (page_eq_iff hal).mp h
          simp only [PGSIZE] at hb₁ this
          omega
        rw [hleaf₂ b hb, if_neg hpage, hleaf₁]
        exact hfresh b hb (by omega) hb₂
    exact ⟨m', (uvmcopyLoop_next hlt hw hld hv hk (ha.page q List.mem_cons_self).ne_zero hmp).trans h⟩

/-- `uvmcopy` that returned `0` gave the child, for each page below `sz`, a frame of its own off
the free list, mapped with the parent's flags and holding the parent's bytes, and changed no
other leaf of the child; the parent's leaves and the bytes of its frames are as they were. -/
theorem uvmcopy_copies {m m' : Phys} {l : List ℕ} (ht : PageTree m.mem new) (ha : Alloc m new l)
    (hp : Apart m old new l sz) (h : uvmcopy m old new sz = .ok (0, m')) :
    (∃ l' fr, Copied m m' new l l' 0 sz (leaf m.mem old) fr) ∧ leaf m'.mem old = leaf m.mem old ∧
      ∀ b < sz, leaf m.mem old b &&& PTE_V ≠ 0 → ∀ j < PGSIZE,
        m'.mem (PTE2PA (leaf m.mem old b) + j) = m.mem (PTE2PA (leaf m.mem old b) + j) := by
  obtain ⟨l', fr, g⟩ := uvmcopyLoop_copies _ ht ha hp (Nat.zero_mod _) (by simp only [PGSIZE]; omega) h
  obtain ⟨-, hold, -⟩ := g.evolves.apart hp
  exact ⟨⟨l', fr, g⟩, hold, fun b hb hv => g.evolves.parent_frame hp hb hv⟩

theorem uvmcopy_copies_boot :
    ∃ m old new l m', PageTree m.mem new ∧ Alloc m new l ∧ Apart m old new l PGSIZE ∧
      uvmcopy m old new PGSIZE = .ok (0, m') ∧
      (∃ l' fr, Copied m m' new l l' 0 PGSIZE (leaf m.mem old) fr) ∧ leaf m'.mem old = leaf m.mem old ∧
      ∀ b < PGSIZE, leaf m.mem old b &&& PTE_V ≠ 0 → ∀ j < PGSIZE,
        m'.mem (PTE2PA (leaf m.mem old b) + j) = m.mem (PTE2PA (leaf m.mem old b) + j) := by
  obtain ⟨m, old, new, l, ht, ha, hp, hl, hv, hleaf⟩ := fork_tables
  obtain ⟨m', h⟩ := uvmcopyLoop_ok (PGSIZE / PGSIZE + 1) ht ha hp (Nat.zero_mod _) (by decide)
    (le_trans (by decide) hl) hv fun b _ _ _ => by rw [hleaf, Nat.zero_and]
  exact ⟨m, old, new, l, m', ht, ha, hp, h, uvmcopy_copies ht ha hp h⟩

/-- `uvmcopy` returns `0` when `sz` is at most `MAXVA`, the parent maps each page below it and
the child none, and the free list holds three pages for each. -/
theorem uvmcopy_succeeds {m : Phys} {l : List ℕ} (ht : PageTree m.mem new) (ha : Alloc m new l)
    (hp : Apart m old new l sz) (hmax : sz ≤ MAXVA) (hl : 3 * ((sz + PGSIZE - 1) / PGSIZE) ≤ l.length)
    (hvalid : ∀ p ∈ grownPages 0 sz, leaf m.mem old p &&& PTE_V ≠ 0)
    (hfresh : ∀ b < MAXVA, PGROUNDDOWN b < sz → leaf m.mem new b &&& PTE_V = 0) :
    ∃ m', uvmcopy m old new sz = .ok (0, m') :=
  uvmcopyLoop_ok _ ht ha hp (Nat.zero_mod _) hmax (by rwa [Nat.sub_zero]) hvalid fun b hb _ h => hfresh b hb h

theorem uvmcopy_succeeds_boot :
    ∃ m old new l, PageTree m.mem new ∧ Alloc m new l ∧ Apart m old new l PGSIZE ∧
      ∃ m', uvmcopy m old new PGSIZE = .ok (0, m') := by
  obtain ⟨m, old, new, l, ht, ha, hp, hl, hv, hleaf⟩ := fork_tables
  exact ⟨m, old, new, l, ht, ha, hp,
    uvmcopy_succeeds ht ha hp (by decide) (le_trans (by decide) hl) hv fun b _ _ => by rw [hleaf, Nat.zero_and]⟩

end Uvmcopy

/-! ## A copy that failed -/

section Undo

variable {old new sz : ℕ}

theorem uvmunmap_frame {m m' : Phys} {root va npages x : ℕ} (ht : PageTree m.mem root) (hal : va % PGSIZE = 0)
    (hf : ∀ k < npages, ∀ c, nodePage m.mem root c ≠ some (PTE2PA (leaf m.mem root (va + k * PGSIZE))))
    (h : (List.range npages).foldlM (uvmunmapStep root va true) m = .ok m')
    (hn : ∀ i j, nodePage m.mem root (.bot i j) ≠ some (PGROUNDDOWN x))
    (hx : ∀ k < npages, PGROUNDDOWN x ≠ PTE2PA (leaf m.mem root (va + k * PGSIZE))) :
    m'.mem x = m.mem x := by
  -- induction on the rounds, peeling the last one off the end of `List.range`, as in `uvmunmap_run`
  induction npages generalizing m' with
  | zero =>
    cases h
    rfl
  | succ n ih =>
    rw [List.range_succ, List.foldlM_append, Except.bind_eq_ok] at h
    obtain ⟨mₙ, hₙ, hstep⟩ := h
    simp only [List.foldlM_cons, List.foldlM_nil, bind_pure] at hstep
    obtain ⟨hnₙ, hlₙ⟩ := uvmunmap_run ht hal n (fun _ k hk => hf k (by omega)) hₙ
    have htₙ := ht.congr hnₙ
    -- round `n` frees the frame its leaf held in `m`, and clears a slot of a table of `m`
    obtain ⟨pte, v, m₁, m₂, hw, hld, -, -, hm₂, rfl⟩ := uvmunmapStep_ok hstep
    obtain ⟨hva, -, p₀, hb, rfl⟩ := walk_lookup_some htₙ hw
    obtain rfl := walk_lookup_load htₙ hw hld
    have hv : leaf mₙ.mem root (va + n * PGSIZE) = leaf m.mem root (va + n * PGSIZE) := by
      rw [hlₙ _ hva, if_neg (by omega)]
    rw [if_pos rfl, hv] at hm₂
    obtain ⟨-, hout⟩ := kfree_frame hm₂
    have hp₀ := (htₙ.page _ _ hb).1
    rw [hnₙ] at hb
    have hslot : x < p₀ + 8 * PX 0 (va + n * PGSIZE) ∨ p₀ + 8 * PX 0 (va + n * PGSIZE) + 8 ≤ x := by
      have hout₀ := outside_page hp₀ fun e => hn _ _ (e ▸ hb)
      have hpx := PX_lt 0 (va + n * PGSIZE)
      simp only [PGSIZE] at hout₀ hpx ⊢
      omega
    calc (m₂.store (p₀ + 8 * PX 0 (va + n * PGSIZE)) 0).mem x
        = m₂.mem x := by rw [Phys.mem_store, writeWord_of_not_mem hslot]
      _ = mₙ.mem x := hout x (outside_page (PTE2PA_mod _) (hx n (by omega)))
      _ = m.mem x := ih (fun k hk => hf k (by omega)) hₙ fun k hk => hx k (by omega)

/-- A copy part way, from `0` to `i`: the child's side of the rounds so far, over the child's
leaves in `m₀`; the parent apart from the child, with its tables, leaves and frames as in
`m₀`; and no frame the copy took is a table or a frame of the parent. -/
structure Copying (m₀ m : Phys) (old new : ℕ) (l : List ℕ) (sz i : ℕ) (fr : ℕ → ℕ) : Prop where
  child : Partial m₀ m new l 0 i (fun p => PTE_FLAGS (leaf m₀.mem old p)) fr
  apart : Apart m old new l sz
  nodes : nodePage m.mem old = nodePage m₀.mem old
  leaves : leaf m.mem old = leaf m₀.mem old
  bytes : ∀ b < sz, leaf m₀.mem old b &&& PTE_V ≠ 0 → ∀ j < PGSIZE,
    m.mem (PTE2PA (leaf m₀.mem old b) + j) = m₀.mem (PTE2PA (leaf m₀.mem old b) + j)
  taken : ∀ p ∈ grownPages 0 i, (∀ n, nodePage m₀.mem old n ≠ some (fr p)) ∧
    ∀ b < sz, leaf m₀.mem old b &&& PTE_V ≠ 0 → fr p ≠ PTE2PA (leaf m₀.mem old b)

namespace Copying

variable {m₀ m : Phys} {l : List ℕ} {i : ℕ} {fr : ℕ → ℕ}

theorem init (ht : PageTree m.mem new) (ha : Alloc m new l) (hp : Apart m old new l sz) (fr : ℕ → ℕ) :
    Copying m m old new l sz 0 fr :=
  ⟨.init ht ha (Nat.zero_mod _) _ fr, hp, rfl, rfl, fun _ _ _ _ _ => rfl,
    fun p hp => absurd (mem_grownPages.mp hp) (by omega)⟩

theorem next {q : ℕ} {l₁ : List ℕ} (hc : Copying m₀ m old new (q :: l₁) sz i fr) {m₁ m₂ : Phys}
    {l₂ : List ℕ} (he₁ : Evolves m m₁ new (q :: l₁) l₁) (hleaf₁ : leaf m₁.mem new = leaf m.mem new)
    (hfq : Foreign m₁ new l₁ q) (ht₂ : PageTree m₂.mem new) (ha₂ : Alloc m₂ new l₂)
    (he₂ : Evolves m₁ m₂ new l₁ l₂) (hva : i < MAXVA)
    (hfree : leaf m₁.mem new i &&& PTE_V = 0)
    (hleaf₂ : ∀ b < MAXVA, leaf m₂.mem new b = if b / PGSIZE = i / PGSIZE then
      (PA2PTE q ||| PTE_FLAGS (leaf m.mem old i) ||| PTE_V) % 2 ^ 64 else leaf m₁.mem new b) :
    Copying m₀ m₂ old new l₂ sz (i + PGSIZE) (Function.update fr i q) := by
  have hal := hc.child.aligned
  obtain ⟨hn₂, hl₂, hp₂⟩ := (he₁.trans he₂).apart hc.apart
  refine ⟨hc.child.next he₁ hleaf₁ hfq ht₂ ha₂ he₂ hva hfree fun b hb => by rw [hleaf₂ b hb, hc.leaves],
    hp₂, hn₂.trans hc.nodes, hl₂.trans hc.leaves, fun b hb hv j hj => ?_, fun p hp => ?_⟩
  · rw [← hc.bytes b hb hv j hj, ← hc.leaves]
    exact (he₁.trans he₂).parent_frame hc.apart hb (by rw [hc.leaves]; exact hv) j hj
  · by_cases hpi : p = i
    -- `q` was free, so it is neither a table nor a frame of the parent
    · rw [hpi, Function.update_self]
      refine ⟨fun n h => (hc.apart.nodes n q (by rw [hc.nodes]; exact h)).1 List.mem_cons_self,
        fun b hb hv e => (hc.apart.frames b hb (by rw [hc.leaves]; exact hv)).1 ?_⟩
      rw [hc.leaves, ← e]
      exact List.mem_cons_self
    · rw [Function.update_of_ne hpi]
      exact hc.taken p (by simp only [mem_grownPages, PGSIZE] at hp hal ⊢; omega)

theorem free {q : ℕ} {l₁ : List ℕ} (hc : Copying m₀ m old new (q :: l₁) sz i fr) {m₂ m₃ : Phys}
    {l₂ : List ℕ}
    (he : Evolves m m₂ new (q :: l₁) l₂) (ht₂ : PageTree m₂.mem new) (ha₂ : Alloc m₂ new l₂)
    (hleaf : leaf m₂.mem new = leaf m.mem new) (hfq : Foreign m₂ new l₂ q) (hf : kfree m₂ q = .ok m₃) :
    Copying m₀ m₃ old new (q :: l₂) sz i fr := by
  obtain ⟨hpart, hn₃⟩ := hc.child.back he ht₂ ha₂ hleaf hfq hf
  obtain ⟨hn₂, hl₂, hp₂⟩ := he.apart hc.apart
  obtain ⟨hal, hout⟩ := kfree_frame hf
  -- `q` was free, so it is neither a table nor a frame of the parent
  have hnode : ∀ n p, nodePage m₂.mem old n = some p → p ≠ q := fun n p h e =>
    (hc.apart.nodes n p (by rw [← hn₂]; exact h)).1 (e ▸ List.mem_cons_self)
  have hframe : ∀ b < sz, leaf m₂.mem old b &&& PTE_V ≠ 0 → PTE2PA (leaf m₂.mem old b) ≠ q :=
    fun b hb hv e =>
    (hc.apart.frames b hb (by rw [← hl₂]; exact hv)).1 (by rw [← hl₂, e]; exact List.mem_cons_self)
  obtain ⟨hn₃', hl₃'⟩ := hp₂.tree.frame hal (fun n h => hnode n q h rfl) hout
  have hbytes : ∀ b < sz, leaf m₂.mem old b &&& PTE_V ≠ 0 → ∀ j < PGSIZE,
      m₃.mem (PTE2PA (leaf m₂.mem old b) + j) = m₂.mem (PTE2PA (leaf m₂.mem old b) + j) := fun b hb hv j hj =>
    hout _ (outside_page hal (by rw [PGROUNDDOWN_frame _ hj]; exact hframe b hb hv))
  refine ⟨hpart, ⟨hp₂.tree.congr hn₃', fun n p h => ?_, fun b hb hv => ?_⟩,
    hn₃'.trans (hn₂.trans hc.nodes), hl₃'.trans (hl₂.trans hc.leaves), fun b hb hv j hj => ?_, hc.taken⟩
  · rw [hn₃'] at h
    refine ⟨fun hmem => ?_, fun n' => by rw [hn₃]; exact (hp₂.nodes n p h).2 n'⟩
    rcases List.mem_cons.mp hmem with e | e
    · exact hnode n p h e
    · exact (hp₂.nodes n p h).1 e
  · rw [hl₃'] at hv ⊢
    refine ⟨fun hmem => ?_, fun n' => by rw [hn₃]; exact (hp₂.frames b hb hv).2 n'⟩
    rcases List.mem_cons.mp hmem with e | e
    · exact hframe b hb hv e
    · exact (hp₂.frames b hb hv).1 e
  · have hv₂ : leaf m₂.mem old b &&& PTE_V ≠ 0 := by rw [hl₂, hc.leaves]; exact hv
    rw [← hc.bytes b hb hv j hj, ← hc.leaves, ← hl₂, hbytes b hb hv₂ j hj, hl₂]
    exact he.parent_frame hc.apart hb (by rw [hc.leaves]; exact hv) j hj

/-- The `err:` path: `uvmunmap(new, 0, i / PGSIZE, 1)` unmaps and frees the pages copied so far.
Every address of the child translates as in `m₀`, and the parent's leaves and frames are as
they were. -/
theorem unmap (hc : Copying m₀ m old new l sz i fr) {m' : Phys} (h : uvmunmap m new 0 (i / PGSIZE) true = .ok m') :
    PageTree m'.mem new ∧ (∀ b < MAXVA, mapping m'.mem new b = mapping m₀.mem new b) ∧
      leaf m'.mem old = leaf m₀.mem old ∧ ∀ b < sz, leaf m₀.mem old b &&& PTE_V ≠ 0 → ∀ j < PGSIZE,
        m'.mem (PTE2PA (leaf m₀.mem old b) + j) = m₀.mem (PTE2PA (leaf m₀.mem old b) + j) := by
  have hperm : ∀ p, PTE_FLAGS (leaf m₀.mem old p) < 2 ^ 10 := fun p => Nat.mod_lt _ (by decide)
  rw [← Nat.sub_zero i] at h
  obtain ⟨ht', hmap⟩ := hc.child.unmap hperm (Nat.zero_mod _) h
  -- the frames it frees are the copies, which are no tables
  have hfreed := fun {k} (hk : k < (i - 0) / PGSIZE) => hc.child.freed hperm (Nat.zero_mod _) hk
  have hf : ∀ k < (i - 0) / PGSIZE, ∀ c,
      nodePage m.mem new c ≠ some (PTE2PA (leaf m.mem new (0 + k * PGSIZE))) := by
    intro k hk c
    rw [(hfreed hk).2]
    exact (hc.child.frame _ (hfreed hk).1).2.2 c
  rw [uvmunmap, if_neg (by simp)] at h
  -- it writes no page of the parent: those are no tables of the child and no copies
  have hkeep : ∀ x, (∀ c, nodePage m.mem new c ≠ some (PGROUNDDOWN x)) →
      (∀ p ∈ grownPages 0 i, PGROUNDDOWN x ≠ fr p) → m'.mem x = m.mem x := fun x hn hx =>
    uvmunmap_frame hc.child.table (Nat.zero_mod _) hf h (fun i j => hn (.bot i j)) fun k hk => by
      rw [(hfreed hk).2]
      exact hx _ (hfreed hk).1
  obtain ⟨hn', hl'⟩ := hc.apart.tree.keep fun n p hp x hx => hkeep x (by rw [hx]; exact (hc.apart.nodes n p hp).2)
    fun q hq e => (hc.taken q hq).1 n (by rw [← hc.nodes, ← e, hx]; exact hp)
  refine ⟨ht', hmap, hl'.trans hc.leaves, fun b hb hv j hj => ?_⟩
  have hv' : leaf m.mem old b &&& PTE_V ≠ 0 := by rw [hc.leaves]; exact hv
  have hd := PGROUNDDOWN_frame (leaf m₀.mem old b) hj
  rw [← hc.bytes b hb hv j hj]
  refine hkeep _ (by rw [hd, ← hc.leaves]; exact (hc.apart.frames b hb hv').2) fun q hq e => ?_
  rw [hd] at e
  exact (hc.taken q hq).2 b hb hv e.symm

end Copying

/-- The loop that returned `-1` failed in some round, and its `err:` path undid the rounds
before it. -/
theorem uvmcopyLoop_undo {m₀ : Phys} (n : ℕ) :
    ∀ {m m' : Phys} {i : ℕ} {l : List ℕ} {fr : ℕ → ℕ}, Copying m₀ m old new l sz i fr →
      uvmcopyLoop old new sz n m i = .ok (-1, m') →
      PageTree m'.mem new ∧ (∀ b < MAXVA, mapping m'.mem new b = mapping m₀.mem new b) ∧
        leaf m'.mem old = leaf m₀.mem old ∧ ∀ b < sz, leaf m₀.mem old b &&& PTE_V ≠ 0 → ∀ j < PGSIZE,
          m'.mem (PTE2PA (leaf m₀.mem old b) + j) = m₀.mem (PTE2PA (leaf m₀.mem old b) + j) := by
  -- induction on the rounds left, carrying what the rounds before copied
  induction n with
  | zero =>
    intro m m' i l fr _ h
    rw [uvmcopyLoop] at h
    cases h
  | succ n ih =>
    intro m m' i l fr hc h
    by_cases hlt : i < sz
    swap
    · rw [uvmcopyLoop, if_neg hlt] at h
      cases h
    obtain ⟨pte, m₁, v, hw, hv, hvalid, hround⟩ := uvmcopyLoop_round hlt h
    obtain rfl := walk_lookup_load hc.apart.tree hw hv
    rcases hround with ⟨h0, herr⟩ | ⟨hq, r', m₂, hmp, hfail | ⟨rfl, hrest⟩⟩
    · -- no page for the copy
      rw [kalloc_zero h0] at herr
      exact hc.unmap (uvmcopyErr_eq herr).2
    all_goals
      obtain ⟨q, l₁, rfl⟩ : ∃ q l₁, l = q :: l₁ := by
        cases l with
        | nil => exact absurd ((kalloc_chain hc.child.alloc.chain (fun q hq => (hc.child.alloc.page q hq).1)
            hc.child.alloc.nodup).1) hq
        | cons q l₁ => exact ⟨q, l₁, rfl⟩
      obtain ⟨m₁, hk, ht₁, ha₁, he₁, hleaf₁, hfq, -⟩ := kalloc_copy hc.child.table hc.child.alloc
        (PTE2PA_mod _) fun e => (hc.apart.frames i hlt hvalid).1 (e ▸ List.mem_cons_self)
      simp only [hk] at hmp
      obtain ⟨l₂, ht₂, ha₂, he₂, ⟨hr, hleaf₂⟩ | ⟨hr, hva, hfree, hleaf₂⟩⟩ :=
        mappages_page ht₁ ha₁ hc.child.aligned hmp
    · -- no page for a table: the copy is freed, then the rounds before are undone
      obtain ⟨-, m₃, hf, herr⟩ := hfail
      simp only [hk] at hf
      exact (hc.free (he₁.trans he₂) ht₂ ha₂ (hleaf₂.trans hleaf₁) (he₂.foreign hfq) hf).unmap
        (uvmcopyErr_eq herr).2
    · exact absurd hr hfail.1
    · cases hr
    · exact ih (hc.next he₁ hleaf₁ hfq ht₂ ha₂ he₂ hva hfree hleaf₂) hrest

/-- `uvmcopy` that returned `-1` ran out of free pages part way, in `kalloc` or in `walk` inside
`mappages`. Its `err:` path unmapped and freed what it had copied: every address of the child
translates as before the call, and the parent's leaves and the bytes of its frames are as they
were. -/
theorem uvmcopy_undo {m m' : Phys} {l : List ℕ} (ht : PageTree m.mem new) (ha : Alloc m new l)
    (hp : Apart m old new l sz) (h : uvmcopy m old new sz = .ok (-1, m')) :
    PageTree m'.mem new ∧ (∀ b < MAXVA, mapping m'.mem new b = mapping m.mem new b) ∧
      leaf m'.mem old = leaf m.mem old ∧ ∀ b < sz, leaf m.mem old b &&& PTE_V ≠ 0 → ∀ j < PGSIZE,
        m'.mem (PTE2PA (leaf m.mem old b) + j) = m.mem (PTE2PA (leaf m.mem old b) + j) :=
  uvmcopyLoop_undo _ (.init ht ha hp id) h

/-- A parent with pages 0 and 1, its tables from `KERNBASE` as `uvmalloc` lays them out (root,
level-1 and level-0 tables, then the two frames); after them a child's root of zeros and three
free pages, each holding the address of the next. -/
def twoPageMem : ℕ → UInt8 :=
  writeWord (writeWord (writeWord (writeWord (writeWord (writeWord (fun _ => 0)
    KERNBASE 8 (PA2PTE (KERNBASE + PGSIZE) ||| PTE_V))
    (KERNBASE + PGSIZE) 8 (PA2PTE (KERNBASE + 2 * PGSIZE) ||| PTE_V))
    (KERNBASE + 2 * PGSIZE) 8 (PA2PTE (KERNBASE + 3 * PGSIZE) ||| PTE_R ||| PTE_W ||| PTE_U ||| PTE_V))
    (KERNBASE + 2 * PGSIZE + 8 * 1) 8 (PA2PTE (KERNBASE + 4 * PGSIZE) ||| PTE_R ||| PTE_W ||| PTE_U ||| PTE_V))
    (KERNBASE + 6 * PGSIZE) 8 (KERNBASE + 7 * PGSIZE))
    (KERNBASE + 7 * PGSIZE) 8 (KERNBASE + 8 * PGSIZE)

def twoPage : Phys := ⟨twoPageMem, KERNBASE + 6 * PGSIZE, KERNBASE⟩

theorem twoPageMem_entry {p i : ℕ} (hp : p % PGSIZE = 0) (hi : i < 512) :
    entry twoPageMem p i =
      if p = KERNBASE + 7 * PGSIZE ∧ i = 0 then KERNBASE + 8 * PGSIZE
      else if p = KERNBASE + 6 * PGSIZE ∧ i = 0 then KERNBASE + 7 * PGSIZE
      else if p = KERNBASE + 2 * PGSIZE ∧ i = 1 then
        PA2PTE (KERNBASE + 4 * PGSIZE) ||| PTE_R ||| PTE_W ||| PTE_U ||| PTE_V
      else if p = KERNBASE + 2 * PGSIZE ∧ i = 0 then
        PA2PTE (KERNBASE + 3 * PGSIZE) ||| PTE_R ||| PTE_W ||| PTE_U ||| PTE_V
      else if p = KERNBASE + PGSIZE ∧ i = 0 then PA2PTE (KERNBASE + 2 * PGSIZE) ||| PTE_V
      else if p = KERNBASE ∧ i = 0 then PA2PTE (KERNBASE + PGSIZE) ||| PTE_V else 0 := by
  have h0 : entry (fun _ => 0) p i = 0 := by simp [entry, readWord]
  rw [twoPageMem, entry_writeWord_first hp (by decide) hi, entry_writeWord_first hp (by decide) hi,
    entry_writeWord_slot hp (by decide) hi (by decide), entry_writeWord_first hp (by decide) hi,
    entry_writeWord_first hp (by decide) hi, entry_writeWord_first hp (by decide) hi, h0,
    Nat.mod_eq_of_lt (by decide), Nat.mod_eq_of_lt (by decide), Nat.mod_eq_of_lt (by decide),
    Nat.mod_eq_of_lt (by decide), Nat.mod_eq_of_lt (by decide), Nat.mod_eq_of_lt (by decide)]

theorem twoPageMem_child {k : ℕ} (hk : k < 512) : entry twoPageMem (KERNBASE + 5 * PGSIZE) k = 0 := by
  rw [twoPageMem_entry (by decide) hk]
  repeat rw [if_neg (fun h => absurd h.1 (by decide))]

theorem twoPageMem_node {n : Node} {p : ℕ} (h : nodePage twoPageMem KERNBASE n = some p) :
    n = .root ∧ p = KERNBASE ∨ n = .mid 0 ∧ p = KERNBASE + PGSIZE ∨
      n = .bot 0 0 ∧ p = KERNBASE + 2 * PGSIZE := by
  have he : ptePage (PA2PTE (KERNBASE + PGSIZE) ||| PTE_V) = some (KERNBASE + PGSIZE) := by decide
  refine nodePage_of_path (fun i hi => ?_) he (fun j hj => ?_) h
  · rw [twoPageMem_entry (by decide) hi]
    repeat rw [if_neg (fun h => absurd h.1 (by decide))]
    by_cases h0 : i = 0 <;> simp [h0]
  · rw [twoPageMem_entry (by decide) hj]
    repeat rw [if_neg (fun h => absurd h.1 (by decide))]
    by_cases h0 : j = 0
    · rw [if_pos ⟨rfl, h0⟩, if_pos h0]
      decide
    · rw [if_neg (fun h => h0 h.2), if_neg (fun h => h0 h.2), if_neg h0, ptePage_zero]

theorem twoPageMem_leaf {b : ℕ} (hb : b < 2 * PGSIZE) :
    leaf twoPageMem KERNBASE b =
      if b < PGSIZE then PA2PTE (KERNBASE + 3 * PGSIZE) ||| PTE_R ||| PTE_W ||| PTE_U ||| PTE_V
      else PA2PTE (KERNBASE + 4 * PGSIZE) ||| PTE_R ||| PTE_W ||| PTE_U ||| PTE_V := by
  by_cases h : b < PGSIZE
  · rw [leaf_of_page (a := 0) (by simp only [PGSIZE] at *; omega), if_pos h]
    decide
  · rw [leaf_of_page (a := PGSIZE) (by simp only [PGSIZE] at *; omega), if_neg h]
    decide

/-- The parent's table, the child's empty root beside it, and the three free pages apart from
both trees and from the parent's frames. -/
theorem twoPage_apart :
    PageTree twoPage.mem (KERNBASE + 5 * PGSIZE) ∧
      Alloc twoPage (KERNBASE + 5 * PGSIZE) [KERNBASE + 6 * PGSIZE, KERNBASE + 7 * PGSIZE, KERNBASE + 8 * PGSIZE] ∧
      Apart twoPage KERNBASE (KERNBASE + 5 * PGSIZE)
        [KERNBASE + 6 * PGSIZE, KERNBASE + 7 * PGSIZE, KERNBASE + 8 * PGSIZE] (2 * PGSIZE) := by
  have hchild : ∀ {n p}, nodePage twoPage.mem (KERNBASE + 5 * PGSIZE) n = some p → p = KERNBASE + 5 * PGSIZE :=
    fun h => (nodePage_of_zero (fun k hk => twoPageMem_child hk) h).2
  -- a page that is neither free nor the child's root is foreign to the child
  have hforeign : ∀ p, p ∉ [KERNBASE + 6 * PGSIZE, KERNBASE + 7 * PGSIZE, KERNBASE + 8 * PGSIZE] →
      p ≠ KERNBASE + 5 * PGSIZE →
      Foreign twoPage (KERNBASE + 5 * PGSIZE) [KERNBASE + 6 * PGSIZE, KERNBASE + 7 * PGSIZE, KERNBASE + 8 * PGSIZE] p :=
    fun p hl hc => ⟨hl, fun n h => hc (hchild h)⟩
  have ht : PageTree twoPage.mem KERNBASE := by
    refine ⟨fun n p h => ?_, fun n n' p h h' => ?_⟩
    · rcases twoPageMem_node h with ⟨-, rfl⟩ | ⟨-, rfl⟩ | ⟨-, rfl⟩
      · simpa using ramPage_kernbase 0 (by decide)
      · simpa using ramPage_kernbase 1 (by decide)
      · exact ramPage_kernbase 2 (by decide)
    · rcases twoPageMem_node h with ⟨rfl, rfl⟩ | ⟨rfl, rfl⟩ | ⟨rfl, rfl⟩ <;>
        rcases twoPageMem_node h' with ⟨rfl, h₂⟩ | ⟨rfl, h₂⟩ | ⟨rfl, h₂⟩ <;>
        simp [PGSIZE] at h₂ ⊢
  refine ⟨pageTree_of_zero (ramPage_kernbase 5 (by decide)) fun k hk => twoPageMem_child hk, ⟨?_, by decide, ?_, ?_⟩,
    ht, fun n p h => ?_, fun b hb _ => ?_⟩
  · have h1 : readWord twoPage.mem (KERNBASE + 6 * PGSIZE) 8 = KERNBASE + 7 * PGSIZE := by decide
    have h2 : readWord twoPage.mem (KERNBASE + 7 * PGSIZE) 8 = KERNBASE + 8 * PGSIZE := by decide
    have h3 : readWord twoPage.mem (KERNBASE + 8 * PGSIZE) 8 = 0 := by decide
    refine .cons (by decide) ?_
    rw [show twoPage.freelist = KERNBASE + 6 * PGSIZE from rfl, h1]
    refine .cons (by decide) ?_
    rw [h2]
    refine .cons (by decide) ?_
    rw [h3]
    exact .nil
  · intro q hq
    simp only [List.mem_cons, List.not_mem_nil, or_false] at hq
    rcases hq with rfl | rfl | rfl
    · exact ramPage_kernbase 6 (by decide)
    · exact ramPage_kernbase 7 (by decide)
    · exact ramPage_kernbase 8 (by decide)
  · intro q hq n hn
    rw [hchild hn] at hq
    simp [PGSIZE] at hq
  · rcases twoPageMem_node h with ⟨-, rfl⟩ | ⟨-, rfl⟩ | ⟨-, rfl⟩ <;>
      exact hforeign _ (by simp [PGSIZE]) (by simp [PGSIZE])
  · rw [show twoPage.mem = twoPageMem from rfl, twoPageMem_leaf hb]
    split_ifs
    · exact hforeign _ (by decide) (by decide)
    · exact hforeign _ (by decide) (by decide)

/-- Copying `twoPage`'s page 0 takes the three free pages, for its copy and the child's two
tables; copying page 1 then finds no page, and the `err:` path unmaps and frees the copy of
page 0. -/
theorem uvmcopy_undo_twoPage :
    (∃ m₁, uvmcopy twoPage KERNBASE (KERNBASE + 5 * PGSIZE) PGSIZE = .ok (0, m₁)) ∧
    ∃ m', uvmcopy twoPage KERNBASE (KERNBASE + 5 * PGSIZE) (2 * PGSIZE) = .ok (-1, m') ∧
      PageTree m'.mem (KERNBASE + 5 * PGSIZE) ∧
      (∀ b < MAXVA, mapping m'.mem (KERNBASE + 5 * PGSIZE) b = mapping twoPage.mem (KERNBASE + 5 * PGSIZE) b) ∧
      leaf m'.mem KERNBASE = leaf twoPage.mem KERNBASE ∧
      ∀ b < 2 * PGSIZE, leaf twoPage.mem KERNBASE b &&& PTE_V ≠ 0 → ∀ j < PGSIZE,
        m'.mem (PTE2PA (leaf twoPage.mem KERNBASE b) + j) = twoPage.mem (PTE2PA (leaf twoPage.mem KERNBASE b) + j) := by
  obtain ⟨ht, ha, hp⟩ := twoPage_apart
  obtain ⟨⟨r₁, m₁⟩, h₁, rfl⟩ := Except.exists_of_toOption_map
    (show (uvmcopy twoPage KERNBASE (KERNBASE + 5 * PGSIZE) PGSIZE).toOption.map Prod.fst = some 0 by
      decide +kernel)
  obtain ⟨⟨r, m'⟩, h, rfl⟩ := Except.exists_of_toOption_map
    (show (uvmcopy twoPage KERNBASE (KERNBASE + 5 * PGSIZE) (2 * PGSIZE)).toOption.map Prod.fst = some (-1) by
      decide +kernel)
  exact ⟨⟨m₁, h₁⟩, m', h, uvmcopy_undo ht ha hp h⟩

end Undo

end Xv6
