import Xv6.Proofs.Uvmcopy

/-! Tearing a process's memory down: `uvmdealloc`, and `uvmfree`, which unmaps the user pages
with `uvmunmap` and then frees the tables with `freewalk`. Each frame and each table goes back
to the free list, and none twice. -/

namespace Xv6

open ByteMem

/-! ## `uvmunmap` that frees -/

theorem PGROUNDDOWN_of_page {p x : ℕ} (hp : p % PGSIZE = 0) (h₁ : p ≤ x) (h₂ : x < p + PGSIZE) :
    PGROUNDDOWN x = p := by
  simp only [PGROUNDDOWN, PGSIZE] at *
  omega

/-- The frames of the `npages` pages from `va`, in the order `uvmunmap` frees them. -/
def unmappedFrames (mem : ℕ → UInt8) (root va npages : ℕ) : List ℕ :=
  (List.range npages).map fun k => PTE2PA (leaf mem root (va + k * PGSIZE))

theorem unmappedFrames_succ (mem : ℕ → UInt8) (root va n : ℕ) :
    unmappedFrames mem root va (n + 1) =
      unmappedFrames mem root va n ++ [PTE2PA (leaf mem root (va + n * PGSIZE))] := by
  simp [unmappedFrames, List.range_succ]

/-- The pages `uvmunmap` unmaps and frees: each holds a valid leaf, and their frames are
distinct pages of RAM past the kernel, neither free nor tables. -/
structure Frames (m : Phys) (root : ℕ) (l : List ℕ) (va npages : ℕ) : Prop where
  lt : va + npages * PGSIZE ≤ MAXVA
  valid : ∀ k < npages, leaf m.mem root (va + k * PGSIZE) &&& PTE_V ≠ 0 ∧
    PTE_FLAGS (leaf m.mem root (va + k * PGSIZE)) ≠ PTE_V
  ram : ∀ k < npages, RamPage (PTE2PA (leaf m.mem root (va + k * PGSIZE))) ∧
    m.kend ≤ PTE2PA (leaf m.mem root (va + k * PGSIZE))
  foreign : ∀ k < npages, Foreign m root l (PTE2PA (leaf m.mem root (va + k * PGSIZE)))
  nodup : (unmappedFrames m.mem root va npages).Nodup

section Unmap

variable {m : Phys} {root va : ℕ} {l : List ℕ}

theorem Frames.pred {n : ℕ} (hf : Frames m root l va (n + 1)) : Frames m root l va n where
  lt := le_trans (by rw [Nat.add_mul]; omega) hf.lt
  valid k hk := hf.valid k (by omega)
  ram k hk := hf.ram k (by omega)
  foreign k hk := hf.foreign k (by omega)
  nodup := by
    have h := hf.nodup
    rw [unmappedFrames_succ] at h
    exact h.sublist (List.sublist_append_left _ _)

theorem uvmunmapStep_frees (ht : PageTree m.mem root) (ha : Alloc m root l) {k : ℕ} {m' : Phys}
    (hram : RamPage (PTE2PA (leaf m.mem root (va + k * PGSIZE))))
    (hf : Foreign m root l (PTE2PA (leaf m.mem root (va + k * PGSIZE))))
    (h : uvmunmapStep root va true m k = .ok m') :
    Alloc m' root (PTE2PA (leaf m.mem root (va + k * PGSIZE)) :: l) := by
  obtain ⟨pte, v, m₁, m₂, hw, hv, -, -, hm₂, rfl⟩ := uvmunmapStep_ok h
  obtain ⟨-, -, p₀, hb, rfl⟩ := walk_lookup_some ht hw
  obtain rfl := walk_lookup_load ht hw hv
  rw [if_pos rfl] at hm₂
  obtain ⟨hn₂, -, ha₂⟩ := kfree_foreign ht ha hram hf hm₂
  have ht₂ := ht.congr hn₂
  rw [← hn₂] at hb
  -- then the leaf's slot in its level-0 table is cleared
  obtain ⟨hn, -⟩ := ht₂.store_leaf hb (PX_lt 0 _) 0
  exact ha₂.store_node hb (ht₂.page _ _ hb).1 (PX_lt 0 _) 0 hn

/-- The first `n` rounds of `uvmunmap`, freeing, from the aligned `va`: they do not panic, and
they push the frames of their pages on the free list. -/
theorem uvmunmap_frees_run (ht : PageTree m.mem root) (ha : Alloc m root l) (hal : va % PGSIZE = 0)
    (n : ℕ) (hf : Frames m root l va n) :
    ∃ m', (List.range n).foldlM (uvmunmapStep root va true) m = .ok m' ∧
      Alloc m' root ((unmappedFrames m.mem root va n).reverse ++ l) ∧ m'.kend = m.kend := by
  -- induction on the rounds, peeling the last one off the end of `List.range`
  induction n with
  | zero => exact ⟨m, rfl, ha, rfl⟩
  | succ n ih =>
    obtain ⟨mₙ, hₙ, haₙ, hkₙ⟩ := ih hf.pred
    have hnode : true = true → ∀ k < n, ∀ c,
        nodePage m.mem root c ≠ some (PTE2PA (leaf m.mem root (va + k * PGSIZE))) :=
      fun _ k hk c => (hf.foreign k (by omega)).2 c
    obtain ⟨hnₙ, hlₙ⟩ := uvmunmap_run ht hal n hnode hₙ
    have htₙ := ht.congr hnₙ
    have hva : va + n * PGSIZE < MAXVA := by
      have := hf.lt
      simp only [PGSIZE, Nat.add_mul] at this ⊢
      omega
    -- the page of round `n` is as it was in `m`
    have hleaf : leaf mₙ.mem root (va + n * PGSIZE) = leaf m.mem root (va + n * PGSIZE) := by
      rw [hlₙ _ hva, if_neg (by omega)]
    obtain ⟨hv, hflags⟩ := hf.valid n (by omega)
    obtain ⟨hram, hk⟩ := hf.ram n (by omega)
    obtain ⟨m', hstep⟩ : ∃ m', uvmunmapStep root va true mₙ n = .ok m' :=
      uvmunmapStep_succeeds htₙ hva (by rwa [hleaf]) (by rwa [hleaf]) fun _ => by
        rw [hleaf, hkₙ]
        exact ⟨hk, lt_of_lt_of_le (Nat.lt_add_of_pos_right (by decide)) hram.2.2⟩
    -- its frame is neither free, nor freed by the rounds before, nor a table
    have hfₙ : Foreign mₙ root ((unmappedFrames m.mem root va n).reverse ++ l)
        (PTE2PA (leaf mₙ.mem root (va + n * PGSIZE))) := by
      rw [hleaf]
      have hnd := hf.nodup
      rw [unmappedFrames_succ, List.nodup_append] at hnd
      refine ⟨fun hmem => ?_, fun c => by rw [hnₙ]; exact (hf.foreign n (by omega)).2 c⟩
      rcases List.mem_append.mp hmem with hmem | hmem
      · exact hnd.2.2 _ (List.mem_reverse.mp hmem) _ List.mem_cons_self rfl
      · exact (hf.foreign n (by omega)).1 hmem
    refine ⟨m', Except.foldlM_range_succ hₙ hstep, ?_, (uvmunmapStep_kend hstep).trans hkₙ⟩
    have h := uvmunmapStep_frees htₙ haₙ (by rwa [hleaf]) hfₙ hstep
    rw [hleaf] at h
    rw [unmappedFrames_succ, List.reverse_append]
    exact h

/-- `uvmunmap`, freeing, of pages with frames of their own: it does not panic, it clears
their leaves and no other, and it puts their frames at the front of the free list. -/
theorem uvmunmap_frees (ht : PageTree m.mem root) (ha : Alloc m root l) (hal : va % PGSIZE = 0)
    {npages : ℕ} (hf : Frames m root l va npages) :
    ∃ m', uvmunmap m root va npages true = .ok m' ∧ PageTree m'.mem root ∧
      (∀ b < MAXVA, leaf m'.mem root b = if va ≤ b ∧ b < va + npages * PGSIZE then 0 else leaf m.mem root b) ∧
      Alloc m' root ((unmappedFrames m.mem root va npages).reverse ++ l) ∧ m'.kend = m.kend := by
  obtain ⟨m', h, ha', hk⟩ := uvmunmap_frees_run ht ha hal npages hf
  have hu : uvmunmap m root va npages true = .ok m' := by
    rw [uvmunmap, if_neg (not_not.mpr hal)]
    exact h
  obtain ⟨ht', hl'⟩ := uvmunmap_leaves ht (fun _ k hk c => (hf.foreign k hk).2 c) hu
  exact ⟨m', hu, ht', hl', ha', hk⟩

/-! ## A process with one page -/

/-- The memory of a process with one page, as `uvmalloc` lays it out from `KERNBASE`: the root's
first entry points to its level-1 table, whose first entry points to its level-0 table, whose
first entry maps page `0` to the frame after them, readable and writable by the user. -/
def onePageMem : ℕ → UInt8 :=
  writeWord (writeWord (writeWord (fun _ => 0) KERNBASE 8 (PA2PTE (KERNBASE + PGSIZE) ||| PTE_V))
    (KERNBASE + PGSIZE) 8 (PA2PTE (KERNBASE + 2 * PGSIZE) ||| PTE_V))
    (KERNBASE + 2 * PGSIZE) 8 (PA2PTE (KERNBASE + 3 * PGSIZE) ||| PTE_R ||| PTE_W ||| PTE_U ||| PTE_V)

theorem onePageMem_entry {p i : ℕ} (hp : p % PGSIZE = 0) (hi : i < 512) :
    entry onePageMem p i =
      if p = KERNBASE + 2 * PGSIZE ∧ i = 0 then PA2PTE (KERNBASE + 3 * PGSIZE) ||| PTE_R ||| PTE_W ||| PTE_U ||| PTE_V
      else if p = KERNBASE + PGSIZE ∧ i = 0 then PA2PTE (KERNBASE + 2 * PGSIZE) ||| PTE_V
      else if p = KERNBASE ∧ i = 0 then PA2PTE (KERNBASE + PGSIZE) ||| PTE_V else 0 := by
  have h0 : entry (fun _ => 0) p i = 0 := by simp [entry, readWord]
  rw [onePageMem, entry_writeWord_first hp (by decide) hi, entry_writeWord_first hp (by decide) hi,
    entry_writeWord_first hp (by decide) hi, h0, Nat.mod_eq_of_lt (by decide), Nat.mod_eq_of_lt (by decide),
    Nat.mod_eq_of_lt (by decide)]

theorem onePageMem_node {n : Node} {p : ℕ} (h : nodePage onePageMem KERNBASE n = some p) :
    n = .root ∧ p = KERNBASE ∨ n = .mid 0 ∧ p = KERNBASE + PGSIZE ∨
      n = .bot 0 0 ∧ p = KERNBASE + 2 * PGSIZE := by
  have he : ptePage (PA2PTE (KERNBASE + PGSIZE) ||| PTE_V) = some (KERNBASE + PGSIZE) := by decide
  refine nodePage_of_path (fun i hi => ?_) he (fun j hj => ?_) h
  · rw [onePageMem_entry (by decide) hi]
    repeat rw [if_neg (fun h => absurd h.1 (by decide))]
    by_cases h0 : i = 0 <;> simp [h0]
  · rw [onePageMem_entry (by decide) hj]
    repeat rw [if_neg (fun h => absurd h.1 (by decide))]
    by_cases h0 : j = 0
    · rw [if_pos ⟨rfl, h0⟩, if_pos h0]
      decide
    · rw [if_neg (fun h => h0 h.2), if_neg (fun h => h0 h.2), if_neg h0, ptePage_zero]

theorem onePageMem_leaf {b : ℕ} (hb : b < MAXVA) :
    leaf onePageMem KERNBASE b =
      if b / PGSIZE = 0 then PA2PTE (KERNBASE + 3 * PGSIZE) ||| PTE_R ||| PTE_W ||| PTE_U ||| PTE_V else 0 := by
  have hpage := same_page_iff (a := 0) (by decide) hb
  rw [Nat.zero_div] at hpage
  cases hn : nodePage onePageMem KERNBASE (.bot (pxIdx 2 b) (pxIdx 1 b)) with
  | none =>
    rw [leaf_of_none hn, if_neg]
    intro h0
    obtain ⟨h₂, h₁, -⟩ := hpage.mpr h0
    have hbot : nodePage onePageMem KERNBASE (.bot 0 0) = some (KERNBASE + 2 * PGSIZE) := by
      rw [nodePage_bot, nodePage_mid, onePageMem_entry (by decide) (by decide), if_neg (by decide),
        if_neg (by decide), if_pos (by decide)]
      have he : ptePage (PA2PTE (KERNBASE + PGSIZE) ||| PTE_V) = some (KERNBASE + PGSIZE) := by decide
      rw [he, Option.bind_some, onePageMem_entry (by decide) (by decide), if_neg (by decide), if_pos (by decide)]
      decide
    rw [h₂, h₁] at hn
    have hc := hn.symm.trans hbot
    cases hc
  | some p =>
    rcases onePageMem_node hn with ⟨h, -⟩ | ⟨h, -⟩ | ⟨h, rfl⟩
    · cases h
    · cases h
    · obtain ⟨h₂, h₁⟩ := Node.bot.inj h
      rw [leaf_of_some hn, onePageMem_entry (by decide) (PX_lt 0 b)]
      have hiff : b / PGSIZE = 0 ↔ PX 0 b = 0 := by
        rw [← hpage]
        exact ⟨fun h => h.2.2, fun h => ⟨h₂, h₁, h⟩⟩
      by_cases h0 : PX 0 b = 0
      · rw [if_pos ⟨rfl, h0⟩, if_pos (hiff.mpr h0)]
      · rw [if_neg (fun h => h0 h.2), if_neg (fun h => h0 h.2), if_neg (fun h => h0 h.2), if_neg (mt hiff.mp h0)]

/-- A process with one page and no free page. -/
def onePage : Phys := ⟨onePageMem, 0, KERNBASE⟩

theorem onePage_page {n : Node} {p : ℕ} (h : nodePage onePage.mem KERNBASE n = some p) :
    RamPage p ∧ KERNBASE ≤ p := by
  rcases onePageMem_node h with ⟨-, rfl⟩ | ⟨-, rfl⟩ | ⟨-, rfl⟩
  · exact ⟨by simpa using ramPage_kernbase 0 (by decide), le_refl _⟩
  · exact ⟨by simpa using ramPage_kernbase 1 (by decide), Nat.le_add_right _ _⟩
  · exact ⟨ramPage_kernbase 2 (by decide), Nat.le_add_right _ _⟩

theorem onePage_tree : PageTree onePage.mem KERNBASE := by
  refine ⟨fun n p h => (onePage_page h).1, fun n n' p h h' => ?_⟩
  rcases onePageMem_node h with ⟨rfl, rfl⟩ | ⟨rfl, rfl⟩ | ⟨rfl, rfl⟩ <;>
    rcases onePageMem_node h' with ⟨rfl, h₂⟩ | ⟨rfl, h₂⟩ | ⟨rfl, h₂⟩ <;>
    simp [PGSIZE] at h₂ ⊢

theorem onePage_alloc : Alloc onePage KERNBASE [] := ⟨.nil, List.nodup_nil, nofun, nofun⟩

theorem onePage_frames : Frames onePage KERNBASE [] 0 1 := by
  have hl : leaf onePage.mem KERNBASE (0 + 0 * PGSIZE) =
      PA2PTE (KERNBASE + 3 * PGSIZE) ||| PTE_R ||| PTE_W ||| PTE_U ||| PTE_V := by
    rw [show onePage.mem = onePageMem from rfl, onePageMem_leaf (by decide), if_pos (by decide)]
  -- the frame of page `0`, the page after the three tables
  have hpa : PTE2PA (leaf onePage.mem KERNBASE (0 + 0 * PGSIZE)) = KERNBASE + 3 * PGSIZE := by
    rw [hl]
    decide
  refine ⟨by decide, fun k hk => ?_, fun k hk => ?_, fun k hk => ?_, by simp [unmappedFrames]⟩ <;>
    obtain rfl : k = 0 := by omega
  · rw [hl]
    decide
  · rw [hpa]
    exact ⟨ramPage_kernbase 3 (by decide), Nat.le_add_right _ _⟩
  · rw [hpa]
    refine ⟨List.not_mem_nil, fun n h => ?_⟩
    rcases onePageMem_node h with ⟨-, h⟩ | ⟨-, h⟩ | ⟨-, h⟩ <;> simp only [PGSIZE] at h <;> omega

/-- `uvmdealloc` from `oldsz` down to `newsz`, when the pages between the two sizes rounded up
have frames of their own: it does not panic, it clears those pages' leaves and no other, and
it puts their frames at the front of the free list. -/
theorem uvmdealloc_frees (ht : PageTree m.mem root) (ha : Alloc m root l) {oldsz newsz : ℕ}
    (hlt : newsz < oldsz) (hf : Frames m root l (PGROUNDUP newsz) ((PGROUNDUP oldsz - PGROUNDUP newsz) / PGSIZE)) :
    ∃ m', uvmdealloc m root oldsz newsz = .ok (newsz, m') ∧ PageTree m'.mem root ∧
      (∀ b < MAXVA, leaf m'.mem root b =
        if PGROUNDUP newsz ≤ b ∧ b < PGROUNDUP oldsz then 0 else leaf m.mem root b) ∧
      Alloc m' root ((unmappedFrames m.mem root (PGROUNDUP newsz)
        ((PGROUNDUP oldsz - PGROUNDUP newsz) / PGSIZE)).reverse ++ l) := by
  have hle : PGROUNDUP newsz ≤ PGROUNDUP oldsz := by
    simp only [PGROUNDUP, PGSIZE]
    omega
  -- the pages between the two sizes rounded up, both page boundaries
  have hpages : PGROUNDUP newsz + (PGROUNDUP oldsz - PGROUNDUP newsz) / PGSIZE * PGSIZE = PGROUNDUP oldsz := by
    have h₁ := PGROUNDUP_mod newsz
    have h₂ := PGROUNDUP_mod oldsz
    simp only [PGSIZE] at h₁ h₂ ⊢
    omega
  rw [uvmdealloc, if_neg (by omega)]
  by_cases hround : PGROUNDUP newsz < PGROUNDUP oldsz
  · obtain ⟨m', hu, ht', hl', ha', -⟩ := uvmunmap_frees ht ha (PGROUNDUP_mod newsz) hf
    refine ⟨m', ?_, ht', fun b hb => by rw [hl' b hb, hpages], ha'⟩
    rw [if_pos hround, hu]
    rfl
  · -- both sizes round up to one boundary: nothing is unmapped
    have heq : PGROUNDUP oldsz = PGROUNDUP newsz := by omega
    refine ⟨m, by rw [if_neg hround]; rfl, ht, fun b _ => by rw [if_neg (by omega)], ?_⟩
    rw [heq, Nat.sub_self, Nat.zero_div]
    exact ha

theorem uvmdealloc_frees_onePage : ∃ m', uvmdealloc onePage KERNBASE PGSIZE 0 = .ok (0, m') :=
  let ⟨m', h, _⟩ := uvmdealloc_frees onePage_tree onePage_alloc (show 0 < PGSIZE by decide)
    (onePage_frames : Frames onePage KERNBASE [] (PGROUNDUP 0) ((PGROUNDUP PGSIZE - PGROUNDUP 0) / PGSIZE))
  ⟨m', h⟩

end Unmap

/-! ## `freewalk` -/

/-- Entry `i` of `freewalk`'s loop over the table `pagetable`, `depth + 1` levels deep. -/
def freewalkStep (depth pagetable : ℕ) (m : Phys) (i : ℕ) : Except String Phys := do
  let pte ← m.load (pagetable + 8 * i)
  if pte &&& PTE_V ≠ 0 ∧ pte &&& (PTE_R ||| PTE_W ||| PTE_X) = 0 then
    let m ← freewalk depth m (PTE2PA pte)
    return m.store (pagetable + 8 * i) 0
  else if pte &&& PTE_V ≠ 0 then throw "freewalk: leaf"
  else return m

section Step

variable {depth pagetable i pte : ℕ} {m : Phys}

theorem freewalkStep_empty (hld : m.load (pagetable + 8 * i) = .ok pte) (hv : pte &&& PTE_V = 0) :
    freewalkStep depth pagetable m i = .ok m := by
  rw [freewalkStep, hld, Except.ok_bind, if_neg (fun h => h.1 hv), if_neg (not_not.mpr hv)]
  rfl

theorem freewalkStep_table {m' : Phys} (hld : m.load (pagetable + 8 * i) = .ok pte)
    (hc : pte &&& PTE_V ≠ 0 ∧ pte &&& (PTE_R ||| PTE_W ||| PTE_X) = 0)
    (h : freewalk depth m (PTE2PA pte) = .ok m') :
    freewalkStep depth pagetable m i = .ok (m'.store (pagetable + 8 * i) 0) := by
  rw [freewalkStep, hld, Except.ok_bind, if_pos hc, h, Except.ok_bind]
  rfl

end Step

theorem freewalk_succ (depth : ℕ) (m : Phys) (pagetable : ℕ) :
    freewalk (depth + 1) m pagetable =
      (List.range 512).foldlM (freewalkStep depth pagetable) m >>= fun m => kfree m pagetable := rfl

/-- The tables `freewalk` frees from the table `p`, `depth` levels deep, in the order it frees
them: those below each entry in turn, then `p`. -/
def freedTables (mem : ℕ → UInt8) : ℕ → ℕ → List ℕ
  | 0, _ => []
  | depth + 1, p => ((List.range 512).flatMap fun k =>
      if entry mem p k &&& PTE_V ≠ 0 ∧ entry mem p k &&& (PTE_R ||| PTE_W ||| PTE_X) = 0 then
        freedTables mem depth (PTE2PA (entry mem p k))
      else []) ++ [p]

/-- The tables `freewalk` frees below entry `k` of the table `p`. -/
def below (mem : ℕ → UInt8) (depth p k : ℕ) : List ℕ :=
  if entry mem p k &&& PTE_V ≠ 0 ∧ entry mem p k &&& (PTE_R ||| PTE_W ||| PTE_X) = 0 then
    freedTables mem depth (PTE2PA (entry mem p k))
  else []

theorem freedTables_succ (mem : ℕ → UInt8) (depth p : ℕ) :
    freedTables mem (depth + 1) p = (List.range 512).flatMap (below mem depth p) ++ [p] := rfl

/-- No leaf in the tables from `p`, `depth` levels deep: each valid entry points to a table. -/
def NoLeaf (mem : ℕ → UInt8) : ℕ → ℕ → Prop
  | 0, _ => True
  | depth + 1, p => ∀ k < 512, entry mem p k &&& PTE_V ≠ 0 →
      entry mem p k &&& (PTE_R ||| PTE_W ||| PTE_X) = 0 ∧ NoLeaf mem depth (PTE2PA (entry mem p k))

section Freewalk

variable {mem : ℕ → UInt8} {depth p : ℕ}

theorem mem_freedTables_of_below {k q : ℕ} (hk : k < 512) (hq : q ∈ below mem depth p k) :
    q ∈ freedTables mem (depth + 1) p := by
  rw [freedTables_succ]
  exact List.mem_append_left _ (List.mem_flatMap.mpr ⟨k, List.mem_range.mpr hk, hq⟩)

theorem self_mem_freedTables : p ∈ freedTables mem (depth + 1) p := by
  rw [freedTables_succ]
  exact List.mem_append_right _ (List.mem_singleton_self p)

theorem freedTables_congr {mem' : ℕ → UInt8} (depth : ℕ) {p : ℕ} (hp : p % PGSIZE = 0)
    (h : ∀ x, PGROUNDDOWN x ∈ freedTables mem depth p → mem' x = mem x) :
    freedTables mem' depth p = freedTables mem depth p ∧ (NoLeaf mem' depth p ↔ NoLeaf mem depth p) := by
  induction depth generalizing p with
  | zero => exact ⟨rfl, Iff.rfl⟩
  | succ d ih =>
    -- the entries of `p`, the last page freed
    have he : ∀ k < 512, entry mem' p k = entry mem p k := by
      intro k hk
      refine entry_congr hk fun x hx₁ hx₂ => h x ?_
      rw [PGROUNDDOWN_of_page hp hx₁ hx₂]
      exact self_mem_freedTables
    -- the tables below each entry, by induction
    have hb : ∀ k < 512,
        entry mem p k &&& PTE_V ≠ 0 ∧ entry mem p k &&& (PTE_R ||| PTE_W ||| PTE_X) = 0 →
        freedTables mem' d (PTE2PA (entry mem p k)) = freedTables mem d (PTE2PA (entry mem p k)) ∧
          (NoLeaf mem' d (PTE2PA (entry mem p k)) ↔ NoLeaf mem d (PTE2PA (entry mem p k))) :=
      fun k hk hc => ih (PTE2PA_mod _) fun x hx =>
        h x (mem_freedTables_of_below hk (by rw [below, if_pos hc]; exact hx))
    refine ⟨?_, ?_⟩
    · have hbelow : ∀ k ∈ List.range 512, below mem' d p k = below mem d p k := by
        intro k hk
        have hk := List.mem_range.mp hk
        unfold below
        rw [he k hk]
        split_ifs with hc
        · exact (hb k hk hc).1
        · rfl
      rw [freedTables_succ, freedTables_succ, List.flatMap_congr hbelow]
    · simp only [NoLeaf]
      refine forall₂_congr fun k hk => ?_
      rw [he k hk]
      refine imp_congr_right fun hv => ⟨fun ⟨hx, hn⟩ => ⟨hx, (hb k hk ⟨hv, hx⟩).2.mp hn⟩,
        fun ⟨hx, hn⟩ => ⟨hx, (hb k hk ⟨hv, hx⟩).2.mpr hn⟩⟩

end Freewalk

theorem FreeChain.store {mem : ℕ → UInt8} {r : ℕ} {L : List ℕ} (hc : FreeChain mem r L) {p k : ℕ}
    (hp : p % PGSIZE = 0) (hk : k < 512) (hL : ∀ q ∈ L, q % PGSIZE = 0 ∧ q ≠ p) (v : ℕ) :
    FreeChain (writeWord mem (p + 8 * k) 8 v) r L :=
  hc.frame fun q hq i hi => by
    have hout := word_outside (hL q hq).1 hp (hL q hq).2 hi
    have hword : q + i < p + 8 * k ∨ p + 8 * k + 8 ≤ q + i := by
      simp only [PGSIZE] at hout
      omega
    rw [writeWord_of_not_mem hword]

/-- The tables from `p`, `depth` levels deep, beside the free list `l`: no leaf among them, and
they are distinct pages of RAM past the kernel, none of them free. -/
structure Beside (m : Phys) (depth p : ℕ) (l : List ℕ) : Prop where
  chain : FreeChain m.mem m.freelist l
  noLeaf : NoLeaf m.mem depth p
  nodup : (freedTables m.mem depth p ++ l).Nodup
  ram : ∀ q ∈ freedTables m.mem depth p ++ l, RamPage q
  kend : ∀ q ∈ freedTables m.mem depth p, m.kend ≤ q

/-- What `freewalk` left: the tables it freed pushed on the free list in that order, and no
other page written. -/
structure Freed (m m' : Phys) (depth p : ℕ) (l : List ℕ) : Prop where
  chain : FreeChain m'.mem m'.freelist ((freedTables m.mem depth p).reverse ++ l)
  kend : m'.kend = m.kend
  frame : ∀ x, PGROUNDDOWN x ∉ freedTables m.mem depth p → m'.mem x = m.mem x

/-- `freewalk`'s loop over the table `p` after its first `n` entries: the tables below them are
on the free list in the order they were freed, and nothing but those and `p` was written. -/
structure Walked (m mₙ : Phys) (depth p : ℕ) (l : List ℕ) (n : ℕ) : Prop where
  chain : FreeChain mₙ.mem mₙ.freelist (((List.range n).flatMap (below m.mem depth p)).reverse ++ l)
  kend : mₙ.kend = m.kend
  frame : ∀ x, PGROUNDDOWN x ∉ (List.range n).flatMap (below m.mem depth p) → PGROUNDDOWN x ≠ p →
    mₙ.mem x = m.mem x
  rest : ∀ k, n ≤ k → k < 512 → entry mₙ.mem p k = entry m.mem p k

section Loop

variable {m mₙ : Phys} {depth p n : ℕ} {l : List ℕ}

theorem Beside.prefix (hb : Beside m (depth + 1) p l) {n : ℕ} (hn : n ≤ 512) :
    ((List.range n).flatMap (below m.mem depth p) ++ l).Nodup ∧
      p ∉ (List.range n).flatMap (below m.mem depth p) ++ l := by
  have hsplit : List.range 512 = List.range n ++ (List.range (512 - n)).map (n + ·) := by
    rw [← List.range_add, Nat.add_sub_cancel' hn]
  have hnd := hb.nodup
  rw [freedTables_succ, hsplit, List.flatMap_append, List.append_assoc, List.append_assoc] at hnd
  have hsub : ((List.range n).flatMap (below m.mem depth p) ++ l).Sublist
      ((List.range n).flatMap (below m.mem depth p) ++
        (((List.range (512 - n)).map (n + ·)).flatMap (below m.mem depth p) ++ ([p] ++ l))) :=
    List.Sublist.append_left (List.sublist_append_of_sublist_right (List.sublist_append_right _ _)) _
  refine ⟨hnd.sublist hsub, fun hp => ?_⟩
  -- `p` appears once in the whole list, after the tables below it
  have hpp : [p, p].Sublist ((List.range n).flatMap (below m.mem depth p) ++
      (((List.range (512 - n)).map (n + ·)).flatMap (below m.mem depth p) ++ ([p] ++ l))) := by
    rcases List.mem_append.mp hp with hp | hp
    · exact List.Sublist.append (List.singleton_sublist.mpr hp)
        (List.sublist_append_of_sublist_right (List.sublist_append_left [p] l))
    · refine List.sublist_append_of_sublist_right (List.sublist_append_of_sublist_right ?_)
      exact List.Sublist.cons_cons p (List.singleton_sublist.mpr hp)
  exact (List.nodup_cons.mp (hnd.sublist hpp)).1 (List.mem_singleton_self p)

theorem Walked.init (hb : Beside m (depth + 1) p l) : Walked m m depth p l 0 :=
  ⟨by simpa using hb.chain, rfl, fun _ _ _ => rfl, fun _ _ _ => rfl⟩

theorem flatMap_below_succ (mem : ℕ → UInt8) (depth p n : ℕ) :
    (List.range (n + 1)).flatMap (below mem depth p) =
      (List.range n).flatMap (below mem depth p) ++ below mem depth p n := by
  rw [List.range_succ, List.flatMap_append, List.flatMap_singleton]

/-- The tables below the first `n + 1` entries and the free pages are pages of the list, none
of them `p`. -/
theorem Beside.mem_prefix (hb : Beside m (depth + 1) p l) {n : ℕ} (hn : n < 512) {q : ℕ}
    (hq : q ∈ below m.mem depth p n ∨ q ∈ (List.range n).flatMap (below m.mem depth p) ∨ q ∈ l) :
    q ∈ freedTables m.mem (depth + 1) p ++ l ∧ q ≠ p := by
  obtain ⟨-, hpn⟩ := hb.prefix (n := n + 1) hn
  rw [flatMap_below_succ, List.append_assoc] at hpn
  refine ⟨?_, fun e => ?_⟩
  · rcases hq with hq | hq | hq
    · exact List.mem_append_left _ (mem_freedTables_of_below hn hq)
    · obtain ⟨k, hk, hq⟩ := List.mem_flatMap.mp hq
      exact List.mem_append_left _ (mem_freedTables_of_below (lt_trans (List.mem_range.mp hk) hn) hq)
    · exact List.mem_append_right _ hq
  · have hq' : q ∈ (List.range n).flatMap (below m.mem depth p) ++ (below m.mem depth p n ++ l) := by
      simp only [List.mem_append]
      rcases hq with hq | hq | hq
      exacts [Or.inr (Or.inl hq), Or.inl hq, Or.inr (Or.inr hq)]
    rw [e] at hq'
    exact hpn hq'

theorem Walked.load_eq (hw : Walked m mₙ depth p l n) (hb : Beside m (depth + 1) p l) (hn : n < 512) :
    mₙ.load (p + 8 * n) = .ok (entry m.mem p n) := by
  rw [load_entry (hb.ram p (List.mem_append_left _ self_mem_freedTables)) hn, hw.rest n le_rfl hn]

/-- An entry that points to a table: the walk one level down, given here as `hsub`, frees the
tables below it, and then the slot is cleared. -/
theorem Walked.next_table (hw : Walked m mₙ depth p l n) (hb : Beside m (depth + 1) p l)
    (hsub : ∀ {m c l'}, Beside m depth c l' → ∃ m', freewalk depth m c = .ok m' ∧ Freed m m' depth c l')
    (hn : n < 512)
    (hc : entry m.mem p n &&& PTE_V ≠ 0 ∧ entry m.mem p n &&& (PTE_R ||| PTE_W ||| PTE_X) = 0) :
    ∃ m', freewalkStep depth p mₙ n = .ok m' ∧ Walked m m' depth p l (n + 1) := by
  have hp : RamPage p := hb.ram p (List.mem_append_left _ self_mem_freedTables)
  obtain ⟨hnd, hpn⟩ := hb.prefix (n := n + 1) hn
  rw [flatMap_below_succ, List.append_assoc] at hnd hpn
  -- the tables below the entry are as in `m`, and beside the list so far
  have hBn : below m.mem depth p n = freedTables m.mem depth (PTE2PA (entry m.mem p n)) := by
    rw [below, if_pos hc]
  have hagree : ∀ x, PGROUNDDOWN x ∈ freedTables m.mem depth (PTE2PA (entry m.mem p n)) →
      mₙ.mem x = m.mem x := by
    intro x hx
    rw [← hBn] at hx
    refine hw.frame x (fun hx' => ?_) (fun hxp => hpn (List.mem_append_right _
      (List.mem_append_left _ (hxp ▸ hx))))
    exact List.disjoint_of_nodup_append hnd hx' (List.mem_append_left _ hx)
  obtain ⟨hft, hnl⟩ := freedTables_congr depth (PTE2PA_mod _) hagree
  have hperm : (below m.mem depth p n ++ ((List.range n).flatMap (below m.mem depth p)).reverse ++ l).Perm
      ((List.range n).flatMap (below m.mem depth p) ++ (below m.mem depth p n ++ l)) := by
    rw [← List.append_assoc]
    refine List.Perm.append_right l ((List.perm_append_comm).trans ?_)
    exact List.Perm.append_right _ (List.reverse_perm _)
  have hbeside : Beside mₙ depth (PTE2PA (entry m.mem p n))
      (((List.range n).flatMap (below m.mem depth p)).reverse ++ l) := by
    refine ⟨hw.chain, hnl.mpr ((hb.noLeaf n hn hc.1).2), ?_, fun q hq => ?_, fun q hq => ?_⟩
    · rw [hft, ← hBn, ← List.append_assoc]
      exact hperm.nodup_iff.mpr hnd
    · rw [hft, ← hBn, List.mem_append, List.mem_append, List.mem_reverse] at hq
      exact hb.ram q (hb.mem_prefix hn hq).1
    · rw [hft, ← hBn] at hq
      rw [hw.kend]
      exact hb.kend q (mem_freedTables_of_below hn hq)
  obtain ⟨m₁, hfw, hfr⟩ := hsub hbeside
  have hc₁ := hfr.chain
  have hf₁ := hfr.frame
  rw [hft, ← hBn] at hc₁ hf₁
  refine ⟨m₁.store (p + 8 * n) 0, freewalkStep_table (hw.load_eq hb hn) hc hfw, ?_⟩
  -- then the slot is cleared, in `p`, which the walk below did not touch
  have hp₁ : ∀ x, p ≤ x → x < p + PGSIZE → m₁.mem x = mₙ.mem x := fun x hx₁ hx₂ =>
    hf₁ x fun h => hpn (List.mem_append_right _ (List.mem_append_left _
      (PGROUNDDOWN_of_page hp.1 hx₁ hx₂ ▸ h)))
  refine ⟨?_, hfr.kend.trans hw.kend, fun x hx hxp => ?_, fun k hk hk' => ?_⟩
  · rw [flatMap_below_succ, List.reverse_append, List.append_assoc]
    refine hc₁.store hp.1 hn (fun q hq => ?_) 0
    rw [List.mem_append, List.mem_append, List.mem_reverse, List.mem_reverse] at hq
    obtain ⟨hq', hqp⟩ := hb.mem_prefix hn hq
    exact ⟨(hb.ram q hq').1, hqp⟩
  · rw [flatMap_below_succ, List.mem_append, not_or] at hx
    have hslot : x < p + 8 * n ∨ p + 8 * n + 8 ≤ x := by
      have := outside_page hp.1 hxp
      simp only [PGSIZE] at this
      omega
    show writeWord m₁.mem (p + 8 * n) 8 0 x = m.mem x
    rw [writeWord_of_not_mem hslot, hf₁ x hx.2, hw.frame x hx.1 hxp]
  · show entry (writeWord m₁.mem (p + 8 * n) 8 0) p k = entry m.mem p k
    rw [entry_writeWord (by omega), entry_congr hk' hp₁, hw.rest k (by omega) hk']

/-- An entry that points to no table: a valid one would be a leaf, so it is empty and skipped. -/
theorem Walked.next_empty (hw : Walked m mₙ depth p l n) (hb : Beside m (depth + 1) p l) (hn : n < 512)
    (hc : ¬ (entry m.mem p n &&& PTE_V ≠ 0 ∧ entry m.mem p n &&& (PTE_R ||| PTE_W ||| PTE_X) = 0)) :
    ∃ m', freewalkStep depth p mₙ n = .ok m' ∧ Walked m m' depth p l (n + 1) := by
  have hv : entry m.mem p n &&& PTE_V = 0 := by
    by_contra hv
    exact hc ⟨hv, (hb.noLeaf n hn hv).1⟩
  have hBn : below m.mem depth p n = [] := by
    rw [below, if_neg hc]
  refine ⟨mₙ, freewalkStep_empty (hw.load_eq hb hn) hv, ?_, hw.kend, fun x hx => hw.frame x ?_,
    fun k hk hk' => hw.rest k (by omega) hk'⟩
  · rw [flatMap_below_succ, hBn, List.append_nil]
    exact hw.chain
  · rwa [flatMap_below_succ, hBn, List.append_nil] at hx

/-- One entry of `freewalk`'s loop: a table below it is freed by the walk one level down, given
here as `hsub`, and its slot cleared; an empty slot is skipped, and there is no leaf. -/
theorem Walked.next (hb : Beside m (depth + 1) p l)
    (hsub : ∀ {m c l'}, Beside m depth c l' → ∃ m', freewalk depth m c = .ok m' ∧ Freed m m' depth c l')
    {n : ℕ} (hn : n < 512) {mₙ : Phys} (hw : Walked m mₙ depth p l n) :
    ∃ m', freewalkStep depth p mₙ n = .ok m' ∧ Walked m m' depth p l (n + 1) := by
  by_cases hc : entry m.mem p n &&& PTE_V ≠ 0 ∧ entry m.mem p n &&& (PTE_R ||| PTE_W ||| PTE_X) = 0
  · exact hw.next_table hb hsub hn hc
  · exact hw.next_empty hb hn hc

end Loop

/-! ## The tables of a tree, in the order `freewalk` frees them -/

/-- The nodes of a tree in the order `freewalk` frees their tables: under each entry of the
root, the level-0 tables below it and then its level-1 table; the root last. -/
def postorder : List Node :=
  (List.finRange 512).flatMap (fun i => (List.finRange 512).map (Node.bot i) ++ [Node.mid i]) ++ [Node.root]

/-- Above the leaves the tree holds only tables: a valid entry of the root or of a level-1
table carries no permission bits. -/
def Upper (mem : ℕ → UInt8) (root : ℕ) : Prop :=
  ∀ n p, nodePage mem root n = some p → (n = .root ∨ ∃ i, n = .mid i) →
    ∀ k < 512, entry mem p k &&& PTE_V ≠ 0 → entry mem p k &&& (PTE_R ||| PTE_W ||| PTE_X) = 0

theorem mem_postorder (n : Node) : n ∈ postorder := by
  rw [postorder, List.mem_append, List.mem_flatMap]
  cases n with
  | root => exact .inr (List.mem_singleton_self _)
  | mid i => exact .inl ⟨i, List.mem_finRange i, List.mem_append_right _ (List.mem_singleton_self _)⟩
  | bot i j =>
    exact .inl ⟨i, List.mem_finRange i, List.mem_append_left _ (List.mem_map_of_mem (List.mem_finRange j))⟩

theorem mem_postorder_entry {i : Fin 512} {n : Node}
    (h : n ∈ (List.finRange 512).map (Node.bot i) ++ [Node.mid i]) : n = Node.mid i ∨ ∃ j, n = Node.bot i j := by
  rcases List.mem_append.mp h with h | h
  · obtain ⟨j, -, rfl⟩ := List.mem_map.mp h
    exact .inr ⟨j, rfl⟩
  · exact .inl (List.mem_singleton.mp h)

theorem postorder_nodup : postorder.Nodup := by
  have hsub : ∀ i : Fin 512, ((List.finRange 512).map (Node.bot i) ++ [Node.mid i]).Nodup := by
    intro i
    refine ((List.nodup_finRange 512).map fun _ _ h => (Node.bot.inj h).2).append (List.nodup_singleton _) ?_
    intro n h₁ h₂
    obtain ⟨j, -, rfl⟩ := List.mem_map.mp h₁
    cases List.mem_singleton.mp h₂
  rw [postorder, List.nodup_append]
  refine ⟨List.nodup_flatMap.mpr ⟨fun i _ => hsub i, (List.nodup_finRange 512).imp fun hne n h₁ h₂ => ?_⟩,
    List.nodup_singleton _, fun n h₁ n' h₂ => ?_⟩
  · rcases mem_postorder_entry h₁ with rfl | ⟨j, rfl⟩ <;>
      rcases mem_postorder_entry h₂ with h | ⟨j', h⟩ <;>
      cases h <;> exact hne rfl
  · obtain ⟨i, -, h⟩ := List.mem_flatMap.mp h₁
    rcases mem_postorder_entry h with rfl | ⟨j, rfl⟩ <;> cases List.mem_singleton.mp h₂ <;> exact nofun

section Tree

variable {mem : ℕ → UInt8} {root : ℕ}

theorem freedTables_one (p : ℕ) : freedTables mem 1 p = [p] := by
  rw [freedTables_succ, List.flatMap_eq_nil_iff.mpr fun k _ => ?_, List.nil_append]
  unfold below
  split_ifs <;> rfl

theorem below_of_upper (hu : Upper mem root) {n : Node} {p : ℕ} (hp : nodePage mem root n = some p)
    (hn : n = .root ∨ ∃ i, n = .mid i) {k : ℕ} (hk : k < 512) (d : ℕ) :
    below mem d p k = (ptePage (entry mem p k)).toList.flatMap (freedTables mem d) := by
  unfold below ptePage
  by_cases hv : entry mem p k &&& PTE_V = 0
  · rw [if_neg (fun h => h.1 hv), if_pos hv]
    rfl
  · rw [if_pos ⟨hv, hu n p hp hn k hk hv⟩, if_neg hv, Option.toList_some, List.flatMap_singleton]

theorem below_root (hu : Upper mem root) (i : Fin 512) :
    below mem 2 root i =
      ((List.finRange 512).map (Node.bot i) ++ [Node.mid i]).filterMap (nodePage mem root) := by
  rw [below_of_upper hu rfl (.inl rfl) i.isLt, List.filterMap_append, List.filterMap_map, Function.comp_def]
  cases h : ptePage (entry mem root i) with
  | none =>
    have hmid : nodePage mem root (.mid i) = none := h
    have hnil : (List.finRange 512).filterMap (fun j => nodePage mem root (Node.bot i j)) = [] := by
      rw [List.filterMap_eq_nil_iff]
      intro j _
      exact nodePage_bot_of_mid hmid j
    rw [Option.toList_none, List.flatMap_nil, hnil, List.filterMap_cons, hmid]
    rfl
  | some p₁ =>
    have hmid : nodePage mem root (.mid i) = some p₁ := h
    -- each entry of the level-1 table is a level-0 table, or nothing
    have hbot : ∀ j : Fin 512, below mem 1 p₁ j = (nodePage mem root (.bot i j)).toList := by
      intro j
      rw [below_of_upper hu hmid (.inr ⟨i, rfl⟩) j.isLt 1, nodePage_bot, hmid, Option.bind_some]
      cases ptePage (entry mem p₁ j) <;> simp [freedTables_one]
    rw [Option.toList_some, List.flatMap_singleton, freedTables_succ, ← List.map_coe_finRange_eq_range,
      List.flatMap_map, List.flatMap_congr fun j _ => hbot j, ← List.filterMap_eq_flatMap_toList,
      List.filterMap_cons, hmid]
    rfl

/-- From the root of a tree with no leaf above level 0, `freewalk` frees the pages of its
nodes in postorder. -/
theorem freedTables_root (hu : Upper mem root) :
    freedTables mem 3 root = postorder.filterMap (nodePage mem root) := by
  rw [freedTables_succ, postorder, List.filterMap_append, List.filterMap_flatMap,
    ← List.map_coe_finRange_eq_range, List.flatMap_map, List.flatMap_congr fun i _ => below_root hu i,
    List.filterMap_cons, nodePage_root]
  rfl

theorem PageTree.tables_nodup (ht : PageTree mem root) : (postorder.filterMap (nodePage mem root)).Nodup :=
  postorder_nodup.filterMap fun n n' p h h' => ht.inj n n' p h h'

theorem mem_tables {p : ℕ} :
    p ∈ postorder.filterMap (nodePage mem root) ↔ ∃ n, nodePage mem root n = some p := by
  simp only [List.mem_filterMap]
  exact ⟨fun ⟨n, _, h⟩ => ⟨n, h⟩, fun ⟨n, h⟩ => ⟨n, mem_postorder n, h⟩⟩

theorem leaf_of_slot {i j : Fin 512} {p₀ : ℕ} (hb : nodePage mem root (.bot i j) = some p₀) {k : ℕ}
    (hk : k < 512) : leaf mem root (((i * 512 + j) * 512 + k) * PGSIZE) = entry mem p₀ k := by
  have hi := i.isLt
  have hj := j.isLt
  have hpx : ∀ level, PX level (((i * 512 + j) * 512 + k) * PGSIZE) =
      ((i * 512 + j) * 512 + k) / 512 ^ level % 512 := fun level => by
    rw [PX_eq_page, Nat.mul_div_cancel _ (by decide)]
  have h₂ : pxIdx 2 (((i * 512 + j) * 512 + k) * PGSIZE) = i := Fin.ext (by rw [pxIdx_val, hpx]; omega)
  have h₁ : pxIdx 1 (((i * 512 + j) * 512 + k) * PGSIZE) = j := Fin.ext (by rw [pxIdx_val, hpx]; omega)
  have h₀ : PX 0 (((i * 512 + j) * 512 + k) * PGSIZE) = k := by
    rw [hpx]
    omega
  rw [leaf_of_some (by rw [h₂, h₁]; exact hb), h₀]

theorem noLeaf_of_empty (hu : Upper mem root)
    (hempty : ∀ i j p₀, nodePage mem root (.bot i j) = some p₀ → ∀ k < 512, entry mem p₀ k &&& PTE_V = 0) :
    NoLeaf mem 3 root := by
  intro i hi hv
  have hmid : nodePage mem root (.mid ⟨i, hi⟩) = some (PTE2PA (entry mem root i)) :=
    ptePage_eq_some.mpr ⟨hv, rfl⟩
  refine ⟨hu .root root rfl (.inl rfl) i hi hv, fun j hj hv' => ⟨hu _ _ hmid (.inr ⟨_, rfl⟩) j hj hv', ?_⟩⟩
  intro k hk hv''
  have hbot : nodePage mem root (.bot ⟨i, hi⟩ ⟨j, hj⟩) =
      some (PTE2PA (entry mem (PTE2PA (entry mem root i)) j)) := by
    rw [nodePage_bot, hmid, Option.bind_some]
    exact ptePage_eq_some.mpr ⟨hv', rfl⟩
  exact absurd (hempty _ _ _ hbot k hk) hv''

end Tree

/-- `freewalk` over tables with no leaf, beside the free list, does not panic: it pushes every
table on the free list, each once, in the order it frees them, and writes no other page. -/
theorem freewalk_frees (depth : ℕ) {m : Phys} {p : ℕ} {l : List ℕ} (hb : Beside m depth p l) :
    ∃ m', freewalk depth m p = .ok m' ∧ Freed m m' depth p l := by
  induction depth generalizing m p l with
  | zero => exact ⟨m, rfl, hb.chain, rfl, fun _ _ => rfl⟩
  | succ d ih =>
    -- the loop over the 512 entries, by induction on how many are done
    have hloop : ∀ n ≤ 512, ∃ mₙ, (List.range n).foldlM (freewalkStep d p) m = .ok mₙ ∧
        Walked m mₙ d p l n := by
      intro n hn
      induction n with
      | zero => exact ⟨m, rfl, Walked.init hb⟩
      | succ n ihn =>
        obtain ⟨mₙ, hₙ, hw⟩ := ihn (by omega)
        obtain ⟨m', hstep, hw'⟩ := hw.next hb ih (by omega)
        exact ⟨m', Except.foldlM_range_succ hₙ hstep, hw'⟩
    obtain ⟨m₅, h₅, hw⟩ := hloop 512 le_rfl
    -- then the table `p` itself
    have hp : RamPage p := hb.ram p (List.mem_append_left _ self_mem_freedTables)
    obtain ⟨hnd, hpn⟩ := hb.prefix (le_refl 512)
    have hl : ∀ q ∈ ((List.range 512).flatMap (below m.mem d p)).reverse ++ l,
        q % PGSIZE = 0 ∧ q ≠ p ∧ q < 2 ^ 64 := by
      intro q hq
      rw [List.mem_append, List.mem_reverse, ← List.mem_append] at hq
      have hr : RamPage q := by
        refine hb.ram q ?_
        rw [freedTables_succ, List.append_assoc]
        exact List.mem_append.mpr ((List.mem_append.mp hq).imp id (List.mem_append_right _))
      refine ⟨hr.1, fun e => hpn (by rwa [e] at hq), ?_⟩
      have := hr.lt
      simp only [PGSIZE] at this
      omega
    obtain ⟨m', hk, hkend, hfl, hc⟩ := kfree_chain hp.1 (hw.kend ▸ hb.kend p self_mem_freedTables)
      (lt_of_lt_of_le (Nat.lt_add_of_pos_right (by decide)) hp.2.2) hp.ne_zero hw.chain hl
    refine ⟨m', by rw [freewalk_succ, h₅, Except.ok_bind, hk], ?_, hkend.trans hw.kend, fun x hx => ?_⟩
    · rw [hfl, freedTables_succ, List.reverse_append, List.reverse_singleton, List.singleton_append,
        List.cons_append]
      exact hc
    · rw [freedTables_succ, List.mem_append, not_or, List.mem_singleton] at hx
      rw [(kfree_frame hk).2 x (outside_page hp.1 hx.2), hw.frame x hx.1 hx.2]

/-! ## `uvmfree` -/

section Uvmfree

variable {m : Phys} {root : ℕ} {l : List ℕ}

theorem uvmunmap_upper {va : ℕ} (ht : PageTree m.mem root) (hal : va % PGSIZE = 0) {npages : ℕ}
    (hf : Frames m root l va npages) {m' : Phys} (h : uvmunmap m root va npages true = .ok m') :
    ∀ n p, nodePage m.mem root n = some p → (n = .root ∨ ∃ i, n = .mid i) →
      ∀ k < 512, entry m'.mem p k = entry m.mem p k := by
  rw [uvmunmap, if_neg (not_not.mpr hal)] at h
  intro n p hp hn k hk
  refine entry_congr hk fun x hx₁ hx₂ => ?_
  have hx := PGROUNDDOWN_of_page (ht.page n p hp).1 hx₁ hx₂
  refine uvmunmap_frame ht hal (fun k hk c => (hf.foreign k hk).2 c) h (fun i j e => ?_) (fun k' hk' e => ?_)
  · -- `p` is no level-0 table
    rw [hx] at e
    rcases hn with rfl | ⟨i', rfl⟩ <;> cases ht.inj _ _ _ hp e
  · -- nor a frame
    rw [hx] at e
    exact (hf.foreign k' hk').2 n (by rw [← e]; exact hp)

/-- A process's memory of `sz` bytes as `uvmfree` takes it: a tree beside the free list, with
its tables past the kernel, no leaf above level 0 and no table from `MAXVA` up; the pages
below `sz` mapped to frames of their own, and no other page mapped. -/
structure Image (m : Phys) (root : ℕ) (l : List ℕ) (sz : ℕ) : Prop where
  tree : PageTree m.mem root
  alloc : Alloc m root l
  upper : Upper m.mem root
  high : ∀ i : Fin 512, 256 ≤ (i : ℕ) → nodePage m.mem root (.mid i) = none
  kend : ∀ n p, nodePage m.mem root n = some p → m.kend ≤ p
  frames : Frames m root l 0 (PGROUNDUP sz / PGSIZE)
  unmapped : ∀ b < MAXVA, PGROUNDUP sz ≤ b → leaf m.mem root b &&& PTE_V = 0

/-- Once no page is mapped, with the root and level-1 tables as they were, the tables are
beside the free list with no leaf among them, and `freewalk` frees them in postorder. -/
theorem Image.beside {sz : ℕ} (hi : Image m root l sz) {m₁ : Phys} {l₁ : List ℕ}
    (hup : ∀ n p, nodePage m.mem root n = some p → (n = .root ∨ ∃ i, n = .mid i) →
      ∀ k < 512, entry m₁.mem p k = entry m.mem p k)
    (hleaf : ∀ b < MAXVA, leaf m₁.mem root b &&& PTE_V = 0) (ha : Alloc m₁ root l₁) (hk : m₁.kend = m.kend) :
    Beside m₁ 3 root l₁ ∧ freedTables m₁.mem 3 root = postorder.filterMap (nodePage m.mem root) := by
  have hn : nodePage m₁.mem root = nodePage m.mem root := nodePage_congr hup
  have hu : Upper m₁.mem root := by
    intro n p hp hn' k hk hv
    rw [hn] at hp
    rw [hup n p hp hn' k hk] at hv ⊢
    exact hi.upper n p hp hn' k hk hv
  -- each slot of a level-0 table is the leaf of an address below `MAXVA`, now empty
  have hempty : ∀ i j p₀, nodePage m₁.mem root (.bot i j) = some p₀ → ∀ k < 512,
      entry m₁.mem p₀ k &&& PTE_V = 0 := by
    intro i j p₀ hb k hk
    have hi₂ : (i : ℕ) < 256 := by
      by_contra hge
      rw [nodePage_bot_of_mid (hn ▸ hi.high i (by omega)) j] at hb
      cases hb
    have hva : ((i * 512 + j) * 512 + k) * PGSIZE < MAXVA := by
      have hj := j.isLt
      simp only [PGSIZE, MAXVA]
      omega
    rw [← leaf_of_slot hb hk]
    exact hleaf _ hva
  have htab : freedTables m₁.mem 3 root = postorder.filterMap (nodePage m.mem root) := by
    rw [freedTables_root hu, hn]
  refine ⟨⟨ha.chain, noLeaf_of_empty hu hempty, ?_, fun q hq => ?_, fun q hq => ?_⟩, htab⟩
  · rw [htab]
    refine hi.tree.tables_nodup.append ha.nodup fun q hq hq' => ?_
    obtain ⟨n, hn'⟩ := mem_tables.mp hq
    exact ha.not_node q hq' n (by rw [hn]; exact hn')
  · rw [htab, List.mem_append] at hq
    rcases hq with hq | hq
    · obtain ⟨n, hn'⟩ := mem_tables.mp hq
      exact hi.tree.page n q hn'
    · exact ha.page q hq
  · rw [htab] at hq
    obtain ⟨n, hn'⟩ := mem_tables.mp hq
    rw [hk]
    exact hi.kend n q hn'

theorem onePage_image : Image onePage KERNBASE [] PGSIZE := by
  refine ⟨onePage_tree, onePage_alloc, fun n p h hn k hk hv => ?_, fun i hi => ?_, fun n p h => (onePage_page h).2,
    onePage_frames, fun b hb hb' => ?_⟩
  · -- the tables above level 0 hold only their first entry, a table's
    rw [show onePage.mem = onePageMem from rfl, onePageMem_entry (onePage_page h).1.1 hk] at hv ⊢
    obtain ⟨-, rfl⟩ | ⟨-, rfl⟩ : n = .root ∧ p = KERNBASE ∨ n = .mid 0 ∧ p = KERNBASE + PGSIZE := by
      rcases onePageMem_node h with h' | h' | ⟨rfl, -⟩
      · exact .inl h'
      · exact .inr h'
      · rcases hn with h | ⟨i, h⟩ <;> cases h
    all_goals
      split_ifs at hv ⊢ with h₁ h₂ h₃ <;>
        first | decide | (exact absurd rfl hv) | (simp only [PGSIZE] at h₁; omega)
  · cases h : nodePage onePage.mem KERNBASE (.mid i) with
    | none => rfl
    | some p =>
      rcases onePageMem_node h with ⟨h', -⟩ | ⟨h', -⟩ | ⟨h', -⟩
      · cases h'
      · cases Node.mid.inj h'
        exact absurd hi (by decide)
      · cases h'
  · rw [show onePage.mem = onePageMem from rfl, onePageMem_leaf hb, if_neg]
    · exact Nat.zero_and _
    · have hround : PGROUNDUP PGSIZE = PGSIZE := by decide
      rw [hround] at hb'
      simp only [PGSIZE] at hb' ⊢
      omega

/-- `uvmfree` of a process's memory does not panic: it puts the frame of every user page on
the free list and then every table, in the order it frees them, and each page once. -/
theorem uvmfree_frees {sz : ℕ} (hi : Image m root l sz) :
    ∃ m', uvmfree m root sz = .ok m' ∧ m'.kend = m.kend ∧
      FreeChain m'.mem m'.freelist ((postorder.filterMap (nodePage m.mem root)).reverse ++
        (unmappedFrames m.mem root 0 (PGROUNDUP sz / PGSIZE)).reverse ++ l) ∧
      (postorder.filterMap (nodePage m.mem root) ++ unmappedFrames m.mem root 0 (PGROUNDUP sz / PGSIZE) ++
        l).Nodup := by
  -- first the user pages, whose frames go on the list
  obtain ⟨m₁, hu, hup, hleaf, ha, hk⟩ : ∃ m₁,
      (if 0 < sz then uvmunmap m root 0 (PGROUNDUP sz / PGSIZE) true else pure m) = .ok m₁ ∧
      (∀ n p, nodePage m.mem root n = some p → (n = .root ∨ ∃ i, n = .mid i) →
        ∀ k < 512, entry m₁.mem p k = entry m.mem p k) ∧
      (∀ b < MAXVA, leaf m₁.mem root b &&& PTE_V = 0) ∧
      Alloc m₁ root ((unmappedFrames m.mem root 0 (PGROUNDUP sz / PGSIZE)).reverse ++ l) ∧ m₁.kend = m.kend := by
    by_cases hsz : 0 < sz
    · obtain ⟨m₁, hu, -, hl₁, ha₁, hk₁⟩ := uvmunmap_frees hi.tree hi.alloc (Nat.zero_mod _) hi.frames
      have hround : PGROUNDUP sz / PGSIZE * PGSIZE = PGROUNDUP sz :=
        Nat.div_mul_cancel (Nat.dvd_of_mod_eq_zero (PGROUNDUP_mod sz))
      refine ⟨m₁, by rw [if_pos hsz]; exact hu, uvmunmap_upper hi.tree (Nat.zero_mod _) hi.frames hu,
        fun b hb => ?_, ha₁, hk₁⟩
      rw [hl₁ b hb, Nat.zero_add, hround]
      split_ifs with hb'
      · exact Nat.zero_and _
      · exact hi.unmapped b hb (by omega)
    · obtain rfl : sz = 0 := by omega
      have hz : PGROUNDUP 0 / PGSIZE = 0 := by decide
      refine ⟨m, if_neg hsz, fun _ _ _ _ _ _ => rfl,
        fun b hb => hi.unmapped b hb (by rw [show PGROUNDUP 0 = 0 from rfl]; exact Nat.zero_le b), ?_, rfl⟩
      rw [hz]
      exact hi.alloc
  -- then the tables, which `freewalk` frees from the root down
  obtain ⟨hb, htab⟩ := hi.beside hup hleaf ha hk
  obtain ⟨m', hfw, hfr⟩ := freewalk_frees 3 hb
  have hrun : uvmfree m root sz = .ok m' := by
    -- the `do` block put the call of `freewalk` into both branches of the `if`
    unfold uvmfree
    split_ifs at hu ⊢ <;> simp only [hu, Except.ok_bind, hfw]
  refine ⟨m', hrun, hfr.kend.trans hk, ?_, ?_⟩
  · rw [List.append_assoc, ← htab]
    exact hfr.chain
  · have hnd := hb.nodup
    rw [htab] at hnd
    rw [List.append_assoc]
    exact (List.Perm.append_left _ (List.Perm.append_right l (List.reverse_perm _))).nodup_iff.mp hnd

theorem uvmfree_frees_onePage : ∃ m', uvmfree onePage KERNBASE PGSIZE = .ok m' ∧ m'.kend = KERNBASE :=
  let ⟨m', h, hk, _⟩ := uvmfree_frees onePage_image
  ⟨m', h, hk⟩

end Uvmfree

end Xv6
