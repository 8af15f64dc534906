import Mathlib.Data.Set.Function
import Xv6.Proofs.Mapping

/-! `uvmalloc` over the page-table tree. The table code writes only tables and the pages it
takes off the free list (`Evolves`): a page that is neither free nor a table (`Foreign`) keeps
its bytes. A growth that returned `newsz` mapped each new page to its own zeroed frame from the
free list; one that returned `0` unmapped and freed what it had mapped, so every address
translates as before. -/

namespace Xv6

open ByteMem

/-! ## What the table code writes -/

/-- A page that is neither free nor a table of the tree. -/
def Foreign (m : Phys) (root : ℕ) (l : List ℕ) (p : ℕ) : Prop :=
  p ∉ l ∧ ∀ n, nodePage m.mem root n ≠ some p

/-- What the table code may do: pages leave the free list from its front, the new tables are
on pages that were free, and no byte of a foreign page changes. -/
structure Evolves (m m' : Phys) (root : ℕ) (l l' : List ℕ) : Prop where
  suffix : l' <:+ l
  node : ∀ n p, nodePage m'.mem root n = some p → (∃ n', nodePage m.mem root n' = some p) ∨ p ∈ l
  frame : ∀ x, Foreign m root l (PGROUNDDOWN x) → m'.mem x = m.mem x
  kend : m'.kend = m.kend

theorem outside_page {p x : ℕ} (hp : p % PGSIZE = 0) (hx : PGROUNDDOWN x ≠ p) : x < p ∨ p + PGSIZE ≤ x := by
  simp only [PGROUNDDOWN, PGSIZE] at *
  omega

theorem node_of_update {f : Node → Option ℕ} {C n : Node} {q p : ℕ}
    (h : Function.update f C (some q) n = some p) : f n = some p ∨ p = q := by
  rw [Function.update_apply] at h
  split_ifs at h
  · exact .inr (Option.some.inj h).symm
  · exact .inl h

theorem installMem_of_ne {mem : ℕ → UInt8} {pt k q x : ℕ} (hpt : pt % PGSIZE = 0) (hq : q % PGSIZE = 0)
    (hk : k < 512) (hxpt : PGROUNDDOWN x ≠ pt) (hxq : PGROUNDDOWN x ≠ q) : installMem mem pt k q x = mem x := by
  have h₁ := outside_page hq hxq
  have h₂ : x < pt + 8 * k ∨ pt + 8 * k + 8 ≤ x := by
    have := outside_page hpt hxpt
    simp only [PGSIZE] at this
    omega
  rw [installMem, writeWord_of_not_mem h₂, fill_of_not_mem h₁, fill_of_not_mem h₁]

namespace Evolves

variable {m m' m'' : Phys} {root : ℕ} {l l' l'' : List ℕ}

theorem refl (m : Phys) (root : ℕ) (l : List ℕ) : Evolves m m root l l :=
  ⟨List.suffix_refl l, fun n _ h => .inl ⟨n, h⟩, fun _ _ => rfl, rfl⟩

theorem foreign (he : Evolves m m' root l l') {p : ℕ} (hp : Foreign m root l p) : Foreign m' root l' p := by
  refine ⟨fun h => hp.1 (he.suffix.subset h), fun n h => ?_⟩
  rcases he.node n p h with ⟨n', h'⟩ | h'
  · exact hp.2 n' h'
  · exact hp.1 h'

theorem trans (he : Evolves m m' root l l') (he' : Evolves m' m'' root l' l'') : Evolves m m'' root l l'' where
  suffix := he'.suffix.trans he.suffix
  node n p h := by
    rcases he'.node n p h with ⟨n', h'⟩ | h'
    · exact he.node n' p h'
    · exact .inr (he.suffix.subset h')
  frame x hx := (he'.frame x (he.foreign hx)).trans (he.frame x hx)
  kend := he'.kend.trans he.kend

theorem page (he : Evolves m m' root l l') {p : ℕ} (hal : p % PGSIZE = 0) (hp : Foreign m root l p) :
    ∀ i < PGSIZE, m'.mem (p + i) = m.mem (p + i) := by
  intro i hi
  have hd : PGROUNDDOWN (p + i) = p := by
    simp only [PGROUNDDOWN, PGSIZE] at hal hi ⊢
    omega
  exact he.frame _ (by rw [hd]; exact hp)

theorem install (ht : PageTree m.mem root) {q : ℕ} (ha : Alloc m root (q :: l)) {P C : Node} {pt k : ℕ}
    (hpt : nodePage m.mem root P = some pt) (hk : k < 512)
    (hn : nodePage (installMem m.mem pt k q) root = Function.update (nodePage m.mem root) C (some q)) :
    Evolves m (installed m pt k q) root (q :: l) l where
  suffix := List.suffix_cons q l
  node n p h := by
    rw [installed_mem, hn] at h
    rcases node_of_update h with h | rfl
    · exact .inl ⟨n, h⟩
    · exact .inr List.mem_cons_self
  frame x hx := installMem_of_ne (ht.page P pt hpt).1 (ha.page q List.mem_cons_self).1 hk
    (fun h => hx.2 P (by rw [h]; exact hpt)) (fun h => hx.1 (by rw [h]; exact List.mem_cons_self))
  kend := rfl

theorem store (ht : PageTree m.mem root) {n₀ : Node} {p k : ℕ} (hp : nodePage m.mem root n₀ = some p)
    (hk : k < 512) (w : ℕ) (hn : nodePage (m.store (p + 8 * k) w).mem root = nodePage m.mem root) :
    Evolves m (m.store (p + 8 * k) w) root l l where
  suffix := List.suffix_refl l
  node n p' h := .inl ⟨n, hn ▸ h⟩
  frame x hx := by
    have h := outside_page (ht.page n₀ p hp).1 (fun h => hx.2 n₀ (by rw [h]; exact hp))
    have hslot : x < p + 8 * k ∨ p + 8 * k + 8 ≤ x := by
      simp only [PGSIZE] at h
      omega
    exact writeWord_of_not_mem hslot
  kend := rfl

end Evolves

/-! ## `walk`, `mappages` and `kalloc` -/

section Steps

variable {m : Phys} {root va : ℕ} {l : List ℕ}

/-- `walk` with `alloc`, whatever it returned: the tree grew by tables on pages from the front of
the free list, and its leaves stayed. -/
theorem walk_alloc_evolves (ht : PageTree m.mem root) (ha : Alloc m root l) {r : Option ℕ} {m' : Phys}
    (h : walk m root va true = .ok (r, m')) :
    ∃ l', PageTree m'.mem root ∧ Alloc m' root l' ∧ Evolves m m' root l l' ∧
      leaf m'.mem root = leaf m.mem root := by
  have hva := lt_MAXVA_of_walk h
  have hr := ht.page .root root rfl
  by_cases hl : (missing m.mem root va).length ≤ l.length
  · cases hb : nodePage m.mem root (.bot (pxIdx 2 va) (pxIdx 1 va)) with
    | some p₀ =>
      rw [walk_some ht hva hb] at h
      cases h
      exact ⟨l, ht, ha, .refl m root l, rfl⟩
    | none =>
      cases h₁ : nodePage m.mem root (.mid (pxIdx 2 va)) with
      | some p₁ =>
        -- one table missing, on the first free page
        obtain ⟨q, l', rfl⟩ : ∃ q l', l = q :: l' := by
          cases l with
          | nil => simp [missing_of_mid h₁ hb] at hl
          | cons q l' => exact ⟨q, l', rfl⟩
        obtain ⟨hw, hn, ht', ha', hleaf⟩ := walk_install_bot ht ha hva rfl h₁ hb
        rw [hw] at h
        cases h
        exact ⟨l', ht', ha', .install ht ha h₁ (PX_lt 1 va) hn, hleaf⟩
      | none =>
        -- two tables missing, on the first two free pages
        obtain ⟨q₁, q₀, l', rfl⟩ : ∃ q₁ q₀ l', l = q₁ :: q₀ :: l' := by
          rcases l with _ | ⟨q₁, _ | ⟨q₀, l'⟩⟩
          · simp [missing_of_none h₁] at hl
          · simp [missing_of_none h₁] at hl
          · exact ⟨q₁, q₀, l', rfl⟩
        obtain ⟨hw, hn, ht', ha', hleaf⟩ := walk_install_mid ht ha hva rfl h₁
        rw [hw] at h
        cases h
        have hq₁ := ha.page q₁ List.mem_cons_self
        have hq₀ := ha.page q₀ (List.mem_cons_of_mem _ List.mem_cons_self)
        refine ⟨l', ht', ha', ⟨(List.suffix_cons _ _).trans (List.suffix_cons _ _), fun n p h => ?_,
          fun x hx => ?_, rfl⟩, hleaf⟩
        · rw [hn] at h
          rcases node_of_update h with h | rfl
          · rcases node_of_update h with h | rfl
            · exact .inl ⟨n, h⟩
            · exact .inr List.mem_cons_self
          · exact .inr (List.mem_cons_of_mem _ List.mem_cons_self)
        · have hxr : PGROUNDDOWN x ≠ root := fun e => hx.2 .root (by rw [e]; rfl)
          have hx₁ : PGROUNDDOWN x ≠ q₁ := fun e => hx.1 (by rw [e]; exact List.mem_cons_self)
          have hx₀ : PGROUNDDOWN x ≠ q₀ := fun e =>
            hx.1 (by rw [e]; exact List.mem_cons_of_mem _ List.mem_cons_self)
          simp only [installed_mem]
          rw [installMem_of_ne hq₁.1 hq₀.1 (PX_lt 1 va) hx₁ hx₀,
            installMem_of_ne hr.1 hq₁.1 (PX_lt 2 va) hxr hx₁]
  · rcases walk_alloc_short ht ha hva (Nat.lt_of_not_le hl) with hw | ⟨q₁, rfl, h₁, hw⟩
    · rw [hw] at h
      cases h
      exact ⟨l, ht, ha, .refl m root l, rfl⟩
    · -- the level-1 table took the one free page, and the level-0 one found none
      rw [hw] at h
      cases h
      have hn₁ := nodePage_install_mid ht ha (i := pxIdx 2 va) h₁
      rw [pxIdx_val] at hn₁
      exact ⟨[], PageTree.install ht ha hn₁, Alloc.install ha hr ⟨.root, rfl⟩ (PX_lt 2 va) hn₁,
        .install ht ha (P := .root) rfl (PX_lt 2 va) hn₁,
        leaf_installMem ht ha h₁ (PX_lt 2 va) nodePage_root (fun _ _ => by simp) hn₁⟩

theorem mappages_one {m : Phys} {a pa perm : ℕ} (hal : a % PGSIZE = 0) :
    mappages m root a PGSIZE pa perm = mappagesLoop root a perm 1 m a pa := by
  have hda : PGROUNDDOWN a = a := by
    simp only [PGROUNDDOWN, PGSIZE] at hal ⊢
    omega
  have hlast : PGROUNDDOWN (a + PGSIZE - 1) = a := by
    simp only [PGROUNDDOWN, PGSIZE] at hal ⊢
    omega
  rw [mappages, if_neg (by decide)]
  dsimp only
  rw [hda, hlast, Nat.sub_self, Nat.zero_div, Nat.zero_add]

/-- `mappages` of one aligned page, as `uvmalloc` calls it: `-1` with no leaf changed when
`walk` found no free page, or `0` with the page, which held no valid mapping, mapped to `pa`. -/
theorem mappages_page (ht : PageTree m.mem root) (ha : Alloc m root l) {a pa perm : ℕ} {r : ℤ} {m' : Phys}
    (hal : a % PGSIZE = 0) (h : mappages m root a PGSIZE pa perm = .ok (r, m')) :
    ∃ l', PageTree m'.mem root ∧ Alloc m' root l' ∧ Evolves m m' root l l' ∧
      ((r = -1 ∧ leaf m'.mem root = leaf m.mem root) ∨
        (r = 0 ∧ a < MAXVA ∧ leaf m.mem root a &&& PTE_V = 0 ∧
          ∀ b < MAXVA, leaf m'.mem root b =
            if b / PGSIZE = a / PGSIZE then (PA2PTE pa ||| perm ||| PTE_V) % 2 ^ 64 else leaf m.mem root b)) := by
  rw [mappages_one hal, mappagesLoop, Except.bind_eq_ok] at h
  obtain ⟨⟨r₁, m₁⟩, hw, h⟩ := h
  obtain ⟨l₁, ht₁, ha₁, he₁, hleaf₁⟩ := walk_alloc_evolves ht ha hw
  cases r₁ with
  | none =>
    -- `walk` found no free page
    cases h
    exact ⟨l₁, ht₁, ha₁, he₁, .inl ⟨rfl, hleaf₁⟩⟩
  | some pte =>
    obtain ⟨v, hv, h⟩ := Except.bind_eq_ok.mp h
    dsimp only at h
    by_cases hvalid : v &&& PTE_V ≠ 0
    · rw [if_pos hvalid] at h
      cases h
    rw [if_neg hvalid, if_pos rfl] at h
    cases h
    obtain ⟨hva, p₀, -, rfl, hb, -⟩ := walk_alloc_some ht ha hw
    obtain ⟨hn, hl⟩ := ht₁.store_leaf hb (PX_lt 0 a) (PA2PTE pa ||| perm ||| PTE_V)
    refine ⟨l₁, ht₁.congr hn, ha₁.store_node hb (ht₁.page _ _ hb).1 (PX_lt 0 a) _ hn,
      he₁.trans (.store ht₁ hb (PX_lt 0 a) _ hn), .inr ⟨rfl, hva, ?_, fun b hb' => ?_⟩⟩
    · rw [← walk_alloc_load ht ha hw hv]
      exact not_not.mp hvalid
    · rw [Phys.mem_store, hl, hleaf₁]
      exact if_congr (same_page_iff hva hb') rfl rfl

/-- `mappages` of one aligned page below `MAXVA` that held no valid mapping, with two free pages
for its tables, returns `0` and takes at most those two. -/
theorem mappages_page_ok (ht : PageTree m.mem root) (ha : Alloc m root l) {a : ℕ} (hal : a % PGSIZE = 0)
    (hva : a < MAXVA) (hl : 2 ≤ l.length) (hfree : leaf m.mem root a &&& PTE_V = 0) (pa perm : ℕ) :
    ∃ m' l', mappages m root a PGSIZE pa perm = .ok (0, m') ∧ l.length ≤ l'.length + 2 ∧
      PageTree m'.mem root ∧ Alloc m' root l' ∧ Evolves m m' root l l' ∧
      ∀ b < MAXVA, leaf m'.mem root b =
        if b / PGSIZE = a / PGSIZE then (PA2PTE pa ||| perm ||| PTE_V) % 2 ^ 64 else leaf m.mem root b := by
  obtain ⟨m₁, p₀, hg, hb, hmp⟩ := mappagesLoop_round_ok ht ha hva hl hfree a perm 0 pa
  rw [if_pos rfl, ← mappages_one hal] at hmp
  obtain ⟨-, hd, -⟩ := store_of_grown hg hva hb (PA2PTE pa ||| perm ||| PTE_V)
  obtain ⟨l', ht', ha', he, ⟨h1, -⟩ | ⟨-, -, -, hleaf⟩⟩ := mappages_page ht ha hal hmp
  · cases h1
  -- the list left is the one `store_of_grown` names: the path missed at most two tables
  have hk : (missing m.mem root a).length ≤ 2 := List.length_filter_le _ _
  refine ⟨_, l', hmp, ?_, ht', ha', he, hleaf⟩
  rw [hd.chain.unique ha'.chain, List.length_drop]
  omega

theorem kalloc_eq {q : ℕ} (ha : Alloc m root (q :: l)) :
    kalloc m = (q, ({ m with freelist := readWord m.mem q 8 } : Phys).memset q 5 PGSIZE) := by
  have hfl : m.freelist = q := ha.chain.head
  simp [kalloc, hfl, (ha.page q List.mem_cons_self).ne_zero]

/-- The first free page taken off the list and written inside: the rest of the list is the
list, and the page is foreign to the tree. -/
theorem take_page (ht : PageTree m.mem root) {q : ℕ} (ha : Alloc m root (q :: l)) {m₁ : Phys}
    (hout : ∀ x, x < q ∨ q + PGSIZE ≤ x → m₁.mem x = m.mem x) (hfl : m₁.freelist = readWord m.mem q 8)
    (hk : m₁.kend = m.kend) :
    PageTree m₁.mem root ∧ Alloc m₁ root l ∧ Evolves m m₁ root (q :: l) l ∧
      leaf m₁.mem root = leaf m.mem root ∧ Foreign m₁ root l q := by
  have hq := ha.page q List.mem_cons_self
  have hnd := List.nodup_cons.mp ha.nodup
  obtain ⟨hn, hl⟩ := ht.frame hq.1 (ha.not_node q List.mem_cons_self) hout
  refine ⟨ht.congr hn, ⟨?_, hnd.2, fun p hp => ha.page p (List.mem_cons_of_mem _ hp), fun p hp n => ?_⟩,
    ⟨List.suffix_cons q l, fun n p h => .inl ⟨n, hn ▸ h⟩, fun x hx => hout x (outside_page hq.1 ?_), hk⟩,
    hl, ⟨hnd.1, fun n => by rw [hn]; exact ha.not_node q List.mem_cons_self n⟩⟩
  · -- the rest of the list, whose first words lie outside `q`
    have hc : FreeChain m.mem (readWord m.mem q 8) l := by
      have h := ha.chain
      rw [ha.chain.head] at h
      cases h with
      | cons _ h => exact h
    rw [hfl]
    exact hc.frame fun p hp i hi => hout _ (word_outside (ha.page p (List.mem_cons_of_mem _ hp)).1 hq.1
      (fun e => hnd.1 (e ▸ hp)) hi)
  · rw [hn]
    exact ha.not_node p (List.mem_cons_of_mem _ hp) n
  · exact fun e => hx.1 (e ▸ List.mem_cons_self)

/-- A `kalloc` that found a page took it from a free list that was not empty. -/
theorem Alloc.exists_cons (ha : Alloc m root l) (hq : (kalloc m).1 ≠ 0) : ∃ q l₁, l = q :: l₁ := by
  cases l with
  | nil => exact absurd ((kalloc_chain ha.chain (fun q hq => (ha.page q hq).1) ha.nodup).1) hq
  | cons q l₁ => exact ⟨q, l₁, rfl⟩

theorem kalloc_take (ht : PageTree m.mem root) {q : ℕ} (ha : Alloc m root (q :: l)) (c : UInt8) :
    ∃ m₁, kalloc m = (q, m₁) ∧ PageTree (m₁.memset q c PGSIZE).mem root ∧
      Alloc (m₁.memset q c PGSIZE) root l ∧ Evolves m (m₁.memset q c PGSIZE) root (q :: l) l ∧
      leaf (m₁.memset q c PGSIZE).mem root = leaf m.mem root ∧ Foreign (m₁.memset q c PGSIZE) root l q ∧
      ∀ i < PGSIZE, (m₁.memset q c PGSIZE).mem (q + i) = c := by
  have hout : ∀ x, x < q ∨ q + PGSIZE ≤ x →
      ((({ m with freelist := readWord m.mem q 8 } : Phys).memset q 5 PGSIZE).memset q c PGSIZE).mem x = m.mem x := by
    intro x hx
    simp only [Phys.memset]
    rw [fill_of_not_mem hx, fill_of_not_mem hx]
  obtain ⟨ht₁, ha₁, he₁, hl₁, hf₁⟩ := take_page ht ha hout rfl rfl
  refine ⟨_, kalloc_eq ha, ht₁, ha₁, he₁, hl₁, hf₁, fun i hi => ?_⟩
  simp only [Phys.memset, fill]
  rw [if_neg (by omega), if_pos (by omega)]

/-- `uvmcreate` on a free list of pages of RAM: the first page becomes a root with no table
below it, beside the rest of the list. -/
theorem uvmcreate_tree {q : ℕ} (hc : FreeChain m.mem m.freelist (q :: l)) (hnd : (q :: l).Nodup)
    (hram : ∀ p ∈ q :: l, RamPage p) :
    ∃ m₁, uvmcreate m = (q, m₁) ∧ PageTree m₁.mem q ∧ Alloc m₁ q l ∧ ∀ b, leaf m₁.mem q b = 0 := by
  have hq := hram q List.mem_cons_self
  have hfl : m.freelist = q := hc.head
  have h0 : ∀ k < 512, entry (fill (fill m.mem q PGSIZE 5) q PGSIZE 0) q k = 0 := fun k hk => entry_fill_zero 5 hk
  refine ⟨(({ m with freelist := readWord m.mem q 8 } : Phys).memset q 5 PGSIZE).memset q 0 PGSIZE,
    by simp [uvmcreate, kalloc, hfl, hq.ne_zero], pageTree_of_zero hq h0, ⟨?_, (List.nodup_cons.mp hnd).2,
    fun p hp => hram p (List.mem_cons_of_mem _ hp), fun p hp n hn => ?_⟩, fun b => ?_⟩
  · -- the rest of the list, whose first words lie outside `q`
    have hc' : FreeChain m.mem (readWord m.mem q 8) l := by
      rw [hfl] at hc
      cases hc with
      | cons _ h => exact h
    refine hc'.frame fun p hp i hi => ?_
    have hout := word_outside (hram p (List.mem_cons_of_mem _ hp)).1 hq.1
      (fun e => (List.nodup_cons.mp hnd).1 (e ▸ hp)) hi
    simp only [Phys.memset]
    rw [fill_of_not_mem hout, fill_of_not_mem hout]
  · rw [(nodePage_of_zero h0 hn).2] at hp
    exact (List.nodup_cons.mp hnd).1 hp
  · cases hb : nodePage (fill (fill m.mem q PGSIZE 5) q PGSIZE 0) q (.bot (pxIdx 2 b) (pxIdx 1 b)) with
    | none => exact leaf_of_none hb
    | some p => cases (nodePage_of_zero h0 hb).1

theorem uvmcreate_kend : (uvmcreate m).2.kend = m.kend := by
  have hk : (kalloc m).2.kend = m.kend := by
    unfold kalloc
    split_ifs <;> rfl
  unfold uvmcreate
  rcases hq : kalloc m with ⟨q, m₁⟩
  rw [hq] at hk
  dsimp only
  split_ifs <;> exact hk

theorem kalloc_zero (h : (kalloc m).1 = 0) : (kalloc m).2 = m := by
  unfold kalloc at h ⊢
  split_ifs at h ⊢ with h0
  · rfl
  · exact absurd h h0

/-- `kfree` of a page of RAM that is neither free nor a table puts it at the front of the list
and leaves the tree. -/
theorem kfree_foreign (ht : PageTree m.mem root) (ha : Alloc m root l) {p : ℕ} (hp : RamPage p)
    (hf : Foreign m root l p) {m' : Phys} (h : kfree m p = .ok m') :
    nodePage m'.mem root = nodePage m.mem root ∧ leaf m'.mem root = leaf m.mem root ∧ Alloc m' root (p :: l) := by
  obtain ⟨hal, hout⟩ := kfree_frame h
  obtain ⟨hn, hl⟩ := ht.frame hal hf.2 hout
  have hk : m.kend ≤ p := by
    unfold kfree at h
    split_ifs at h with hbad
    omega
  have hlt := hp.lt
  have hpp : p < PHYSTOP := by
    have := hp.2.2
    simp only [PGSIZE] at this
    omega
  obtain ⟨m'', h'', -, hfl, hc⟩ := kfree_chain hp.1 hk hpp hp.ne_zero ha.chain
    fun q hq => ⟨(ha.page q hq).1, fun e => hf.1 (e ▸ hq), by have := (ha.page q hq).lt; omega⟩
  rw [h] at h''
  cases h''
  refine ⟨hn, hl, ⟨hfl ▸ hc, List.nodup_cons.mpr ⟨hf.1, ha.nodup⟩, fun q hq => ?_, fun q hq n => ?_⟩⟩
  · rcases List.mem_cons.mp hq with rfl | hq
    · exact hp
    · exact ha.page q hq
  · rw [hn]
    rcases List.mem_cons.mp hq with rfl | hq
    · exact hf.2 n
    · exact ha.not_node q hq n

end Steps

/-! ## The first process's table -/

/-- After `kinit` from boot and `uvmcreate`: an empty table, with the rest of RAM free. -/
theorem boot_table :
    ∃ m0 root m₁ l, kinit ⟨fun _ => 0, 0, KERNBASE⟩ = .ok m0 ∧ uvmcreate m0 = (root, m₁) ∧
      PageTree m₁.mem root ∧ Alloc m₁ root l ∧ l.length = 32767 ∧ (∀ b, leaf m₁.mem root b = 0) ∧
      m₁.kend = KERNBASE := by
  obtain ⟨m0, hk, hkend, hc⟩ := kinit_chain (m := ⟨fun _ => 0, 0, KERNBASE⟩) rfl (by decide)
  have hlen : (pageRange (PGROUNDUP KERNBASE) PHYSTOP).reverse.length = 32768 := by
    simp only [pageRange, List.length_reverse, List.length_map, List.length_range]
    decide
  obtain ⟨q, l, hql⟩ : ∃ q l, (pageRange (PGROUNDUP KERNBASE) PHYSTOP).reverse = q :: l :=
    List.exists_cons_of_length_pos (by omega)
  rw [hql] at hc hlen
  have hnd : (q :: l).Nodup := hql ▸ List.nodup_reverse.mpr nodup_pageRange
  have hram : ∀ p ∈ q :: l, RamPage p := by
    intro p hp
    rw [← hql, List.mem_reverse, mem_pageRange (PGROUNDUP_mod _)] at hp
    exact ⟨hp.2.2, (le_PGROUNDUP KERNBASE).trans hp.1, hp.2.1⟩
  obtain ⟨m₁, hu, ht, ha, hleaf⟩ := uvmcreate_tree hc hnd hram
  rw [List.length_cons] at hlen
  have hk₁ : m₁.kend = m0.kend := by
    rw [← uvmcreate_kend (m := m0), hu]
  exact ⟨m0, q, m₁, l, hk, hu, ht, ha, by omega, hleaf, hk₁.trans hkend⟩

/-! ## `uvmalloc` -/

section Uvmalloc

variable {root o newsz xperm : ℕ}

/-- One round of `uvmalloc`'s loop below `newsz`: `kalloc` found no page and the loop returned
`0` after `uvmdealloc`; or `mappages` of the zeroed page failed and the loop returned `0` after
`kfree` and `uvmdealloc`; or it succeeded and the loop goes on. -/
theorem uvmallocLoop_round {fuel a r : ℕ} {m m' : Phys} (hlt : a < newsz)
    (h : uvmallocLoop root o newsz xperm (fuel + 1) m a = .ok (r, m')) :
    ((kalloc m).1 = 0 ∧ r = 0 ∧ ∃ s, uvmdealloc (kalloc m).2 root a o = .ok (s, m')) ∨
      ((kalloc m).1 ≠ 0 ∧ ∃ r' m₂, mappages ((kalloc m).2.memset (kalloc m).1 0 PGSIZE) root a PGSIZE
          (kalloc m).1 (PTE_R ||| PTE_U ||| xperm) = .ok (r', m₂) ∧
        ((r' ≠ 0 ∧ r = 0 ∧ ∃ m₃ s, kfree m₂ (kalloc m).1 = .ok m₃ ∧
            uvmdealloc m₃ root a o = .ok (s, m')) ∨
          (r' = 0 ∧ uvmallocLoop root o newsz xperm fuel m₂ (a + PGSIZE) = .ok (r, m')))) := by
  rw [uvmallocLoop, if_pos hlt] at h
  rcases hk : kalloc m with ⟨q, m₁⟩
  rw [hk] at h
  dsimp only at h ⊢
  by_cases hq : q = 0
  · rw [if_pos hq] at h
    obtain ⟨⟨s, m₂⟩, hd, h⟩ := Except.bind_eq_ok.mp h
    cases h
    exact .inl ⟨hq, rfl, s, hd⟩
  rw [if_neg hq] at h
  obtain ⟨⟨r', m₂⟩, hmp, h⟩ := Except.bind_eq_ok.mp h
  refine .inr ⟨hq, r', m₂, hmp, ?_⟩
  dsimp only at h
  by_cases hr : r' ≠ 0
  · rw [if_pos hr] at h
    obtain ⟨m₃, hf, h⟩ := Except.bind_eq_ok.mp h
    obtain ⟨⟨s, m₄⟩, hd, h⟩ := Except.bind_eq_ok.mp h
    cases h
    exact .inl ⟨hr, rfl, m₃, s, hf, hd⟩
  · rw [if_neg hr] at h
    exact .inr ⟨not_not.mp hr, h⟩

/-- The pages `uvmalloc` maps growing a process from the aligned `a` to `newsz`. -/
def grownPages (a newsz : ℕ) : Set ℕ := {p | a ≤ p ∧ p < newsz ∧ p % PGSIZE = 0}

@[simp] theorem mem_grownPages {a newsz p : ℕ} :
    p ∈ grownPages a newsz ↔ a ≤ p ∧ p < newsz ∧ p % PGSIZE = 0 :=
  Iff.rfl

theorem grownPages_succ {a newsz p : ℕ} (hal : a % PGSIZE = 0) (hp : p ∈ grownPages a newsz) (hpa : p ≠ a) :
    p ∈ grownPages (a + PGSIZE) newsz := by
  simp only [mem_grownPages, PGSIZE] at *
  omega

/-- What a loop of `uvmalloc` or `uvmcopy` left after mapping the pages from `a` below `sz`:
each new page `p` maps its own frame `fr p` with `perm p`, a page taken off the free list `l`
and now foreign to the tree; no other leaf changed. -/
structure Mapped (m m' : Phys) (root : ℕ) (l l' : List ℕ) (a sz : ℕ) (perm fr : ℕ → ℕ) : Prop where
  table : PageTree m'.mem root
  alloc : Alloc m' root l'
  evolves : Evolves m m' root l l'
  leaves : ∀ b < MAXVA, leaf m'.mem root b =
    if a ≤ PGROUNDDOWN b ∧ PGROUNDDOWN b < sz then
      (PA2PTE (fr (PGROUNDDOWN b)) ||| perm (PGROUNDDOWN b) ||| PTE_V) % 2 ^ 64
    else leaf m.mem root b
  inj : Set.InjOn fr (grownPages a sz)
  frame : ∀ p ∈ grownPages a sz, fr p ∈ l ∧ Foreign m' root l' (fr p)

namespace Mapped

variable {m m₂ m' : Phys} {l l₂ l' : List ℕ} {a sz q : ℕ} {perm fr : ℕ → ℕ}

theorem nil (ht : PageTree m.mem root) (ha : Alloc m root l) (hle : sz ≤ a) (perm fr : ℕ → ℕ) :
    Mapped m m root l l a sz perm fr where
  table := ht
  alloc := ha
  evolves := .refl m root l
  leaves b _ := by rw [if_neg (by omega)]
  inj p hp := absurd (mem_grownPages.mp hp) (by omega)
  frame p hp := absurd (mem_grownPages.mp hp) (by omega)

theorem cons (hal : a % PGSIZE = 0) (hlt : a < sz) (he : Evolves m m₂ root (q :: l) l₂)
    (hfq : Foreign m₂ root l₂ q)
    (hleaf : ∀ b < MAXVA, leaf m₂.mem root b =
      if b / PGSIZE = a / PGSIZE then (PA2PTE q ||| perm a ||| PTE_V) % 2 ^ 64 else leaf m.mem root b)
    (g : Mapped m₂ m' root l₂ l' (a + PGSIZE) sz perm fr) :
    Mapped m m' root (q :: l) l' a sz perm (Function.update fr a q) := by
  refine ⟨g.table, g.alloc, he.trans g.evolves, fun b hb => ?_, fun p hp p' hp' hpp => ?_, fun p hp => ?_⟩
  · rw [g.leaves b hb, hleaf b hb]
    by_cases hpa : PGROUNDDOWN b = a
    · have hfirst : ¬(a + PGSIZE ≤ PGROUNDDOWN b ∧ PGROUNDDOWN b < sz) := by
        simp only [PGSIZE]
        omega
      rw [if_neg hfirst, if_pos ((page_eq_iff hal).mpr hpa), if_pos ⟨hpa.ge, by omega⟩, hpa,
        Function.update_self]
    · have hd := PGROUNDDOWN_mod b
      have hiff : (a + PGSIZE ≤ PGROUNDDOWN b ∧ PGROUNDDOWN b < sz) ↔
          (a ≤ PGROUNDDOWN b ∧ PGROUNDDOWN b < sz) := by
        simp only [PGSIZE] at hd hal ⊢
        omega
      rw [if_neg (fun h => hpa ((page_eq_iff hal).mp h)), if_congr hiff rfl rfl, Function.update_of_ne hpa]
  · -- `q` left the list before the rest of the loop took its frames from it
    have hne : ∀ p ∈ grownPages a sz, p ≠ a → fr p ≠ q := fun p hp hpa e =>
      hfq.1 (e ▸ (g.frame p (grownPages_succ hal hp hpa)).1)
    by_cases hpa : p = a <;> by_cases hpa' : p' = a
    · exact hpa.trans hpa'.symm
    · rw [hpa, Function.update_self, Function.update_of_ne hpa'] at hpp
      exact absurd hpp.symm (hne p' hp' hpa')
    · rw [hpa', Function.update_self, Function.update_of_ne hpa] at hpp
      exact absurd hpp (hne p hp hpa)
    · rw [Function.update_of_ne hpa, Function.update_of_ne hpa'] at hpp
      exact g.inj (grownPages_succ hal hp hpa) (grownPages_succ hal hp' hpa') hpp
  · by_cases hpa : p = a
    · rw [hpa, Function.update_self]
      exact ⟨List.mem_cons_self, g.evolves.foreign hfq⟩
    · rw [Function.update_of_ne hpa]
      obtain ⟨hl₂, hf⟩ := g.frame p (grownPages_succ hal hp hpa)
      exact ⟨he.suffix.subset hl₂, hf⟩

end Mapped

/-- What a growth from `a` to `newsz` left: the new pages map with `PTE_R | PTE_U | xperm`, and
their frames are zeroed. -/
structure Grew (m m' : Phys) (root : ℕ) (l l' : List ℕ) (a newsz xperm : ℕ) (fr : ℕ → ℕ) : Prop
    extends Mapped m m' root l l' a newsz (fun _ => PTE_R ||| PTE_U ||| xperm) fr where
  zero : ∀ p ∈ grownPages a newsz, ∀ i < PGSIZE, m'.mem (fr p + i) = 0

theorem uvmallocLoop_grows (n : ℕ) :
    ∀ {m m' : Phys} {a : ℕ} {l : List ℕ}, PageTree m.mem root → Alloc m root l → a % PGSIZE = 0 →
      newsz ≤ a + n * PGSIZE → uvmallocLoop root o newsz xperm n m a = .ok (newsz, m') →
      ∃ l' fr, Grew m m' root l l' a newsz xperm fr := by
  -- induction on the rounds left; the round is `kalloc_take` then `mappages_page`
  induction n with
  | zero =>
    intro m m' a l ht ha _ hfuel h
    rw [uvmallocLoop] at h
    cases h
    exact ⟨l, id, ⟨.nil ht ha (by omega) _ id, fun p hp => absurd (mem_grownPages.mp hp) (by omega)⟩⟩
  | succ n ih =>
    intro m m' a l ht ha hal hfuel h
    by_cases hlt : a < newsz
    swap
    · rw [uvmallocLoop, if_neg hlt] at h
      cases h
      exact ⟨l, id, ⟨.nil ht ha (by omega) _ id, fun p hp => absurd (mem_grownPages.mp hp) (by omega)⟩⟩
    rcases uvmallocLoop_round hlt h with ⟨-, h0, -⟩ | ⟨hq, r', m₂, hmp, ⟨-, h0, -⟩ | ⟨rfl, hrest⟩⟩
    · omega
    · omega
    obtain ⟨q, l₁, rfl⟩ := ha.exists_cons hq
    obtain ⟨m₁, hk, ht₁, ha₁, he₁, hleaf₁, hfq, hzero⟩ := kalloc_take ht ha 0
    simp only [hk] at hmp hrest
    obtain ⟨l₂, ht₂, ha₂, he₂, ⟨h1, -⟩ | ⟨-, hva, -, hleaf₂⟩⟩ := mappages_page ht₁ ha₁ hal hmp
    · cases h1
    have hal' : (a + PGSIZE) % PGSIZE = 0 := (Nat.add_mod_right a PGSIZE).trans hal
    obtain ⟨l', fr, g⟩ := ih ht₂ ha₂ hal' (by rw [Nat.add_mul, Nat.one_mul] at hfuel; omega) hrest
    -- this round's page maps `q`, zeroed; the later ones map what the rest of the loop took
    have hleaf : ∀ b < MAXVA, leaf m₂.mem root b = if b / PGSIZE = a / PGSIZE then
        (PA2PTE q ||| (PTE_R ||| PTE_U ||| xperm) ||| PTE_V) % 2 ^ 64 else leaf m.mem root b := by
      intro b hb
      rw [hleaf₂ b hb, hleaf₁]
    refine ⟨l', Function.update fr a q, ⟨.cons hal hlt (he₁.trans he₂) (he₂.foreign hfq) hleaf g.toMapped,
      fun p hp i hi => ?_⟩⟩
    by_cases hpa : p = a
    · rw [hpa, Function.update_self, g.evolves.page (ha.page q List.mem_cons_self).1 (he₂.foreign hfq) i hi,
        he₂.page (ha.page q List.mem_cons_self).1 hfq i hi]
      exact hzero i hi
    · rw [Function.update_of_ne hpa]
      exact g.zero p (grownPages_succ hal hp hpa) i hi

theorem uvmallocLoop_next {fuel a q : ℕ} {m m₁ m₂ : Phys} (hlt : a < newsz) (hk : kalloc m = (q, m₁))
    (hq : q ≠ 0)
    (hmp : mappages (m₁.memset q 0 PGSIZE) root a PGSIZE q (PTE_R ||| PTE_U ||| xperm) = .ok (0, m₂)) :
    uvmallocLoop root o newsz xperm (fuel + 1) m a = uvmallocLoop root o newsz xperm fuel m₂ (a + PGSIZE) := by
  rw [uvmallocLoop, if_pos hlt, hk]
  dsimp only
  rw [if_neg hq, hmp, Except.ok_bind]
  rfl

theorem pages_succ {a : ℕ} (hal : a % PGSIZE = 0) (hlt : a < newsz) :
    (newsz - a + PGSIZE - 1) / PGSIZE = (newsz - (a + PGSIZE) + PGSIZE - 1) / PGSIZE + 1 := by
  simp only [PGSIZE] at hal ⊢
  omega

/-- The loop does not fail when each page from `a` below `newsz` is unmapped and below
`MAXVA`, and the free list holds three pages for each: its frame and at most two tables. -/
theorem uvmallocLoop_ok (n : ℕ) :
    ∀ {m : Phys} {a : ℕ} {l : List ℕ}, PageTree m.mem root → Alloc m root l → a % PGSIZE = 0 →
      newsz ≤ MAXVA → 3 * ((newsz - a + PGSIZE - 1) / PGSIZE) ≤ l.length →
      (∀ b < MAXVA, a ≤ PGROUNDDOWN b → PGROUNDDOWN b < newsz → leaf m.mem root b &&& PTE_V = 0) →
      ∃ m', uvmallocLoop root o newsz xperm n m a = .ok (newsz, m') := by
  -- induction on the rounds left; a round is `kalloc_take` then `mappagesLoop_round_ok`
  induction n with
  | zero =>
    intro m _ _ _ _ _ _ _ _
    exact ⟨m, rfl⟩
  | succ n ih =>
    intro m a l ht ha hal hmax hl hfresh
    by_cases hlt : a < newsz
    swap
    · exact ⟨m, by rw [uvmallocLoop, if_neg hlt]; rfl⟩
    rw [pages_succ hal hlt] at hl
    generalize hrest : (newsz - (a + PGSIZE) + PGSIZE - 1) / PGSIZE = k at hl
    obtain ⟨q, l₁, rfl⟩ : ∃ q l₁, l = q :: l₁ := by
      cases l with
      | nil => simp at hl
      | cons q l₁ => exact ⟨q, l₁, rfl⟩
    rw [List.length_cons] at hl
    have hva : a < MAXVA := by omega
    have hda : PGROUNDDOWN a = a := by
      simp only [PGROUNDDOWN, PGSIZE] at hal ⊢
      omega
    obtain ⟨m₁, hk, ht₁, ha₁, -, hleaf₁, -, -⟩ := kalloc_take ht ha 0
    have hfree : leaf (m₁.memset q 0 PGSIZE).mem root a &&& PTE_V = 0 := by
      rw [hleaf₁]
      exact hfresh a hva (by omega) (by omega)
    have hl₁ : 2 ≤ l₁.length := by omega
    obtain ⟨m₂, p₀, hg, hb, hmp⟩ :=
      mappagesLoop_round_ok ht₁ ha₁ hva hl₁ hfree a (PTE_R ||| PTE_U ||| xperm) 0 q
    rw [if_pos rfl, ← mappages_one hal] at hmp
    obtain ⟨ht₂, ha₂, hl₂⟩ := store_of_grown hg hva hb (PA2PTE q ||| (PTE_R ||| PTE_U ||| xperm) ||| PTE_V)
    -- the tables took at most two pages, and the later pages kept their leaves
    have hk₂ : (missing (m₁.memset q 0 PGSIZE).mem root a).length ≤ 2 := List.length_filter_le _ _
    obtain ⟨m', h⟩ := ih (a := a + PGSIZE) ht₂ ha₂ (by simp only [PGSIZE] at hal ⊢; omega) hmax
      (by rw [hrest, List.length_drop]; omega) fun b hb hb₁ hb₂ => by
        have hpage : ¬b / PGSIZE = a / PGSIZE := fun h => by
          have := (page_eq_iff hal).mp h
          simp only [PGSIZE] at hb₁ this
          omega
        rw [hl₂ b hb, if_neg hpage, hleaf₁]
        exact hfresh b hb (by omega) hb₂
    exact ⟨m', (uvmallocLoop_next hlt hk (ha.page q List.mem_cons_self).ne_zero hmp).trans h⟩

/-- `uvmalloc` that returned `newsz` mapped each page from `PGROUNDUP(oldsz)` below `newsz` to
its own zeroed frame taken off the free list, with `PTE_R | PTE_U | xperm`, and changed no other
leaf and no page that was neither free nor a table. -/
theorem uvmalloc_grows {m : Phys} {l : List ℕ} (ht : PageTree m.mem root) (ha : Alloc m root l) {oldsz : ℕ}
    {m' : Phys} (h : uvmalloc m root oldsz newsz xperm = .ok (newsz, m')) :
    ∃ l' fr, Grew m m' root l l' (PGROUNDUP oldsz) newsz xperm fr := by
  rw [uvmalloc] at h
  by_cases hlt : newsz < oldsz
  · rw [if_pos hlt] at h
    cases h
    exact absurd hlt (lt_irrefl _)
  rw [if_neg hlt] at h
  exact uvmallocLoop_grows _ ht ha (PGROUNDUP_mod oldsz) (by simp only [PGSIZE]; omega) h

theorem uvmalloc_grows_boot :
    ∃ m0 root m₁ l m', kinit ⟨fun _ => 0, 0, KERNBASE⟩ = .ok m0 ∧ uvmcreate m0 = (root, m₁) ∧
      PageTree m₁.mem root ∧ Alloc m₁ root l ∧ uvmalloc m₁ root 0 PGSIZE PTE_W = .ok (PGSIZE, m') ∧
      ∃ l' fr, Grew m₁ m' root l l' (PGROUNDUP 0) PGSIZE PTE_W fr := by
  obtain ⟨m0, root, m₁, l, hk, hu, ht, ha, hl, hleaf, -⟩ := boot_table
  obtain ⟨m', h⟩ : ∃ m', uvmalloc m₁ root 0 PGSIZE PTE_W = .ok (PGSIZE, m') := by
    rw [uvmalloc, if_neg (by decide)]
    exact uvmallocLoop_ok _ ht ha (PGROUNDUP_mod 0) (by decide) (by rw [hl]; decide)
      fun b _ _ _ => by rw [hleaf, Nat.zero_and]
  exact ⟨m0, root, m₁, l, m', hk, hu, ht, ha, h, uvmalloc_grows ht ha h⟩

/-- `uvmalloc` returns `newsz` when `newsz` is at most `MAXVA`, each page from `PGROUNDUP(oldsz)`
below it is unmapped, and the free list holds three pages for each. -/
theorem uvmalloc_succeeds {m : Phys} {l : List ℕ} (ht : PageTree m.mem root) (ha : Alloc m root l) {oldsz : ℕ}
    (hle : oldsz ≤ newsz) (hmax : newsz ≤ MAXVA)
    (hl : 3 * ((newsz - PGROUNDUP oldsz + PGSIZE - 1) / PGSIZE) ≤ l.length)
    (hfresh : ∀ b < MAXVA, PGROUNDUP oldsz ≤ PGROUNDDOWN b → PGROUNDDOWN b < newsz → leaf m.mem root b &&& PTE_V = 0) :
    ∃ m', uvmalloc m root oldsz newsz xperm = .ok (newsz, m') := by
  rw [uvmalloc, if_neg (by omega)]
  exact uvmallocLoop_ok _ ht ha (PGROUNDUP_mod oldsz) hmax hl hfresh

theorem uvmalloc_succeeds_boot :
    ∃ m0 root m₁, kinit ⟨fun _ => 0, 0, KERNBASE⟩ = .ok m0 ∧ uvmcreate m0 = (root, m₁) ∧
      ∃ m', uvmalloc m₁ root 0 PGSIZE PTE_W = .ok (PGSIZE, m') := by
  obtain ⟨m0, root, m₁, l, hk, hu, ht, ha, hl, hleaf, -⟩ := boot_table
  exact ⟨m0, root, m₁, hk, hu, uvmalloc_succeeds ht ha (by decide) (by decide) (by rw [hl]; decide)
    fun b _ _ _ => by rw [hleaf, Nat.zero_and]⟩

/-! ## A growth that failed -/

theorem PTE2PA_leaf {x perm : ℕ} (hx : RamPage x) (hperm : perm < 2 ^ 10) :
    PTE2PA ((PA2PTE x ||| perm ||| PTE_V) % 2 ^ 64) = x := by
  have hr : perm ||| PTE_V < 2 ^ 10 := Nat.or_lt_two_pow hperm (by decide)
  have hlt := hx.lt
  have hal := hx.1
  simp only [PGSIZE] at hlt hal
  rw [pte_val (by omega) hperm, PTE2PA_pte hr]
  omega

/-- A loop of `uvmalloc` or `uvmcopy` part way, from `o` to `a`: each page `p` of `[o, a)` maps,
with `perm p`, a frame `fr p` that is a page of RAM, neither free nor a table, over a page that
held no valid mapping in `m₀`; every other leaf is as in `m₀`. -/
structure Partial (m₀ m : Phys) (root : ℕ) (l : List ℕ) (o a : ℕ) (perm fr : ℕ → ℕ) : Prop where
  table : PageTree m.mem root
  alloc : Alloc m root l
  aligned : a % PGSIZE = 0
  le : o ≤ a
  lt : o < a → a ≤ MAXVA
  leaves : ∀ b < MAXVA, leaf m.mem root b =
    if o ≤ PGROUNDDOWN b ∧ PGROUNDDOWN b < a then
      (PA2PTE (fr (PGROUNDDOWN b)) ||| perm (PGROUNDDOWN b) ||| PTE_V) % 2 ^ 64
    else leaf m₀.mem root b
  fresh : ∀ b < MAXVA, o ≤ PGROUNDDOWN b → PGROUNDDOWN b < a → leaf m₀.mem root b &&& PTE_V = 0
  frame : ∀ p ∈ grownPages o a, RamPage (fr p) ∧ Foreign m root l (fr p)

namespace Partial

variable {m₀ m : Phys} {l : List ℕ} {a : ℕ} {perm fr : ℕ → ℕ}

theorem init (ht : PageTree m.mem root) (ha : Alloc m root l) (ho : o % PGSIZE = 0) (perm fr : ℕ → ℕ) :
    Partial m m root l o o perm fr where
  table := ht
  alloc := ha
  aligned := ho
  le := le_rfl
  lt h := absurd h (lt_irrefl o)
  leaves b _ := by rw [if_neg (by omega)]
  fresh _ _ h₁ h₂ := absurd (h₁.trans_lt h₂) (lt_irrefl o)
  frame p hp := absurd (mem_grownPages.mp hp) (by omega)

theorem next {q : ℕ} {l₁ : List ℕ} (hp : Partial m₀ m root (q :: l₁) o a perm fr) {m₁ m₂ : Phys}
    {l₂ : List ℕ}
    (he₁ : Evolves m m₁ root (q :: l₁) l₁) (hleaf₁ : leaf m₁.mem root = leaf m.mem root)
    (hfq : Foreign m₁ root l₁ q) (ht₂ : PageTree m₂.mem root) (ha₂ : Alloc m₂ root l₂)
    (he₂ : Evolves m₁ m₂ root l₁ l₂) (hva : a < MAXVA) (hfree : leaf m₁.mem root a &&& PTE_V = 0)
    (hleaf₂ : ∀ b < MAXVA, leaf m₂.mem root b =
      if b / PGSIZE = a / PGSIZE then (PA2PTE q ||| perm a ||| PTE_V) % 2 ^ 64
      else leaf m₁.mem root b) :
    Partial m₀ m₂ root l₂ o (a + PGSIZE) perm (Function.update fr a q) := by
  have hal := hp.aligned
  have hqa : ¬(o ≤ a ∧ a < a) := fun h => lt_irrefl a h.2
  refine ⟨ht₂, ha₂, by simp only [PGSIZE] at hal ⊢; omega, by have := hp.le; omega,
    fun _ => by simp only [MAXVA, PGSIZE] at hva hal ⊢; omega, fun b hb => ?_, fun b hb h₁ h₂ => ?_,
    fun p hp' => ?_⟩
  · rw [hleaf₂ b hb, hleaf₁, hp.leaves b hb]
    by_cases hpa : PGROUNDDOWN b = a
    · rw [if_pos ((page_eq_iff hal).mpr hpa), if_pos ⟨hpa ▸ hp.le, by simp only [PGSIZE]; omega⟩, hpa,
        Function.update_self]
    · have hd := PGROUNDDOWN_mod b
      have hiff : (o ≤ PGROUNDDOWN b ∧ PGROUNDDOWN b < a + PGSIZE) ↔
          (o ≤ PGROUNDDOWN b ∧ PGROUNDDOWN b < a) := by
        simp only [PGSIZE] at hd hal ⊢
        omega
      rw [if_neg (fun h => hpa ((page_eq_iff hal).mp h)), if_congr hiff rfl rfl, Function.update_of_ne hpa]
  · by_cases hpa : PGROUNDDOWN b = a
    · -- `mappages` found the page unmapped, as it was in `m₀`
      have hda : PGROUNDDOWN a = a := by
        simp only [PGROUNDDOWN, PGSIZE] at hal ⊢
        omega
      have h₀ : leaf m.mem root a = leaf m₀.mem root a := by
        rw [hp.leaves a hva, hda, if_neg hqa]
      rw [leaf_of_page ((page_eq_iff hal).mpr hpa), ← h₀, ← hleaf₁]
      exact hfree
    · have hd := PGROUNDDOWN_mod b
      exact hp.fresh b hb h₁ (by simp only [PGSIZE] at hd hal h₂ ⊢; omega)
  · by_cases hpa : p = a
    · rw [hpa, Function.update_self]
      exact ⟨hp.alloc.page q List.mem_cons_self, he₂.foreign hfq⟩
    · rw [Function.update_of_ne hpa]
      have hp'' : p ∈ grownPages o a := by
        simp only [mem_grownPages, PGSIZE] at hp' hal ⊢
        omega
      obtain ⟨hram, hf⟩ := hp.frame p hp''
      exact ⟨hram, he₂.foreign (he₁.foreign hf)⟩

theorem back {q : ℕ} {l₁ : List ℕ} (hp : Partial m₀ m root (q :: l₁) o a perm fr) {m₂ m₃ : Phys}
    {l₂ : List ℕ}
    (he : Evolves m m₂ root (q :: l₁) l₂) (ht₂ : PageTree m₂.mem root) (ha₂ : Alloc m₂ root l₂)
    (hleaf : leaf m₂.mem root = leaf m.mem root) (hfq : Foreign m₂ root l₂ q) (hf : kfree m₂ q = .ok m₃) :
    Partial m₀ m₃ root (q :: l₂) o a perm fr ∧ nodePage m₃.mem root = nodePage m₂.mem root := by
  obtain ⟨hn₃, hleaf₃, ha₃⟩ := kfree_foreign ht₂ ha₂ (hp.alloc.page q List.mem_cons_self) hfq hf
  refine ⟨⟨ht₂.congr hn₃, ha₃, hp.aligned, hp.le, hp.lt, fun b hb => ?_, hp.fresh, fun p hp' => ?_⟩,
    hn₃⟩
  · rw [hleaf₃, hleaf]
    exact hp.leaves b hb
  · -- the frames of the rounds before were not free, so they are not `q`
    obtain ⟨hram, hfo⟩ := hp.frame p hp'
    have h₂ := he.foreign hfo
    refine ⟨hram, fun hmem => ?_, fun n => by rw [hn₃]; exact h₂.2 n⟩
    rcases List.mem_cons.mp hmem with e | e
    · exact hfo.1 (by rw [e]; exact List.mem_cons_self)
    · exact h₂.1 e

theorem freed (hp : Partial m₀ m root l o a perm fr) (hperm : ∀ p, perm p < 2 ^ 10) (ho : o % PGSIZE = 0) {k : ℕ}
    (hk : k < (a - o) / PGSIZE) :
    o + k * PGSIZE ∈ grownPages o a ∧ PTE2PA (leaf m.mem root (o + k * PGSIZE)) = fr (o + k * PGSIZE) := by
  have hal := hp.aligned
  have hin : o + k * PGSIZE ∈ grownPages o a := by
    simp only [mem_grownPages, PGSIZE] at ho hal hk ⊢
    refine ⟨by omega, ?_, by omega⟩
    have := Nat.lt_of_lt_of_le (Nat.mul_lt_mul_of_pos_right hk (by decide : 0 < 4096)) (Nat.div_mul_le_self _ _)
    omega
  have hd : PGROUNDDOWN (o + k * PGSIZE) = o + k * PGSIZE := by
    simp only [PGROUNDDOWN, PGSIZE] at ho ⊢
    omega
  obtain ⟨hlo, hhi, -⟩ := mem_grownPages.mp hin
  have hmax := hp.lt (by omega)
  refine ⟨hin, ?_⟩
  rw [hp.leaves _ (by omega), hd, if_pos ⟨hlo, hhi⟩, PTE2PA_leaf (hp.frame _ hin).1 (hperm _)]

theorem unmap (hp : Partial m₀ m root l o a perm fr) (hperm : ∀ p, perm p < 2 ^ 10) (ho : o % PGSIZE = 0)
    {m' : Phys} (h : uvmunmap m root o ((a - o) / PGSIZE) true = .ok m') :
    PageTree m'.mem root ∧ ∀ b < MAXVA, mapping m'.mem root b = mapping m₀.mem root b := by
  have hal := hp.aligned
  -- the frames it frees are no tables
  have hf : true = true → ∀ k < (a - o) / PGSIZE, ∀ c,
      nodePage m.mem root c ≠ some (PTE2PA (leaf m.mem root (o + k * PGSIZE))) := by
    intro _ k hk c
    obtain ⟨hin, hfr⟩ := hp.freed hperm ho hk
    rw [hfr]
    exact (hp.frame _ hin).2.2 c
  obtain ⟨ht', hl'⟩ := uvmunmap_leaves hp.table hf h
  refine ⟨ht', fun b hb => ?_⟩
  have hend : o + (a - o) / PGSIZE * PGSIZE = a := by
    have := hp.le
    simp only [PGSIZE] at ho hal ⊢
    omega
  have hd := PGROUNDDOWN_mod b
  have hdb := PGROUNDDOWN_le b
  have hiff : (o ≤ b ∧ b < a) ↔ (o ≤ PGROUNDDOWN b ∧ PGROUNDDOWN b < a) := by
    simp only [PGROUNDDOWN, PGSIZE] at ho hal hd hdb ⊢
    omega
  unfold mapping
  rw [hl' b hb, hend]
  by_cases hin : o ≤ b ∧ b < a
  · -- unmapped now, and unmapped before
    rw [if_pos hin, Nat.zero_and, if_pos rfl, if_pos (hp.fresh b hb (hiff.mp hin).1 (hiff.mp hin).2)]
  · rw [if_neg hin, hp.leaves b hb, if_neg (fun h => hin (hiff.mpr h))]

/-- `uvmdealloc(a, o)` after a failed round: it unmaps and frees `[o, a)`, and every address
translates as in `m₀`. -/
theorem undo (hp : Partial m₀ m root l o a perm fr) (hperm : ∀ p, perm p < 2 ^ 10) (ho : o % PGSIZE = 0)
    {s : ℕ} {m' : Phys} (h : uvmdealloc m root a o = .ok (s, m')) :
    PageTree m'.mem root ∧ ∀ b < MAXVA, mapping m'.mem root b = mapping m₀.mem root b := by
  have hal := hp.aligned
  by_cases hoa : a ≤ o
  · -- nothing was mapped
    rw [uvmdealloc, if_pos hoa] at h
    cases h
    refine ⟨hp.table, fun b hb => ?_⟩
    have hout : ¬(o ≤ PGROUNDDOWN b ∧ PGROUNDDOWN b < a) := by omega
    unfold mapping
    rw [hp.leaves b hb, if_neg hout]
  have hup : ∀ x, x % PGSIZE = 0 → PGROUNDUP x = x := fun x hx => by
    simp only [PGROUNDUP, PGSIZE] at hx ⊢
    omega
  rw [uvmdealloc, if_neg hoa, hup o ho, hup a hal, if_pos (by omega)] at h
  obtain ⟨m'', hu, h⟩ := Except.bind_eq_ok.mp h
  cases h
  exact hp.unmap hperm ho hu

end Partial

/-- The loop that returned `0` for a positive `newsz` failed in some round, and `uvmdealloc`
undid the rounds before it. -/
theorem uvmallocLoop_undo {m₀ : Phys} (hx : xperm < 2 ^ 10) (ho : o % PGSIZE = 0) (hpos : 0 < newsz) (n : ℕ) :
    ∀ {m m' : Phys} {a : ℕ} {l : List ℕ} {fr : ℕ → ℕ},
      Partial m₀ m root l o a (fun _ => PTE_R ||| PTE_U ||| xperm) fr →
      uvmallocLoop root o newsz xperm n m a = .ok (0, m') →
      PageTree m'.mem root ∧ ∀ b < MAXVA, mapping m'.mem root b = mapping m₀.mem root b := by
  -- induction on the rounds left, carrying what the rounds before mapped
  induction n with
  | zero =>
    intro m m' a l fr _ h
    rw [uvmallocLoop] at h
    cases h
    omega
  | succ n ih =>
    intro m m' a l fr hp h
    by_cases hlt : a < newsz
    swap
    · rw [uvmallocLoop, if_neg hlt] at h
      cases h
      omega
    rcases uvmallocLoop_round hlt h with ⟨h0, -, s, hd⟩ | ⟨hq, r', m₂, hmp, hfail | ⟨rfl, hrest⟩⟩
    · -- no page for the frame
      rw [kalloc_zero h0] at hd
      exact hp.undo (fun _ => Nat.or_lt_two_pow (by decide) hx) ho hd
    all_goals
      obtain ⟨q, l₁, rfl⟩ : ∃ q l₁, l = q :: l₁ := by
        cases l with
        | nil => exact absurd ((kalloc_chain hp.alloc.chain (fun q hq => (hp.alloc.page q hq).1)
            hp.alloc.nodup).1) hq
        | cons q l₁ => exact ⟨q, l₁, rfl⟩
      obtain ⟨m₁, hk, ht₁, ha₁, he₁, hleaf₁, hfq, -⟩ := kalloc_take hp.table hp.alloc 0
      simp only [hk] at hmp
      obtain ⟨l₂, ht₂, ha₂, he₂, ⟨hr, hleaf₂⟩ | ⟨hr, hva, hfree, hleaf₂⟩⟩ :=
        mappages_page ht₁ ha₁ hp.aligned hmp
    · -- no page for a table: the frame is freed, then the rounds before are undone
      obtain ⟨-, -, m₃, s, hf, hd⟩ := hfail
      simp only [hk] at hf
      obtain ⟨hp₃, -⟩ := hp.back (he₁.trans he₂) ht₂ ha₂ (hleaf₂.trans hleaf₁) (he₂.foreign hfq) hf
      exact hp₃.undo (fun _ => Nat.or_lt_two_pow (by decide) hx) ho hd
    · exact absurd hr hfail.1
    · cases hr
    · exact ih (hp.next he₁ hleaf₁ hfq ht₂ ha₂ he₂ hva hfree hleaf₂) hrest

/-- `uvmalloc` that returned `0` left every address below `MAXVA` translating as before: a
growth that ran out of pages unmapped and freed the pages it had mapped. -/
theorem uvmalloc_undo {m : Phys} {l : List ℕ} (ht : PageTree m.mem root) (ha : Alloc m root l)
    (hx : xperm < 2 ^ 10) {oldsz : ℕ} {m' : Phys} (h : uvmalloc m root oldsz newsz xperm = .ok (0, m')) :
    PageTree m'.mem root ∧ ∀ b < MAXVA, mapping m'.mem root b = mapping m.mem root b := by
  rw [uvmalloc] at h
  by_cases hlt : newsz < oldsz
  · rw [if_pos hlt] at h
    cases h
    exact ⟨ht, fun _ _ => rfl⟩
  rw [if_neg hlt] at h
  by_cases hpos : 0 < newsz
  · exact uvmallocLoop_undo hx (PGROUNDUP_mod oldsz) hpos _ (.init ht ha (PGROUNDUP_mod oldsz) _ id) h
  · -- nothing to map: the loop returned `newsz`, which is `0`
    obtain rfl : newsz = 0 := by omega
    rw [Nat.zero_div, Nat.zero_add, uvmallocLoop, if_neg (Nat.not_lt_zero _)] at h
    cases h
    exact ⟨ht, fun _ _ => rfl⟩

/-- A root page of zeros at `KERNBASE` and the three pages after it free, each holding the
address of the next. -/
def threeFree : Phys :=
  ⟨writeWord (writeWord (fun _ => 0) (KERNBASE + PGSIZE) 8 (KERNBASE + 2 * PGSIZE)) (KERNBASE + 2 * PGSIZE) 8
    (KERNBASE + 3 * PGSIZE), KERNBASE + PGSIZE, KERNBASE⟩

theorem threeFree_table :
    PageTree threeFree.mem KERNBASE ∧
      Alloc threeFree KERNBASE [KERNBASE + PGSIZE, KERNBASE + 2 * PGSIZE, KERNBASE + 3 * PGSIZE] := by
  -- the two words of the chain lie in other pages than the root
  have h0 : ∀ k < 512, entry threeFree.mem KERNBASE k = 0 := fun k hk => by
    simp only [threeFree]
    rw [entry_writeWord_first (by decide) (by decide) hk,
      entry_writeWord_first (by decide) (by decide) hk, if_neg (fun h => absurd h.1 (by decide)),
      if_neg (fun h => absurd h.1 (by decide))]
    simp [entry, readWord]
  have h1 : readWord threeFree.mem (KERNBASE + PGSIZE) 8 = KERNBASE + 2 * PGSIZE := by decide
  have h2 : readWord threeFree.mem (KERNBASE + 2 * PGSIZE) 8 = KERNBASE + 3 * PGSIZE := by decide
  have h3 : readWord threeFree.mem (KERNBASE + 3 * PGSIZE) 8 = 0 := by decide
  refine ⟨pageTree_of_zero (by unfold RamPage; decide) h0, ⟨?_, by decide, fun q hq => ?_, fun q hq n hn => ?_⟩⟩
  · refine .cons (by decide) ?_
    rw [show threeFree.freelist = KERNBASE + PGSIZE from rfl, h1]
    refine .cons (by decide) ?_
    rw [h2]
    refine .cons (by decide) ?_
    rw [h3]
    exact .nil
  · simp only [List.mem_cons, List.not_mem_nil, or_false] at hq
    rcases hq with rfl | rfl | rfl <;> (unfold RamPage; decide)
  · obtain ⟨-, rfl⟩ := nodePage_of_zero h0 hn
    simp [PGSIZE] at hq

/-- From `threeFree`, growing to one page maps it with the three pages, its frame and two
tables; growing to two pages maps page 0, finds no page for page 1, and undoes. -/
theorem uvmalloc_undo_threeFree :
    (∃ m₁, uvmalloc threeFree KERNBASE 0 PGSIZE PTE_W = .ok (PGSIZE, m₁)) ∧
    ∃ m', uvmalloc threeFree KERNBASE 0 (2 * PGSIZE) PTE_W = .ok (0, m') ∧ PageTree m'.mem KERNBASE ∧
      ∀ b < MAXVA, mapping m'.mem KERNBASE b = mapping threeFree.mem KERNBASE b := by
  obtain ⟨ht, ha⟩ := threeFree_table
  obtain ⟨⟨r₁, m₁⟩, h₁, rfl⟩ := Except.exists_of_toOption_map
    (show (uvmalloc threeFree KERNBASE 0 PGSIZE PTE_W).toOption.map Prod.fst = some PGSIZE by decide)
  obtain ⟨⟨r, m'⟩, h, rfl⟩ := Except.exists_of_toOption_map
    (show (uvmalloc threeFree KERNBASE 0 (2 * PGSIZE) PTE_W).toOption.map Prod.fst = some 0 by decide)
  exact ⟨⟨m₁, h₁⟩, m', h, uvmalloc_undo ht ha (by decide) h⟩

end Uvmalloc

end Xv6
