import Xv6.Proofs.Kalloc

/-! The Sv39 page table as a tree of pages in physical memory: the root at level 2, the
level-1 table under each valid entry of the root, and the level-0 table under each valid
entry of those. `leaf` is what the tree maps a virtual page to, `0` when a table above it is
missing. A tree is a `PageTree` when each of its tables is a page of RAM and no page serves as
two tables; the allocator's free pages are none of them (`Alloc`).

`walk` with `alloc` takes the first free pages for the tables missing on the path of `va`,
and nothing else of the tree changes (`walk_alloc_ok`). -/

namespace Xv6

open ByteMem

/-! ## The tree -/

/-- The page a valid PTE points to. -/
def ptePage (e : ℕ) : Option ℕ := if e &&& PTE_V = 0 then none else some (PTE2PA e)

/-- The PTE at index `k` of the table page `pt`. -/
def entry (mem : ℕ → UInt8) (pt k : ℕ) : ℕ := readWord mem (pt + 8 * k) 8

/-- A table of the tree: the root, the level-1 table `i`, or the level-0 table `(i, j)`. -/
inductive Node
  | root
  | mid (i : Fin 512)
  | bot (i j : Fin 512)
  deriving DecidableEq

/-- The page of a table, when the entries above it are valid. -/
def nodePage (mem : ℕ → UInt8) (root : ℕ) : Node → Option ℕ
  | .root => some root
  | .mid i => ptePage (entry mem root i)
  | .bot i j => (ptePage (entry mem root i)).bind fun p => ptePage (entry mem p j)

/-- `PX(level, va)` as an index of a table page. -/
def pxIdx (level va : ℕ) : Fin 512 := ⟨PX level va, Nat.mod_lt _ (by decide)⟩

/-- The leaf PTE of `va`: `0` when a table above it is missing. -/
def leaf (mem : ℕ → UInt8) (root va : ℕ) : ℕ :=
  (nodePage mem root (.bot (pxIdx 2 va) (pxIdx 1 va))).elim 0 fun p => entry mem p (PX 0 va)

/-- A page of RAM, which the kernel reaches through its direct map. -/
def RamPage (p : ℕ) : Prop := p % PGSIZE = 0 ∧ KERNBASE ≤ p ∧ p + PGSIZE ≤ PHYSTOP

/-- A page table rooted at `root`: its tables are pages of RAM, each page one table. -/
structure PageTree (mem : ℕ → UInt8) (root : ℕ) : Prop where
  page : ∀ n p, nodePage mem root n = some p → RamPage p
  inj : ∀ n n' p, nodePage mem root n = some p → nodePage mem root n' = some p → n = n'

/-- The allocator beside the table: its free list holds the pages `l` of RAM, none of them a
table. -/
structure Alloc (m : Phys) (root : ℕ) (l : List ℕ) : Prop where
  chain : FreeChain m.mem m.freelist l
  nodup : l.Nodup
  page : ∀ q ∈ l, RamPage q
  not_node : ∀ q ∈ l, ∀ n, nodePage m.mem root n ≠ some q

/-- The two tables below the root on the path of `va`. -/
def pathNodes (va : ℕ) : List Node := [.mid (pxIdx 2 va), .bot (pxIdx 2 va) (pxIdx 1 va)]

/-- Those of them that are missing. -/
def missing (mem : ℕ → UInt8) (root va : ℕ) : List Node :=
  (pathNodes va).filter fun n => (nodePage mem root n).isNone

/-- The memory after `walk` takes the free page `q` for the missing table under entry `k` of
`pt`: `kalloc` fills `q` with junk, `walk` zeroes it and points the entry at it. -/
def installMem (mem : ℕ → UInt8) (pt k q : ℕ) : ℕ → UInt8 :=
  writeWord (fill (fill mem q PGSIZE 5) q PGSIZE 0) (pt + 8 * k) 8 (PA2PTE q ||| PTE_V)

/-! ## PTEs and slots -/

@[simp] theorem ptePage_zero : ptePage 0 = none := by simp [ptePage]

theorem ptePage_eq_some {e p : ℕ} : ptePage e = some p ↔ e &&& PTE_V ≠ 0 ∧ PTE2PA e = p := by
  unfold ptePage
  split_ifs with h <;> simp [h]

theorem ptePage_eq_none {e : ℕ} : ptePage e = none ↔ e &&& PTE_V = 0 := by
  unfold ptePage
  split_ifs with h <;> simp [h]

theorem PX_lt (level va : ℕ) : PX level va < 512 := Nat.mod_lt _ (by decide)

@[simp] theorem pxIdx_val (level va : ℕ) : (pxIdx level va : ℕ) = PX level va := rfl

section Nodes

variable {mem : ℕ → UInt8} {root : ℕ}

@[simp] theorem nodePage_root : nodePage mem root .root = some root := rfl

@[simp] theorem nodePage_mid (i : Fin 512) : nodePage mem root (.mid i) = ptePage (entry mem root i) := rfl

theorem nodePage_bot (i j : Fin 512) :
    nodePage mem root (.bot i j) = (nodePage mem root (.mid i)).bind fun p => ptePage (entry mem p j) := rfl

theorem nodePage_bot_eq_some {i j : Fin 512} {p₀ : ℕ} :
    nodePage mem root (.bot i j) = some p₀ ↔
      ∃ p₁, nodePage mem root (.mid i) = some p₁ ∧ ptePage (entry mem p₁ j) = some p₀ := by
  rw [nodePage_bot, Option.bind_eq_some_iff]

theorem nodePage_bot_of_some {i j : Fin 512} {p₁ : ℕ} (h : nodePage mem root (.mid i) = some p₁) :
    nodePage mem root (.bot i j) = ptePage (entry mem p₁ j) := by
  rw [nodePage_bot, h, Option.bind_some]

theorem nodePage_bot_of_mid {i : Fin 512} (h : nodePage mem root (.mid i) = none) (j : Fin 512) :
    nodePage mem root (.bot i j) = none := by
  rw [nodePage_bot, h, Option.bind_none]

end Nodes

/-- Below a root page of zeros, as `uvmcreate` leaves it, there is no table. -/
theorem nodePage_of_zero {mem : ℕ → UInt8} {root : ℕ} (h0 : ∀ k < 512, entry mem root k = 0) {n : Node} {p : ℕ}
    (h : nodePage mem root n = some p) : n = .root ∧ p = root := by
  cases n with
  | root => exact ⟨rfl, (Option.some.inj h).symm⟩
  | mid i =>
    rw [nodePage_mid, h0 i i.isLt, ptePage_zero] at h
    cases h
  | bot i j =>
    rw [nodePage_bot, nodePage_mid, h0 i i.isLt, ptePage_zero, Option.bind_none] at h
    cases h

theorem pageTree_of_zero {mem : ℕ → UInt8} {root : ℕ} (hr : RamPage root)
    (h0 : ∀ k < 512, entry mem root k = 0) : PageTree mem root where
  page n p hp := by
    rw [(nodePage_of_zero h0 hp).2]
    exact hr
  inj n n' p hp hp' := by
    rw [(nodePage_of_zero h0 hp).1, (nodePage_of_zero h0 hp').1]

/-- A tree with one path: the root's one table `p₁` under slot 0, and `p₁`'s one table `p₂`
under slot 0. Its nodes are the root, `mid 0` and `bot 0 0`. -/
theorem nodePage_of_path {mem : ℕ → UInt8} {root p₁ p₂ e₁ : ℕ}
    (hroot : ∀ i < 512, entry mem root i = if i = 0 then e₁ else 0) (he₁ : ptePage e₁ = some p₁)
    (hmid : ∀ j < 512, ptePage (entry mem p₁ j) = if j = 0 then some p₂ else none) {n : Node} {p : ℕ}
    (h : nodePage mem root n = some p) :
    n = .root ∧ p = root ∨ n = .mid 0 ∧ p = p₁ ∨ n = .bot 0 0 ∧ p = p₂ := by
  have hm : ∀ i : Fin 512, nodePage mem root (.mid i) = if (i : ℕ) = 0 then some p₁ else none := by
    intro i
    rw [nodePage_mid, hroot i i.isLt]
    split_ifs
    · exact he₁
    · exact ptePage_zero
  cases n with
  | root => exact .inl ⟨rfl, (Option.some.inj h).symm⟩
  | mid i =>
    rw [hm] at h
    split_ifs at h with hi
    cases h
    exact .inr (.inl ⟨congrArg Node.mid (Fin.ext hi), rfl⟩)
  | bot i j =>
    rw [nodePage_bot, hm] at h
    split_ifs at h with hi
    · rw [Option.bind_some, hmid j j.isLt] at h
      split_ifs at h with hj
      cases h
      exact .inr (.inr ⟨by rw [(Fin.ext hi : i = 0), (Fin.ext hj : j = 0)], rfl⟩)
    · rw [Option.bind_none] at h
      cases h

theorem RamPage.lt {p : ℕ} (h : RamPage p) : p + PGSIZE ≤ 2 ^ 32 := by
  have := h.2.2
  unfold PHYSTOP KERNBASE at this
  omega

/-- The pages of RAM are the 32768 pages from `KERNBASE`. -/
theorem ramPage_kernbase (k : ℕ) (hk : k < 32768) : RamPage (KERNBASE + k * PGSIZE) := by
  unfold RamPage PHYSTOP
  simp only [PGSIZE, KERNBASE]
  omega

theorem RamPage.ne_zero {p : ℕ} (h : RamPage p) : p ≠ 0 := by
  have := h.2.1
  unfold KERNBASE at this
  omega

theorem ptePage_install {q : ℕ} (hq : RamPage q) : ptePage ((PA2PTE q ||| PTE_V) % 2 ^ 64) = some q := by
  have hal := hq.1
  have hlt := hq.lt
  have h : PA2PTE q ||| PTE_V = 2 ^ 10 * (q / 2 ^ 12) + 1 := by
    rw [PA2PTE, PTE_V, Nat.mul_comm, Nat.two_pow_add_eq_or_of_lt (by decide)]
  simp only [PGSIZE] at hal hlt
  rw [h, Nat.mod_eq_of_lt (by omega)]
  unfold ptePage
  rw [PTE_V, Nat.and_one_is_mod, if_neg (by omega), PTE2PA]
  congr 1
  omega

theorem valid_ne_zero (x : ℕ) : (x ||| PTE_V) % 2 ^ 64 ≠ 0 := by
  have h : (x ||| PTE_V) % 2 = 1 := Nat.or_mod_two_eq_one.mpr (.inr rfl)
  omega

theorem entry_disjoint {p p' k k' : ℕ} (hp : p % PGSIZE = 0) (hp' : p' % PGSIZE = 0) (hk : k < 512)
    (hk' : k' < 512) (h : p ≠ p' ∨ k ≠ k') : p + 8 * k + 8 ≤ p' + 8 * k' ∨ p' + 8 * k' + 8 ≤ p + 8 * k := by
  simp only [PGSIZE] at hp hp'
  omega

section Slots

variable {mem mem' : ℕ → UInt8}

theorem entry_writeWord {a v p k : ℕ} (h : p + 8 * k + 8 ≤ a ∨ a + 8 ≤ p + 8 * k) :
    entry (writeWord mem a 8 v) p k = entry mem p k :=
  readWord_congr fun i hi => writeWord_of_not_mem (by omega)

@[simp] theorem entry_writeWord_self (p k v : ℕ) : entry (writeWord mem (p + 8 * k) 8 v) p k = v % 2 ^ 64 :=
  readWord_writeWord _ _ _

theorem entry_writeWord_slot {p q i j v : ℕ} (hp : p % PGSIZE = 0) (hq : q % PGSIZE = 0) (hi : i < 512)
    (hj : j < 512) : entry (writeWord mem (q + 8 * j) 8 v) p i = if p = q ∧ i = j then v % 2 ^ 64 else entry mem p i := by
  split_ifs with h
  · obtain ⟨rfl, rfl⟩ := h
    exact entry_writeWord_self p i v
  · exact entry_writeWord (entry_disjoint hp hq hi hj (not_and_or.mp h))

theorem entry_writeWord_first {p q i v : ℕ} (hp : p % PGSIZE = 0) (hq : q % PGSIZE = 0)
    (hi : i < 512) : entry (writeWord mem q 8 v) p i = if p = q ∧ i = 0 then v % 2 ^ 64 else entry mem p i := by
  split_ifs with h
  · obtain ⟨rfl, rfl⟩ := h
    show entry (writeWord mem (p + 8 * 0) 8 v) p 0 = v % 2 ^ 64
    exact entry_writeWord_self p 0 v
  · have hd := entry_disjoint hp hq hi (show 0 < 512 by decide) (not_and_or.mp h)
    simp only [Nat.mul_zero, Nat.add_zero] at hd
    exact entry_writeWord hd

theorem entry_congr {p k : ℕ} (hk : k < 512) (h : ∀ x, p ≤ x → x < p + PGSIZE → mem' x = mem x) :
    entry mem' p k = entry mem p k :=
  readWord_congr fun i hi => h _ (by omega) (by simp only [PGSIZE]; omega)

theorem entry_fill_zero {q k : ℕ} (c : UInt8) (hk : k < 512) :
    entry (fill (fill mem q PGSIZE c) q PGSIZE 0) q k = 0 := by
  have h : ∀ i < 8, fill (fill mem q PGSIZE c) q PGSIZE 0 (q + 8 * k + i) = (fun _ => (0 : UInt8)) (0 + i) := by
    intro i hi
    have h₁ : ¬ q + 8 * k + i < q := by omega
    have h₂ : q + 8 * k + i < q + PGSIZE := by simp only [PGSIZE]; omega
    simp only [fill, h₁, h₂, if_false, if_true]
  rw [entry, @readWord_congr _ (fun _ => 0) _ 0 _ h]
  simp [readWord]

theorem entry_installMem {pt k q p k' : ℕ} (hpt : pt % PGSIZE = 0) (hq : q % PGSIZE = 0) (hp : p % PGSIZE = 0)
    (hk : k < 512) (hk' : k' < 512) (hptq : pt ≠ q) :
    entry (installMem mem pt k q) p k' =
      if p = pt ∧ k' = k then (PA2PTE q ||| PTE_V) % 2 ^ 64 else if p = q then 0 else entry mem p k' := by
  unfold installMem
  by_cases hs : p = pt ∧ k' = k
  · obtain ⟨rfl, rfl⟩ := hs
    rw [if_pos ⟨rfl, rfl⟩, entry_writeWord_self]
  rw [if_neg hs, entry_writeWord (entry_disjoint hp hpt hk' hk (by tauto))]
  by_cases hpq : p = q
  · subst hpq
    rw [if_pos rfl, entry_fill_zero _ hk']
  · rw [if_neg hpq]
    -- the page `q` lies outside the table page `p`
    refine entry_congr hk' fun x hx₁ hx₂ => ?_
    have hout : x < q ∨ q + PGSIZE ≤ x := by
      simp only [PGSIZE] at *
      omega
    rw [fill_of_not_mem hout, fill_of_not_mem hout]

end Slots

/-! ## What the tree reads -/

section Congr

variable {mem mem' : ℕ → UInt8} {root : ℕ}

theorem nodePage_congr
    (h : ∀ n p, nodePage mem root n = some p → (n = .root ∨ ∃ i, n = .mid i) →
      ∀ k < 512, entry mem' p k = entry mem p k) :
    nodePage mem' root = nodePage mem root := by
  funext n
  have hroot : ∀ k < 512, entry mem' root k = entry mem root k := h .root root rfl (.inl rfl)
  cases n with
  | root => rfl
  | mid i => simp only [nodePage, hroot i i.isLt]
  | bot i j =>
    simp only [nodePage, hroot i i.isLt]
    -- the two binds differ only below the root's entry `i`
    cases hp : ptePage (entry mem root i) with
    | none => rw [Option.bind_none, Option.bind_none]
    | some p => rw [Option.bind_some, Option.bind_some, h (.mid i) p hp (.inr ⟨i, rfl⟩) j j.isLt]

theorem leaf_of_some {va p : ℕ} (h : nodePage mem root (.bot (pxIdx 2 va) (pxIdx 1 va)) = some p) :
    leaf mem root va = entry mem p (PX 0 va) := by
  rw [leaf, h, Option.elim_some]

theorem leaf_of_none {va : ℕ} (h : nodePage mem root (.bot (pxIdx 2 va) (pxIdx 1 va)) = none) :
    leaf mem root va = 0 := by
  rw [leaf, h, Option.elim_none]

theorem leaf_congr (hn : nodePage mem' root = nodePage mem root)
    (h : ∀ i j p, nodePage mem root (.bot i j) = some p → ∀ k < 512, entry mem' p k = entry mem p k) :
    leaf mem' root = leaf mem root := by
  funext va
  have hn' := congrFun hn (.bot (pxIdx 2 va) (pxIdx 1 va))
  cases hp : nodePage mem root (.bot (pxIdx 2 va) (pxIdx 1 va)) with
  | none => rw [leaf_of_none (hn'.trans hp), leaf_of_none hp]
  | some p => rw [leaf_of_some (hn'.trans hp), leaf_of_some hp, h _ _ p hp (PX 0 va) (pxIdx 0 va).isLt]

theorem PageTree.congr (ht : PageTree mem root) (hn : nodePage mem' root = nodePage mem root) :
    PageTree mem' root :=
  ⟨hn ▸ ht.page, hn ▸ ht.inj⟩

theorem PageTree.frame (ht : PageTree mem root) {q : ℕ} (hq : q % PGSIZE = 0) (hnode : ∀ n, nodePage mem root n ≠ some q)
    (h : ∀ x, x < q ∨ q + PGSIZE ≤ x → mem' x = mem x) :
    nodePage mem' root = nodePage mem root ∧ leaf mem' root = leaf mem root := by
  have hslot : ∀ n p, nodePage mem root n = some p → ∀ k < 512, entry mem' p k = entry mem p k := by
    intro n p hp k hk
    have hpq : p ≠ q := fun e => hnode n (e ▸ hp)
    have hal := (ht.page n p hp).1
    refine entry_congr hk fun x hx₁ hx₂ => h x ?_
    simp only [PGSIZE] at *
    omega
  have hn := nodePage_congr fun n p hp _ => hslot n p hp
  exact ⟨hn, leaf_congr hn fun i j p hp => hslot _ p hp⟩

theorem PageTree.store_leaf (ht : PageTree mem root) {i j : Fin 512} {p₀ : ℕ}
    (hp : nodePage mem root (.bot i j) = some p₀) {k : ℕ} (hk : k < 512) (v : ℕ) :
    nodePage (writeWord mem (p₀ + 8 * k) 8 v) root = nodePage mem root ∧
      ∀ va, leaf (writeWord mem (p₀ + 8 * k) 8 v) root va =
        if pxIdx 2 va = i ∧ pxIdx 1 va = j ∧ PX 0 va = k then v % 2 ^ 64 else leaf mem root va := by
  have hal₀ := (ht.page _ _ hp).1
  -- the entry lies in no table above level 0
  have hn : nodePage (writeWord mem (p₀ + 8 * k) 8 v) root = nodePage mem root := by
    refine nodePage_congr fun n p hn hup k' hk' => entry_writeWord ?_
    have hne : p ≠ p₀ := by
      rintro rfl
      rcases hup with rfl | ⟨i', rfl⟩ <;> cases ht.inj _ _ _ hn hp
    exact entry_disjoint (ht.page n p hn).1 hal₀ hk' hk (.inl hne)
  refine ⟨hn, fun va => ?_⟩
  have hn' := congrFun hn (.bot (pxIdx 2 va) (pxIdx 1 va))
  cases hb : nodePage mem root (.bot (pxIdx 2 va) (pxIdx 1 va)) with
  | none =>
    -- a leaf under a missing table is no entry of `p₀`
    have hc : ¬ (pxIdx 2 va = i ∧ pxIdx 1 va = j ∧ PX 0 va = k) := by
      rintro ⟨h₂, h₁, -⟩
      rw [h₂, h₁, hp] at hb
      cases hb
    rw [if_neg hc, leaf_of_none (hn'.trans hb), leaf_of_none hb]
  | some p =>
    rw [leaf_of_some (hn'.trans hb), leaf_of_some hb]
    by_cases hc : pxIdx 2 va = i ∧ pxIdx 1 va = j ∧ PX 0 va = k
    · obtain ⟨h₂, h₁, h₀⟩ := hc
      rw [h₂, h₁, hp] at hb
      cases hb
      rw [if_pos ⟨h₂, h₁, h₀⟩, h₀, entry_writeWord_self]
    · rw [if_neg hc]
      -- another entry of `p₀`, or an entry of another table
      have hne : p ≠ p₀ ∨ PX 0 va ≠ k := by
        by_cases hpp : p = p₀
        · subst hpp
          cases ht.inj _ _ _ hb hp
          exact .inr fun h₀ => hc ⟨rfl, rfl, h₀⟩
        · exact .inl hpp
      exact entry_writeWord (entry_disjoint (ht.page _ _ hb).1 hal₀ (pxIdx 0 va).isLt hk hne)

theorem leaf_of_update {C : Node} {q : ℕ} (hC : nodePage mem root C = none)
    (hn : nodePage mem' root = Function.update (nodePage mem root) C (some q))
    (hq : ∀ k < 512, entry mem' q k = 0)
    (hold : ∀ i j p, nodePage mem root (.bot i j) = some p → ∀ k < 512, entry mem' p k = entry mem p k) :
    leaf mem' root = leaf mem root := by
  funext va
  by_cases hb : Node.bot (pxIdx 2 va) (pxIdx 1 va) = C
  · -- the new table holds only zeros, as the missing one read
    have h' : nodePage mem' root (.bot (pxIdx 2 va) (pxIdx 1 va)) = some q := by
      rw [hn, hb, Function.update_self]
    rw [leaf_of_some h', hq (PX 0 va) (pxIdx 0 va).isLt, leaf_of_none (hb ▸ hC)]
  · have h' : nodePage mem' root (.bot (pxIdx 2 va) (pxIdx 1 va)) =
        nodePage mem root (.bot (pxIdx 2 va) (pxIdx 1 va)) := by
      rw [hn, Function.update_of_ne hb]
    cases hp : nodePage mem root (.bot (pxIdx 2 va) (pxIdx 1 va)) with
    | none => rw [leaf_of_none (h'.trans hp), leaf_of_none hp]
    | some p => rw [leaf_of_some (h'.trans hp), leaf_of_some hp, hold _ _ p hp (PX 0 va) (pxIdx 0 va).isLt]

end Congr

/-! ## Taking a free page for a missing table -/

/-- The allocator and memory after `walk` installed the free page `q` under entry `k` of
the table page `pt`. -/
def installed (m : Phys) (pt k q : ℕ) : Phys := ⟨installMem m.mem pt k q, readWord m.mem q 8, m.kend⟩

theorem installed_mem (m : Phys) (pt k q : ℕ) : (installed m pt k q).mem = installMem m.mem pt k q := rfl

section Install

variable {m : Phys} {root q : ℕ} {l : List ℕ}

theorem PageTree.install {mem' : ℕ → UInt8} (ht : PageTree m.mem root) (ha : Alloc m root (q :: l)) {C : Node}
    (hn : nodePage mem' root = Function.update (nodePage m.mem root) C (some q)) : PageTree mem' root where
  page n p h := by
    rw [hn, Function.update_apply] at h
    split_ifs at h
    · cases h
      exact ha.page q List.mem_cons_self
    · exact ht.page n p h
  inj n n' p h h' := by
    rw [hn, Function.update_apply] at h h'
    -- an old table on the page `q` would have been free
    split_ifs at h h' with hc hc'
    · exact hc.trans hc'.symm
    · cases h
      exact absurd h' (ha.not_node q List.mem_cons_self n')
    · cases h'
      exact absurd h (ha.not_node q List.mem_cons_self n)
    · exact ht.inj n n' p h h'

theorem Alloc.install (ha : Alloc m root (q :: l)) {pt k : ℕ} (hpt : RamPage pt)
    (hptn : ∃ n, nodePage m.mem root n = some pt) (hk : k < 512) {C : Node}
    (hn : nodePage (installMem m.mem pt k q) root = Function.update (nodePage m.mem root) C (some q)) :
    Alloc (installed m pt k q) root l where
  chain := by
    have hc : FreeChain m.mem (readWord m.mem q 8) l := by
      have h := ha.chain
      rw [ha.chain.head] at h
      cases h with
      | cons _ h => exact h
    -- the first word of each page left on the list lies outside `q` and the entry
    refine hc.frame fun p hp i hi => ?_
    have hpq : p ≠ q := fun e => (List.nodup_cons.mp ha.nodup).1 (e ▸ hp)
    have hppt : p ≠ pt := fun e => by
      obtain ⟨n, hn'⟩ := hptn
      exact ha.not_node p (List.mem_cons_of_mem _ hp) n (e ▸ hn')
    have hp' := (ha.page p (List.mem_cons_of_mem _ hp)).1
    have hq' := (ha.page q List.mem_cons_self).1
    have hout := word_outside hp' hq' hpq hi
    have hslot : p + i < pt + 8 * k ∨ pt + 8 * k + 8 ≤ p + i := by
      have := hpt.1
      simp only [PGSIZE] at *
      omega
    simp only [installed, installMem]
    rw [writeWord_of_not_mem hslot, fill_of_not_mem hout, fill_of_not_mem hout]
  nodup := (List.nodup_cons.mp ha.nodup).2
  page p hp := ha.page p (List.mem_cons_of_mem _ hp)
  not_node p hp n := by
    simp only [installed]
    rw [hn, Function.update_apply]
    have hpq : p ≠ q := fun e => (List.nodup_cons.mp ha.nodup).1 (e ▸ hp)
    split_ifs
    · exact fun h => hpq (Option.some.inj h).symm
    · exact ha.not_node p (List.mem_cons_of_mem _ hp) n

theorem nodePage_install_mid (ht : PageTree m.mem root) (ha : Alloc m root (q :: l)) {i : Fin 512}
    (hi : nodePage m.mem root (.mid i) = none) :
    nodePage (installMem m.mem root i q) root = Function.update (nodePage m.mem root) (.mid i) (some q) := by
  have hr := ht.page .root root rfl
  have hq := ha.page q List.mem_cons_self
  have hrq : root ≠ q := fun e => ha.not_node q List.mem_cons_self .root (e ▸ rfl)
  have hslot := fun {p : ℕ} (hp : p % PGSIZE = 0) (k' : Fin 512) =>
    @entry_installMem m.mem _ _ _ _ _ hr.1 hq.1 hp i.isLt k'.isLt hrq
  funext n
  cases n with
  | root => rw [Function.update_of_ne (by simp), nodePage_root, nodePage_root]
  | mid i' =>
    by_cases hii : i' = i
    · subst hii
      rw [Function.update_self, nodePage_mid, hslot hr.1, if_pos ⟨rfl, rfl⟩, ptePage_install hq]
    · have hne : ¬ (root = root ∧ (i' : ℕ) = i) := fun h => hii (Fin.ext h.2)
      rw [Function.update_of_ne (by simpa using hii), nodePage_mid, nodePage_mid, hslot hr.1, if_neg hne,
        if_neg hrq]
  | bot i' j =>
    rw [Function.update_of_ne (by simp)]
    by_cases hii : i' = i
    · -- the new table is all zeros
      subst hii
      have hmid : nodePage (installMem m.mem root i' q) root (.mid i') = some q := by
        rw [nodePage_mid, hslot hr.1, if_pos ⟨rfl, rfl⟩, ptePage_install hq]
      rw [nodePage_bot, hmid, Option.bind_some, hslot hq.1, if_neg (fun h => hrq h.1.symm), if_pos rfl,
        ptePage_zero, nodePage_bot_of_mid hi]
    · have hne : ¬ (root = root ∧ (i' : ℕ) = i) := fun h => hii (Fin.ext h.2)
      have hmid : nodePage (installMem m.mem root i q) root (.mid i') = nodePage m.mem root (.mid i') := by
        rw [nodePage_mid, nodePage_mid, hslot hr.1, if_neg hne, if_neg hrq]
      rw [nodePage_bot, nodePage_bot, hmid]
      cases hp : nodePage m.mem root (.mid i') with
      | none => rw [Option.bind_none, Option.bind_none]
      | some p =>
        -- a level-1 table is neither the root nor the free page
        have hpr : p ≠ root := fun e => by cases ht.inj _ _ _ hp (e ▸ rfl : nodePage m.mem root .root = some p)
        have hpq : p ≠ q := fun e => ha.not_node q List.mem_cons_self _ (e ▸ hp)
        rw [Option.bind_some, Option.bind_some, hslot (ht.page _ _ hp).1, if_neg (fun h => hpr h.1),
          if_neg hpq]

theorem nodePage_install_bot (ht : PageTree m.mem root) (ha : Alloc m root (q :: l)) {i j : Fin 512} {p₁ : ℕ}
    (hi : nodePage m.mem root (.mid i) = some p₁) :
    nodePage (installMem m.mem p₁ j q) root = Function.update (nodePage m.mem root) (.bot i j) (some q) := by
  have hr := ht.page .root root rfl
  have h₁ := ht.page _ _ hi
  have hq := ha.page q List.mem_cons_self
  have h₁q : p₁ ≠ q := fun e => ha.not_node q List.mem_cons_self _ (e ▸ hi)
  have hslot := fun {p : ℕ} (hp : p % PGSIZE = 0) (k' : Fin 512) =>
    @entry_installMem m.mem _ _ _ _ _ h₁.1 hq.1 hp j.isLt k'.isLt h₁q
  -- the root is neither the level-1 table nor the free page
  have hr₁ : root ≠ p₁ := fun e => by cases ht.inj _ _ _ (e ▸ rfl : nodePage m.mem root .root = some p₁) hi
  have hrq : root ≠ q := fun e => ha.not_node q List.mem_cons_self .root (e ▸ rfl)
  have hmid : ∀ i', nodePage (installMem m.mem p₁ j q) root (.mid i') = nodePage m.mem root (.mid i') := by
    intro i'
    rw [nodePage_mid, nodePage_mid, hslot hr.1, if_neg (fun h => hr₁ h.1), if_neg hrq]
  funext n
  cases n with
  | root => rw [Function.update_of_ne (by simp), nodePage_root, nodePage_root]
  | mid i' => rw [Function.update_of_ne (by simp), hmid]
  | bot i' j' =>
    rw [nodePage_bot, hmid]
    cases hp : nodePage m.mem root (.mid i') with
    | none =>
      -- no level-0 table below a missing level-1 one, and `(i, j)` has its level-1 table
      have hne : Node.bot i' j' ≠ .bot i j := fun e => by
        cases e
        rw [hi] at hp
        cases hp
      rw [Option.bind_none, Function.update_of_ne hne, nodePage_bot, hp, Option.bind_none]
    | some p =>
      rw [Option.bind_some, hslot (ht.page _ _ hp).1]
      have hpq : p ≠ q := fun e => ha.not_node q List.mem_cons_self _ (e ▸ hp)
      by_cases hs : p = p₁ ∧ (j' : ℕ) = j
      · -- the new entry
        obtain ⟨rfl, hj'⟩ := hs
        cases ht.inj _ _ _ hp hi
        rw [if_pos ⟨rfl, hj'⟩, ptePage_install hq, Fin.ext hj', Function.update_self]
      · have hne : Node.bot i' j' ≠ .bot i j := fun e => by
          cases e
          rw [hi] at hp
          cases hp
          exact hs ⟨rfl, rfl⟩
        rw [if_neg hs, if_neg hpq, Function.update_of_ne hne, nodePage_bot, hp, Option.bind_some]

theorem leaf_installMem (ht : PageTree m.mem root) (ha : Alloc m root (q :: l)) {C : Node}
    (hC : nodePage m.mem root C = none) {pt k : ℕ} (hk : k < 512) {n₀ : Node}
    (hpt : nodePage m.mem root n₀ = some pt) (hn₀ : ∀ i j, n₀ ≠ .bot i j)
    (hn : nodePage (installMem m.mem pt k q) root = Function.update (nodePage m.mem root) C (some q)) :
    leaf (installMem m.mem pt k q) root = leaf m.mem root := by
  have hq := ha.page q List.mem_cons_self
  have hal := (ht.page _ _ hpt).1
  have hptq : pt ≠ q := fun e => ha.not_node q List.mem_cons_self _ (e ▸ hpt)
  refine leaf_of_update hC hn (fun k' hk' => ?_) (fun i j p hp k' hk' => ?_)
  · rw [entry_installMem hal hq.1 hq.1 hk hk' hptq, if_neg (fun h => hptq h.1.symm), if_pos rfl]
  · -- a level-0 table is neither `pt` nor the free page
    have hppt : p ≠ pt := fun e => hn₀ i j (ht.inj _ _ _ hpt (e ▸ hp))
    have hpq : p ≠ q := fun e => ha.not_node q List.mem_cons_self _ (e ▸ hp)
    rw [entry_installMem hal hq.1 (ht.page _ _ hp).1 hk hk' hptq, if_neg (fun h => hppt h.1), if_neg hpq]

end Install

/-! ## `walk` -/

theorem load_entry {m : Phys} {pt k : ℕ} (hpt : RamPage pt) (hk : k < 512) :
    m.load (pt + 8 * k) = .ok (entry m.mem pt k) := by
  have h := hpt.2
  simp only [PGSIZE] at h
  unfold Phys.load
  rw [if_pos ⟨by omega, by omega⟩]
  rfl

section Walk

variable {m : Phys} {root pt va level p : ℕ} {l : List ℕ}

theorem walkLevel_some (hpt : RamPage pt) (h : ptePage (entry m.mem pt (PX level va)) = some p) (alloc : Bool) :
    walkLevel m pt va level alloc = .ok (some p, m) := by
  obtain ⟨hv, rfl⟩ := ptePage_eq_some.mp h
  rw [walkLevel, load_entry hpt (PX_lt level va), Except.ok_bind, if_pos hv]
  rfl

theorem walkLevel_lookup (hpt : RamPage pt) (h : ptePage (entry m.mem pt (PX level va)) = none) :
    walkLevel m pt va level false = .ok (none, m) := by
  have hv := ptePage_eq_none.mp h
  rw [walkLevel, load_entry hpt (PX_lt level va), Except.ok_bind, if_neg (not_not.mpr hv)]
  rfl

theorem walkLevel_empty (hpt : RamPage pt) (h : ptePage (entry m.mem pt (PX level va)) = none)
    (hc : FreeChain m.mem m.freelist []) : walkLevel m pt va level true = .ok (none, m) := by
  have hv := ptePage_eq_none.mp h
  have h0 : m.freelist = 0 := hc.head
  rw [walkLevel, load_entry hpt (PX_lt level va), Except.ok_bind, if_neg (not_not.mpr hv)]
  simp [kalloc, h0]

theorem walkLevel_install (hpt : RamPage pt) (h : ptePage (entry m.mem pt (PX level va)) = none) {q : ℕ}
    (hc : FreeChain m.mem m.freelist (q :: l)) (hq0 : q ≠ 0) :
    walkLevel m pt va level true = .ok (some q, installed m pt (PX level va) q) := by
  have hv := ptePage_eq_none.mp h
  have hq : m.freelist = q := hc.head
  rw [walkLevel, load_entry hpt (PX_lt level va), Except.ok_bind, if_neg (not_not.mpr hv)]
  simp only [kalloc, hq, hq0, if_false, Bool.not_true, Bool.false_eq_true]
  rfl

theorem walk_some (ht : PageTree m.mem root) (hva : va < MAXVA) {p₀ : ℕ}
    (hb : nodePage m.mem root (.bot (pxIdx 2 va) (pxIdx 1 va)) = some p₀) (alloc : Bool) :
    walk m root va alloc = .ok (some (p₀ + 8 * PX 0 va), m) := by
  obtain ⟨p₁, h₁, h₀⟩ := nodePage_bot_eq_some.mp hb
  have hp₁ := ht.page _ _ h₁
  rw [nodePage_mid, pxIdx_val] at h₁
  rw [pxIdx_val] at h₀
  simp only [walk, if_neg (Nat.not_le.mpr hva), walkLevel_some (ht.page .root root rfl) h₁,
    walkLevel_some hp₁ h₀, Except.ok_bind]
  rfl

theorem lt_MAXVA_of_walk {alloc : Bool} {r : Option ℕ × Phys} (h : walk m root va alloc = .ok r) : va < MAXVA := by
  by_contra hle
  rw [walk, if_pos (Nat.le_of_not_lt hle)] at h
  cases h

theorem walk_none (ht : PageTree m.mem root) (hva : va < MAXVA)
    (hb : nodePage m.mem root (.bot (pxIdx 2 va) (pxIdx 1 va)) = none) :
    walk m root va false = .ok (none, m) := by
  have hr := ht.page .root root rfl
  cases h₁ : nodePage m.mem root (.mid (pxIdx 2 va)) with
  | none =>
    rw [nodePage_mid, pxIdx_val] at h₁
    simp only [walk, if_neg (Nat.not_le.mpr hva), walkLevel_lookup hr h₁, Except.ok_bind]
    rfl
  | some p₁ =>
    -- the level-1 table is there, its entry is not
    have hp₁ := ht.page _ _ h₁
    have h₀ : ptePage (entry m.mem p₁ (PX 1 va)) = none := (nodePage_bot_of_some (j := pxIdx 1 va) h₁).symm.trans hb
    rw [nodePage_mid, pxIdx_val] at h₁
    simp only [walk, if_neg (Nat.not_le.mpr hva), walkLevel_some hr h₁, walkLevel_lookup hp₁ h₀,
      Except.ok_bind]
    rfl

theorem walk_lookup_some (ht : PageTree m.mem root) {pte : ℕ} {m₁ : Phys}
    (h : walk m root va false = .ok (some pte, m₁)) :
    va < MAXVA ∧ m₁ = m ∧
      ∃ p₀, nodePage m.mem root (.bot (pxIdx 2 va) (pxIdx 1 va)) = some p₀ ∧ pte = p₀ + 8 * PX 0 va := by
  have hva := lt_MAXVA_of_walk h
  cases hb : nodePage m.mem root (.bot (pxIdx 2 va) (pxIdx 1 va)) with
  | none =>
    rw [walk_none ht hva hb] at h
    cases h
  | some p₀ =>
    rw [walk_some ht hva hb] at h
    cases h
    exact ⟨hva, rfl, p₀, rfl, rfl⟩

theorem walk_leaf (ht : PageTree m.mem root) (hva : va < MAXVA) (h0 : leaf m.mem root va ≠ 0) (alloc : Bool) :
    ∃ pte, walk m root va alloc = .ok (some pte, m) ∧ m.load pte = .ok (leaf m.mem root va) := by
  cases hb : nodePage m.mem root (.bot (pxIdx 2 va) (pxIdx 1 va)) with
  | none => exact absurd (leaf_of_none hb) h0
  | some p₀ =>
    refine ⟨p₀ + 8 * PX 0 va, walk_some ht hva hb alloc, ?_⟩
    rw [load_entry (ht.page _ _ hb) (PX_lt 0 va), leaf_of_some hb]

theorem walkaddr_of_walk (hva : va < MAXVA) {pte v : ℕ} {m₁ : Phys}
    (hw : walk m root va false = .ok (some pte, m₁)) (hl : m.load pte = .ok v) :
    walkaddr m root va = .ok (if v &&& PTE_V = 0 then 0 else if v &&& PTE_U = 0 then 0 else PTE2PA v) := by
  simp only [walkaddr, Nat.not_le.mpr hva, if_false, hw, Except.ok_bind, hl]
  split_ifs <;> rfl

theorem walkaddr_leaf (ht : PageTree m.mem root) (hva : va < MAXVA) :
    walkaddr m root va = .ok (if leaf m.mem root va &&& PTE_V = 0 then 0
      else if leaf m.mem root va &&& PTE_U = 0 then 0 else PTE2PA (leaf m.mem root va)) := by
  cases hb : nodePage m.mem root (.bot (pxIdx 2 va) (pxIdx 1 va)) with
  | none =>
    -- no level-0 table: `walk` returns 0 and the leaf is 0
    rw [leaf_of_none hb, Nat.zero_and, if_pos rfl]
    simp only [walkaddr, Nat.not_le.mpr hva, if_false, walk_none ht hva hb, Except.ok_bind]
    rfl
  | some p₀ =>
    have h := walkaddr_of_walk hva (walk_some ht hva hb false) (load_entry (ht.page _ _ hb) (PX_lt 0 va))
    rw [← leaf_of_some hb] at h
    exact h

end Walk

/-! ## `walk` with `alloc` -/

/-- What `walk` with `alloc` leaves: the missing tables on the path of `va` took the first
free pages, in order, and nothing else of the tree changed. -/
structure Grown (m m' : Phys) (root va : ℕ) (l : List ℕ) : Prop where
  table : PageTree m'.mem root
  alloc : Alloc m' root (l.drop (missing m.mem root va).length)
  new : (missing m.mem root va).map (nodePage m'.mem root) =
    (l.take (missing m.mem root va).length).map some
  old : ∀ n ∉ missing m.mem root va, nodePage m'.mem root n = nodePage m.mem root n
  leaf : leaf m'.mem root = leaf m.mem root

section Alloc

variable {m : Phys} {root va : ℕ} {l : List ℕ}

theorem missing_of_some {p₀ : ℕ} (hb : nodePage m.mem root (.bot (pxIdx 2 va) (pxIdx 1 va)) = some p₀) :
    missing m.mem root va = [] := by
  obtain ⟨p₁, h₁, -⟩ := nodePage_bot_eq_some.mp hb
  simp [missing, pathNodes, h₁, hb]

theorem missing_of_mid {p₁ : ℕ} (h₁ : nodePage m.mem root (.mid (pxIdx 2 va)) = some p₁)
    (hb : nodePage m.mem root (.bot (pxIdx 2 va) (pxIdx 1 va)) = none) :
    missing m.mem root va = [.bot (pxIdx 2 va) (pxIdx 1 va)] := by
  simp [missing, pathNodes, h₁, hb]

theorem missing_of_none (h₁ : nodePage m.mem root (.mid (pxIdx 2 va)) = none) :
    missing m.mem root va = [.mid (pxIdx 2 va), .bot (pxIdx 2 va) (pxIdx 1 va)] := by
  simp [missing, pathNodes, h₁, nodePage_bot_of_mid h₁]

theorem walk_install_bot (ht : PageTree m.mem root) (ha : Alloc m root l) (hva : va < MAXVA) {p₁ q : ℕ}
    {l' : List ℕ} (hl : l = q :: l') (h₁ : nodePage m.mem root (.mid (pxIdx 2 va)) = some p₁)
    (hb : nodePage m.mem root (.bot (pxIdx 2 va) (pxIdx 1 va)) = none) :
    walk m root va true = .ok (some (q + 8 * PX 0 va), installed m p₁ (PX 1 va) q) ∧
      nodePage (installed m p₁ (PX 1 va) q).mem root =
        Function.update (nodePage m.mem root) (.bot (pxIdx 2 va) (pxIdx 1 va)) (some q) ∧
      PageTree (installed m p₁ (PX 1 va) q).mem root ∧ Alloc (installed m p₁ (PX 1 va) q) root l' ∧
      leaf (installed m p₁ (PX 1 va) q).mem root = leaf m.mem root := by
  subst hl
  have hp₁ := ht.page _ _ h₁
  have hn := nodePage_install_bot ht ha (j := pxIdx 1 va) h₁
  rw [pxIdx_val] at hn
  have h₀ : ptePage (entry m.mem p₁ (PX 1 va)) = none := (nodePage_bot_of_some (j := pxIdx 1 va) h₁).symm.trans hb
  have h₁' := h₁
  rw [nodePage_mid, pxIdx_val] at h₁'
  refine ⟨?_, hn, PageTree.install ht ha hn, Alloc.install ha hp₁ ⟨_, h₁⟩ (PX_lt 1 va) hn,
    leaf_installMem ht ha hb (PX_lt 1 va) h₁ (fun _ _ => by simp) hn⟩
  simp only [walk, if_neg (Nat.not_le.mpr hva), walkLevel_some (ht.page .root root rfl) h₁',
    walkLevel_install hp₁ h₀ ha.chain (ha.page q List.mem_cons_self).ne_zero, Except.ok_bind]
  rfl

theorem walk_install_mid (ht : PageTree m.mem root) (ha : Alloc m root l) (hva : va < MAXVA) {q₁ q₀ : ℕ}
    {l' : List ℕ} (hl : l = q₁ :: q₀ :: l') (h₁ : nodePage m.mem root (.mid (pxIdx 2 va)) = none) :
    walk m root va true =
        .ok (some (q₀ + 8 * PX 0 va), installed (installed m root (PX 2 va) q₁) q₁ (PX 1 va) q₀) ∧
      nodePage (installed (installed m root (PX 2 va) q₁) q₁ (PX 1 va) q₀).mem root =
        Function.update (Function.update (nodePage m.mem root)
          (.mid (pxIdx 2 va)) (some q₁)) (.bot (pxIdx 2 va) (pxIdx 1 va)) (some q₀) ∧
      PageTree (installed (installed m root (PX 2 va) q₁) q₁ (PX 1 va) q₀).mem root ∧
      Alloc (installed (installed m root (PX 2 va) q₁) q₁ (PX 1 va) q₀) root l' ∧
      leaf (installed (installed m root (PX 2 va) q₁) q₁ (PX 1 va) q₀).mem root = leaf m.mem root := by
  subst hl
  have hr := ht.page .root root rfl
  have hq₁ := ha.page q₁ List.mem_cons_self
  have hrq₁ : root ≠ q₁ := fun e => ha.not_node q₁ List.mem_cons_self .root (e ▸ rfl)
  -- the level-1 table goes into the root
  have hn₁ := nodePage_install_mid ht ha (i := pxIdx 2 va) h₁
  rw [pxIdx_val] at hn₁
  have ht₁ := PageTree.install ht ha hn₁
  have ha₁ := Alloc.install ha hr ⟨.root, rfl⟩ (PX_lt 2 va) hn₁
  have hleaf₁ := leaf_installMem ht ha h₁ (PX_lt 2 va) nodePage_root (fun _ _ => by simp) hn₁
  have hmid₁ : nodePage (installed m root (PX 2 va) q₁).mem root (.mid (pxIdx 2 va)) = some q₁ := by
    rw [installed_mem, hn₁, Function.update_self]
  have hb₁ : nodePage (installed m root (PX 2 va) q₁).mem root (.bot (pxIdx 2 va) (pxIdx 1 va)) = none := by
    rw [installed_mem, hn₁, Function.update_of_ne (by simp), nodePage_bot_of_mid h₁]
  -- then the level-0 table into it
  obtain ⟨-, hn₂, ht₂, ha₂, hleaf₂⟩ := walk_install_bot ht₁ ha₁ hva rfl hmid₁ hb₁
  refine ⟨?_, by rw [hn₂, installed_mem, hn₁], ht₂, ha₂, hleaf₂.trans hleaf₁⟩
  have h₂ : ptePage (entry m.mem root (PX 2 va)) = none := by
    rw [nodePage_mid, pxIdx_val] at h₁
    exact h₁
  have h₀ : ptePage (entry (installed m root (PX 2 va) q₁).mem q₁ (PX 1 va)) = none := by
    rw [installed_mem, entry_installMem hr.1 hq₁.1 hq₁.1 (PX_lt 2 va) (PX_lt 1 va) hrq₁,
      if_neg (fun h => hrq₁ h.1.symm), if_pos rfl, ptePage_zero]
  simp only [walk, if_neg (Nat.not_le.mpr hva), walkLevel_install hr h₂ ha.chain hq₁.ne_zero,
    walkLevel_install hq₁ h₀ ha₁.chain (ha₁.page q₀ List.mem_cons_self).ne_zero, Except.ok_bind]
  rfl

/-- `walk` with `alloc` and enough free pages: the missing tables on the path of `va` take the
first free pages, in order, and nothing else of the tree changes. -/
theorem walk_alloc_ok (ht : PageTree m.mem root) (ha : Alloc m root l) (hva : va < MAXVA)
    (hl : (missing m.mem root va).length ≤ l.length) :
    ∃ m' p₀, walk m root va true = .ok (some (p₀ + 8 * PX 0 va), m') ∧
      nodePage m'.mem root (.bot (pxIdx 2 va) (pxIdx 1 va)) = some p₀ ∧ Grown m m' root va l := by
  cases hb : nodePage m.mem root (.bot (pxIdx 2 va) (pxIdx 1 va)) with
  | some p₀ =>
    -- nothing is missing
    have hmiss := missing_of_some hb
    refine ⟨m, p₀, walk_some ht hva hb true, hb, ⟨ht, ?_, by simp [hmiss], fun _ _ => rfl, rfl⟩⟩
    simpa [hmiss] using ha
  | none =>
    cases h₁ : nodePage m.mem root (.mid (pxIdx 2 va)) with
    | some p₁ =>
      have hmiss := missing_of_mid h₁ hb
      obtain ⟨q, l', rfl⟩ : ∃ q l', l = q :: l' := by
        cases l with
        | nil => simp [hmiss] at hl
        | cons q l' => exact ⟨q, l', rfl⟩
      obtain ⟨hw, hn, ht', ha', hleaf⟩ := walk_install_bot ht ha hva rfl h₁ hb
      refine ⟨_, q, hw, by rw [hn, Function.update_self],
        ⟨ht', by simpa [hmiss] using ha', by simp [hmiss, hn], fun n hn' => ?_, hleaf⟩⟩
      rw [hmiss, List.mem_singleton] at hn'
      rw [hn, Function.update_of_ne hn']
    | none =>
      have hmiss := missing_of_none h₁
      obtain ⟨q₁, q₀, l', rfl⟩ : ∃ q₁ q₀ l', l = q₁ :: q₀ :: l' := by
        rcases l with _ | ⟨q₁, _ | ⟨q₀, l'⟩⟩
        · simp [hmiss] at hl
        · simp [hmiss] at hl
        · exact ⟨q₁, q₀, l', rfl⟩
      obtain ⟨hw, hn, ht', ha', hleaf⟩ := walk_install_mid ht ha hva rfl h₁
      refine ⟨_, q₀, hw, by rw [hn, Function.update_self],
        ⟨ht', by simpa [hmiss] using ha', by simp [hmiss, hn], fun n hn' => ?_, hleaf⟩⟩
      simp only [hmiss, List.mem_cons, List.not_mem_nil, or_false, not_or] at hn'
      rw [hn, Function.update_of_ne hn'.2, Function.update_of_ne hn'.1]

/-- `walk` with `alloc` and too few free pages returns `0`: with the memory as it was, or with
the level-1 table installed when both tables were missing and one page was free. -/
theorem walk_alloc_short (ht : PageTree m.mem root) (ha : Alloc m root l) (hva : va < MAXVA)
    (hl : l.length < (missing m.mem root va).length) :
    walk m root va true = .ok (none, m) ∨
      ∃ q₁, l = [q₁] ∧ nodePage m.mem root (.mid (pxIdx 2 va)) = none ∧
        walk m root va true = .ok (none, installed m root (PX 2 va) q₁) := by
  have hr := ht.page .root root rfl
  cases hb : nodePage m.mem root (.bot (pxIdx 2 va) (pxIdx 1 va)) with
  | some p₀ => simp [missing_of_some hb] at hl
  | none =>
    cases h₁ : nodePage m.mem root (.mid (pxIdx 2 va)) with
    | some p₁ =>
      -- the free list is empty at level 1
      rw [missing_of_mid h₁ hb] at hl
      obtain rfl : l = [] := List.eq_nil_of_length_eq_zero (by simpa using hl)
      have hp₁ := ht.page _ _ h₁
      have h₀ : ptePage (entry m.mem p₁ (PX 1 va)) = none := (nodePage_bot_of_some (j := pxIdx 1 va) h₁).symm.trans hb
      rw [nodePage_mid, pxIdx_val] at h₁
      refine .inl ?_
      simp only [walk, if_neg (Nat.not_le.mpr hva), walkLevel_some hr h₁, walkLevel_empty hp₁ h₀ ha.chain,
        Except.ok_bind]
      rfl
    | none =>
      rw [missing_of_none h₁] at hl
      have h₂ : ptePage (entry m.mem root (PX 2 va)) = none := by
        rw [nodePage_mid, pxIdx_val] at h₁
        exact h₁
      cases l with
      | nil =>
        -- empty at level 2
        refine .inl ?_
        simp only [walk, if_neg (Nat.not_le.mpr hva), walkLevel_empty hr h₂ ha.chain, Except.ok_bind]
        rfl
      | cons q₁ l' =>
        -- one page, taken at level 2; empty at level 1
        obtain rfl : l' = [] := List.eq_nil_of_length_eq_zero (by
          simp only [List.length_cons, List.length_nil] at hl
          omega)
        have hq₁ := ha.page q₁ List.mem_cons_self
        have hrq₁ : root ≠ q₁ := fun e => ha.not_node q₁ List.mem_cons_self .root (e ▸ rfl)
        have hn₁ := nodePage_install_mid ht ha (i := pxIdx 2 va) h₁
        rw [pxIdx_val] at hn₁
        have ha₁ := Alloc.install ha hr ⟨.root, rfl⟩ (PX_lt 2 va) hn₁
        have h₀ : ptePage (entry (installed m root (PX 2 va) q₁).mem q₁ (PX 1 va)) = none := by
          rw [installed_mem, entry_installMem hr.1 hq₁.1 hq₁.1 (PX_lt 2 va) (PX_lt 1 va) hrq₁,
            if_neg (fun h => hrq₁ h.1.symm), if_pos rfl, ptePage_zero]
        refine .inr ⟨q₁, rfl, rfl, ?_⟩
        simp only [walk, if_neg (Nat.not_le.mpr hva), walkLevel_install hr h₂ ha.chain hq₁.ne_zero,
          walkLevel_empty hq₁ h₀ ha₁.chain, Except.ok_bind]
        rfl

theorem walk_alloc_none (ht : PageTree m.mem root) (ha : Alloc m root l) (hva : va < MAXVA)
    (hl : l.length < (missing m.mem root va).length) : ∃ m', walk m root va true = .ok (none, m') := by
  rcases walk_alloc_short ht ha hva hl with h | ⟨q₁, -, -, h⟩
  · exact ⟨m, h⟩
  · exact ⟨_, h⟩

theorem walk_alloc_some (ht : PageTree m.mem root) (ha : Alloc m root l) {pte : ℕ} {m' : Phys}
    (h : walk m root va true = .ok (some pte, m')) :
    va < MAXVA ∧ ∃ p₀ l', pte = p₀ + 8 * PX 0 va ∧ nodePage m'.mem root (.bot (pxIdx 2 va) (pxIdx 1 va)) = some p₀ ∧
      PageTree m'.mem root ∧ Alloc m' root l' ∧ leaf m'.mem root = leaf m.mem root := by
  have hva := lt_MAXVA_of_walk h
  refine ⟨hva, ?_⟩
  by_cases hl : (missing m.mem root va).length ≤ l.length
  · obtain ⟨m'', p₀, hw, hb, hg⟩ := walk_alloc_ok ht ha hva hl
    rw [hw] at h
    cases h
    exact ⟨p₀, _, rfl, hb, hg.table, hg.alloc, hg.leaf⟩
  · obtain ⟨m'', hw⟩ := walk_alloc_none ht ha hva (Nat.lt_of_not_le hl)
    rw [hw] at h
    cases h

end Alloc

end Xv6
