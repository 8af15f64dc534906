import Xv6.Spec.Vm
import Xv6.Lib.Run

/-! The page allocator over whole runs. `kmem.freelist` is a chain through the free pages,
each holding the next in its first word. The callers hold the pages `kalloc` gave them until
they `kfree` them, and store only into pages they hold. From `kinit` on, the free pages and
the held ones are the pages of `[PGROUNDUP(end), PHYSTOP)`, each once: `kfree` of a held
page does not panic, `kalloc` never hands out a page someone holds, and the free pages and
the held ones add up to all pages. -/

namespace Xv6

open ByteMem

/-- The pages of `[a, b)`, for a page-aligned `a`. -/
def pageRange (a b : ℕ) : List ℕ := (List.range ((b - a) / PGSIZE)).map fun i => a + i * PGSIZE

/-- The free list from `r` on holds the pages `l`: each holds the next in its first word, and
`0` ends the list. -/
inductive FreeChain (mem : ℕ → UInt8) : ℕ → List ℕ → Prop
  | nil : FreeChain mem 0 []
  | cons {r : ℕ} {l : List ℕ} : r ≠ 0 → FreeChain mem (readWord mem r 8) l → FreeChain mem r (r :: l)

/-- The allocator and its callers: `held` are the pages `kalloc` handed out that have not
come back through `kfree`. -/
structure KmemSys where
  phys : Phys
  held : List ℕ

inductive KmemEvent
  /-- `kalloc()`. -/
  | alloc
  /-- `kfree(pa)` by the holder of page `pa`. -/
  | free (pa : ℕ)
  /-- A store of `v` at `a` by the holder of the page of `a`. -/
  | store (a : ℕ) (v : UInt8)
  deriving DecidableEq, Repr

def kmemStep (s : KmemSys) : KmemEvent → Option (Except String KmemSys)
  | .alloc =>
    let (r, m) := kalloc s.phys
    some (.ok ⟨m, if r = 0 then s.held else r :: s.held⟩)
  | .free pa => if pa ∈ s.held then some ((kfree s.phys pa).map fun m => ⟨m, s.held.erase pa⟩) else none
  | .store a v => if PGROUNDDOWN a ∈ s.held then some (.ok ⟨s.phys.memmove a [v], s.held⟩) else none

def kmemNext (s : KmemSys) (e : KmemEvent) : Option KmemSys :=
  match kmemStep s e with
  | some (.ok s') => some s'
  | _ => none

/-! ## Pages -/

section Pages

variable {a b x : ℕ}

theorem PGROUNDUP_mod (n : ℕ) : PGROUNDUP n % PGSIZE = 0 := Nat.mul_mod_left _ _

theorem le_PGROUNDUP (n : ℕ) : n ≤ PGROUNDUP n := by
  simp only [PGROUNDUP, PGSIZE]
  omega

theorem mem_pageRange (ha : a % PGSIZE = 0) : x ∈ pageRange a b ↔ a ≤ x ∧ x + PGSIZE ≤ b ∧ x % PGSIZE = 0 := by
  simp only [pageRange, List.mem_map, List.mem_range]
  simp only [PGSIZE] at *
  constructor
  · rintro ⟨i, hi, rfl⟩
    omega
  · rintro ⟨h1, h2, h3⟩
    exact ⟨(x - a) / 4096, by omega, by omega⟩

theorem nodup_pageRange : (pageRange a b).Nodup :=
  List.nodup_range.map fun i j h => by simpa [PGSIZE] using h

theorem pageRange_snoc {p : ℕ} (ha : a % PGSIZE = 0) (hp : p % PGSIZE = 0) (hap : a ≤ p) :
    pageRange a (p + PGSIZE) = pageRange a p ++ [p] := by
  have hn : (p + PGSIZE - a) / PGSIZE = (p - a) / PGSIZE + 1 := by
    simp only [PGSIZE] at *
    omega
  have hlast : a + (p - a) / PGSIZE * PGSIZE = p := by
    simp only [PGSIZE] at *
    omega
  rw [pageRange, hn, List.range_succ, List.map_append, List.map_singleton, hlast]
  rfl

theorem pageRange_of_lt {p : ℕ} (ha : a % PGSIZE = 0) (hp : p % PGSIZE = 0) (hap : a ≤ p) (hpb : p ≤ b ∨ p = a)
    (hb : b < p + PGSIZE) : pageRange a p = pageRange a b := by
  have : (p - a) / PGSIZE = (b - a) / PGSIZE := by
    simp only [PGSIZE] at *
    omega
  rw [pageRange, pageRange, this]

theorem word_outside {p q i : ℕ} (hp : p % PGSIZE = 0) (hq : q % PGSIZE = 0) (hpq : p ≠ q) (hi : i < 8) :
    p + i < q ∨ q + PGSIZE ≤ p + i := by
  simp only [PGSIZE] at *
  omega

end Pages

/-! ## The free list -/

namespace FreeChain

variable {mem mem' : ℕ → UInt8} {r : ℕ} {l : List ℕ}

theorem head (h : FreeChain mem r l) : r = l.headD 0 := by
  cases h <;> rfl

theorem of_ne (h : FreeChain mem r l) (hr : r ≠ 0) : ∃ l', l = r :: l' ∧ FreeChain mem (readWord mem r 8) l' := by
  cases h with
  | nil => exact absurd rfl hr
  | cons _ h => exact ⟨_, rfl, h⟩

theorem unique (h : FreeChain mem r l) {l' : List ℕ} (h' : FreeChain mem r l') : l' = l := by
  induction h generalizing l' with
  | nil =>
    cases h' with
    | nil => rfl
    | cons hr _ => exact absurd rfl hr
  | cons hr _ ih =>
    cases h' with
    | nil => exact absurd rfl hr
    | cons _ h' => rw [ih h']

theorem frame (h : FreeChain mem r l) (hm : ∀ p ∈ l, ∀ i < 8, mem' (p + i) = mem (p + i)) : FreeChain mem' r l := by
  induction h with
  | nil => exact .nil
  | cons hr _ ih =>
    refine .cons hr ?_
    rw [readWord_congr fun i hi => hm _ List.mem_cons_self i hi]
    exact ih fun p hp => hm p (List.mem_cons_of_mem _ hp)

end FreeChain

section Alloc

variable {m : Phys} {l : List ℕ} {pa : ℕ}

/-- `kfree` of an aligned page of RAM past the kernel, which is not free, puts it at the
front of the list. -/
theorem kfree_chain (hpa : pa % PGSIZE = 0) (hk : m.kend ≤ pa) (hp : pa < PHYSTOP) (h0 : pa ≠ 0)
    (hc : FreeChain m.mem m.freelist l) (hl : ∀ q ∈ l, q % PGSIZE = 0 ∧ q ≠ pa ∧ q < 2 ^ 64) :
    ∃ m', kfree m pa = .ok m' ∧ m'.kend = m.kend ∧ m'.freelist = pa ∧ FreeChain m'.mem pa (pa :: l) := by
  have hok : ¬(pa % PGSIZE ≠ 0 ∨ pa < m.kend ∨ PHYSTOP ≤ pa) := by omega
  refine ⟨{ (m.memset pa 1 PGSIZE).store pa m.freelist with freelist := pa }, by rw [kfree, if_neg hok], rfl, rfl,
    .cons h0 ?_⟩
  have hfl : m.freelist < 256 ^ 8 := by
    rw [hc.head]
    cases l with
    | nil => simp
    | cons q _ => exact (hl q List.mem_cons_self).2.2
  simp only [Phys.store, Phys.memset, readWord_writeWord, Nat.mod_eq_of_lt hfl]
  refine hc.frame fun q hq i hi => ?_
  obtain ⟨hq0, hqp, -⟩ := hl q hq
  have hout := word_outside hq0 hpa hqp hi
  rw [writeWord_of_not_mem (by simp only [PGSIZE] at hout; omega), fill_of_not_mem hout]

theorem kfree_frame {m' : Phys} (h : kfree m pa = .ok m') :
    pa % PGSIZE = 0 ∧ ∀ x, x < pa ∨ pa + PGSIZE ≤ x → m'.mem x = m.mem x := by
  unfold kfree at h
  split_ifs at h with hbad
  cases h
  refine ⟨by omega, fun x hx => ?_⟩
  have hword : x < pa ∨ pa + 8 ≤ x := by
    simp only [PGSIZE] at hx
    omega
  simp only [Phys.store, Phys.memset]
  rw [writeWord_of_not_mem hword, fill_of_not_mem hx]

theorem kfree_kend {m' : Phys} (h : kfree m pa = .ok m') : m'.kend = m.kend := by
  unfold kfree at h
  split_ifs at h
  cases h
  rfl

theorem kalloc_chain (hc : FreeChain m.mem m.freelist l) (hl : ∀ q ∈ l, q % PGSIZE = 0) (hnd : l.Nodup) :
    (kalloc m).1 = l.headD 0 ∧ (kalloc m).2.kend = m.kend ∧ FreeChain (kalloc m).2.mem (kalloc m).2.freelist l.tail := by
  by_cases h0 : m.freelist = 0
  · rw [h0] at hc
    cases hc with
    | nil => simp [kalloc, h0, FreeChain.nil]
    | cons h _ => exact absurd rfl h
  obtain ⟨l', rfl, hc'⟩ := hc.of_ne h0
  refine ⟨by simp [kalloc, h0], by simp [kalloc, h0, Phys.memset], ?_⟩
  simp only [kalloc, h0, if_false, Phys.memset, List.tail_cons]
  refine hc'.frame fun q hq i hi => fill_of_not_mem ?_
  have hqr : q ≠ m.freelist := fun e => (List.nodup_cons.mp hnd).1 (e ▸ hq)
  exact word_outside (hl q (List.mem_cons_of_mem _ hq)) (hl _ List.mem_cons_self) hqr hi

end Alloc

/-! ## Boot -/

theorem freerangeLoop_chain (fuel : ℕ) {m : Phys} {p : ℕ} (hp : p % PGSIZE = 0) (hpa : PGROUNDUP m.kend ≤ p)
    (hpb : p ≤ PHYSTOP ∨ p = PGROUNDUP m.kend) (hkend : 0 < m.kend)
    (hc : FreeChain m.mem m.freelist (pageRange (PGROUNDUP m.kend) p).reverse) (hf : (PHYSTOP - p) / PGSIZE ≤ fuel) :
    ∃ m', freerangeLoop PHYSTOP fuel m p = .ok m' ∧ m'.kend = m.kend ∧
      FreeChain m'.mem m'.freelist (pageRange (PGROUNDUP m.kend) PHYSTOP).reverse := by
  have hG : PGSIZE = 4096 := rfl
  have hP : PHYSTOP = 2281701376 := rfl
  have hbase := PGROUNDUP_mod m.kend
  have hkp := (le_PGROUNDUP m.kend).trans hpa
  rw [hG] at hf
  induction fuel generalizing m p with
  | zero => exact ⟨m, rfl, rfl, pageRange_of_lt hbase hp hpa hpb (by omega) ▸ hc⟩
  | succ fuel ih =>
    by_cases hin : p + PGSIZE ≤ PHYSTOP
    · obtain ⟨m1, hk, hk1, hfl, hc1⟩ := kfree_chain hp hkp (by omega) (by omega) hc fun q hq => by
        rw [List.mem_reverse, mem_pageRange hbase] at hq
        exact ⟨hq.2.2, by omega, by omega⟩
      have hc1' : FreeChain m1.mem m1.freelist (pageRange (PGROUNDUP m1.kend) (p + PGSIZE)).reverse := by
        rw [hk1, hfl, pageRange_snoc hbase hp hpa, List.reverse_append, List.reverse_singleton, List.singleton_append]
        exact hc1
      obtain ⟨m', hl, hk', hc'⟩ := ih (by rw [Nat.add_mod_right]; exact hp) (by rw [hk1]; omega) (.inl hin)
        (by rw [hk1]; exact hkend) hc1' (by omega) (by rw [hk1]; exact hbase) (by rw [hk1]; omega)
      refine ⟨m', ?_, hk'.trans hk1, by rw [← hk1]; exact hc'⟩
      rw [freerangeLoop, if_pos hin, hk, Except.ok_bind]
      exact hl
    · exact ⟨m, by rw [freerangeLoop, if_neg hin], rfl, pageRange_of_lt hbase hp hpa hpb (by omega) ▸ hc⟩

/-- `kinit` from the boot state, whose free list is empty, puts every page of
`[PGROUNDUP(end), PHYSTOP)` on it, the last one first, and does not panic. -/
theorem kinit_chain {m : Phys} (hm : m.freelist = 0) (hkend : 0 < m.kend) :
    ∃ m0, kinit m = .ok m0 ∧ m0.kend = m.kend ∧
      FreeChain m0.mem m0.freelist (pageRange (PGROUNDUP m.kend) PHYSTOP).reverse := by
  have hc : FreeChain m.mem m.freelist (pageRange (PGROUNDUP m.kend) (PGROUNDUP m.kend)).reverse := by
    rw [hm, pageRange, Nat.sub_self, Nat.zero_div]
    exact .nil
  exact freerangeLoop_chain _ (PGROUNDUP_mod _) le_rfl (.inr rfl) hkend hc (Nat.div_le_div_right (Nat.sub_le _ _))

/-! ## Runs -/

/-- The free list holds the pages `l`, and the free pages and the held ones are the pages of
`[PGROUNDUP(end), PHYSTOP)`, each once. -/
structure KmemSys.Inv (s : KmemSys) (l : List ℕ) : Prop where
  chain : FreeChain s.phys.mem s.phys.freelist l
  perm : (l ++ s.held).Perm (pageRange (PGROUNDUP s.phys.kend) PHYSTOP)
  kend : 0 < s.phys.kend

namespace KmemSys.Inv

variable {s : KmemSys} {l : List ℕ} (hi : s.Inv l)
include hi

theorem page {x : ℕ} (hx : x ∈ l ++ s.held) :
    PGROUNDUP s.phys.kend ≤ x ∧ x + PGSIZE ≤ PHYSTOP ∧ x % PGSIZE = 0 :=
  (mem_pageRange (PGROUNDUP_mod _)).mp (hi.perm.subset hx)

theorem ne_zero {x : ℕ} (hx : x ∈ l ++ s.held) : x ≠ 0 :=
  Nat.ne_of_gt (lt_of_lt_of_le hi.kend ((le_PGROUNDUP _).trans (hi.page hx).1))

theorem nodup : (l ++ s.held).Nodup := hi.perm.nodup_iff.mpr nodup_pageRange

theorem alloc : (⟨(kalloc s.phys).2, if (kalloc s.phys).1 = 0 then s.held else (kalloc s.phys).1 :: s.held⟩ :
    KmemSys).Inv l.tail ∧ (kalloc s.phys).1 ∉ s.held := by
  obtain ⟨hr, hk, hc⟩ := kalloc_chain hi.chain (fun q hq => (hi.page (List.mem_append_left _ hq)).2.2)
    (List.Nodup.of_append_left hi.nodup)
  rw [hr]
  cases l with
  | nil =>
    refine ⟨⟨hc, ?_, by rw [hk]; exact hi.kend⟩, fun h => hi.ne_zero (List.mem_append_right _ h) rfl⟩
    simpa [hk] using hi.perm
  | cons r l' =>
    have hr0 : r ≠ 0 := hi.ne_zero (by simp)
    simp only [List.headD_cons, List.tail_cons] at hc ⊢
    refine ⟨⟨hc, ?_, by rw [hk]; exact hi.kend⟩, fun h => List.disjoint_of_nodup_append hi.nodup List.mem_cons_self h⟩
    show (l' ++ (if r = 0 then s.held else r :: s.held)).Perm (pageRange (PGROUNDUP (kalloc s.phys).2.kend) PHYSTOP)
    rw [if_neg hr0, hk]
    exact List.perm_middle.trans hi.perm

theorem free {pa : ℕ} (hpa : pa ∈ s.held) :
    ∃ m, kfree s.phys pa = .ok m ∧ m.kend = s.phys.kend ∧ (⟨m, s.held.erase pa⟩ : KmemSys).Inv (pa :: l) := by
  have hP : PHYSTOP = 2281701376 := rfl
  have hp := hi.page (List.mem_append_right _ hpa)
  obtain ⟨m, hk, hk1, hfl, hc⟩ := kfree_chain hp.2.2 ((le_PGROUNDUP _).trans hp.1)
    (lt_of_lt_of_le (Nat.lt_add_of_pos_right (by decide)) hp.2.1) (hi.ne_zero (List.mem_append_right _ hpa))
    hi.chain fun q hq => by
      have hq' := hi.page (List.mem_append_left _ hq)
      exact ⟨hq'.2.2, fun e => List.disjoint_of_nodup_append hi.nodup hq (e ▸ hpa), by omega⟩
  refine ⟨m, hk, hk1, hfl ▸ hc, ?_, by rw [hk1]; exact hi.kend⟩
  show (pa :: l ++ s.held.erase pa).Perm (pageRange (PGROUNDUP m.kend) PHYSTOP)
  rw [hk1]
  calc List.Perm (pa :: l ++ s.held.erase pa) (l ++ pa :: s.held.erase pa) := List.perm_middle.symm
    List.Perm _ (l ++ s.held) := ((List.perm_cons_erase hpa).symm).append_left l
    List.Perm _ _ := hi.perm

theorem store {a : ℕ} {v : UInt8} (ha : PGROUNDDOWN a ∈ s.held) :
    (⟨s.phys.memmove a [v], s.held⟩ : KmemSys).Inv l := by
  refine ⟨hi.chain.frame fun p hp i hi' => ?_, hi.perm, hi.kend⟩
  have hne : p ≠ PGROUNDDOWN a := fun e => List.disjoint_of_nodup_append hi.nodup hp (e ▸ ha)
  have hp0 := (hi.page (List.mem_append_left _ hp)).2.2
  have hpi : p + i ≠ a := by
    rintro rfl
    apply hne
    simp only [PGROUNDDOWN, PGSIZE] at *
    omega
  simp only [Phys.memmove]
  rcases Nat.lt_or_gt_of_ne hpi with h | h
  · exact writeBytes_of_lt h
  · exact writeBytes_of_le (by simpa using h)

theorem step {e : KmemEvent} {s' : KmemSys} (h : kmemNext s e = some s') :
    ∃ l', s'.Inv l' ∧ s'.phys.kend = s.phys.kend := by
  unfold kmemNext at h
  cases e with
  | alloc =>
    simp only [kmemStep, Option.some.injEq] at h
    cases h
    have hk := (kalloc_chain hi.chain (fun q hq => (hi.page (List.mem_append_left _ hq)).2.2)
      (List.Nodup.of_append_left hi.nodup)).2.1
    exact ⟨_, hi.alloc.1, hk⟩
  | free pa =>
    by_cases hpa : pa ∈ s.held
    · obtain ⟨m, hk, hk1, hm⟩ := hi.free hpa
      simp only [kmemStep, if_pos hpa, hk, Except.map, Option.some.injEq] at h
      cases h
      exact ⟨_, hm, hk1⟩
    · simp [kmemStep, hpa] at h
  | store a v =>
    by_cases ha : PGROUNDDOWN a ∈ s.held
    · simp only [kmemStep, if_pos ha, Option.some.injEq] at h
      cases h
      exact ⟨_, hi.store ha, rfl⟩
    · simp [kmemStep, ha] at h

end KmemSys.Inv

/-- The page allocator from `kinit` on, with callers that free only pages they hold and
store only into them: in every reachable state the free list is a chain through the free
pages ending in `0`, and the free pages and the held ones are the pages of
`[PGROUNDUP(end), PHYSTOP)`, each once, so that together they count all pages. `kfree` of a
held page does not panic, and `kalloc` hands out no held page. -/
theorem kmem_pages {m m0 : Phys} {s : KmemSys} (hm : m.freelist = 0) (hkend : 0 < m.kend) (hk : kinit m = .ok m0)
    (hs : Run.Reachable kmemNext ⟨m0, []⟩ s) :
    ∃ l, FreeChain s.phys.mem s.phys.freelist l ∧ (l ++ s.held).Perm (pageRange (PGROUNDUP m.kend) PHYSTOP) ∧
      l.length + s.held.length = (pageRange (PGROUNDUP m.kend) PHYSTOP).length ∧
      (∀ pa ∈ s.held, ∃ m', kfree s.phys pa = .ok m') ∧ (kalloc s.phys).1 ∉ s.held := by
  obtain ⟨m0', hk', hk0, hc⟩ := kinit_chain hm hkend
  rw [hk] at hk'
  cases hk'
  have hinv : ∃ l, s.Inv l ∧ s.phys.kend = m.kend := by
    refine Run.Reachable.induction (P := fun t => ∃ l, t.Inv l ∧ t.phys.kend = m.kend) ?_
      (fun t t' e ⟨l, ht, hkt⟩ h => ?_) hs
    · exact ⟨_, ⟨hc, by simp [hk0], by rw [hk0]; exact hkend⟩, hk0⟩
    · obtain ⟨l', ht', hk'⟩ := ht.step h
      exact ⟨l', ht', hk'.trans hkt⟩
  obtain ⟨l, hi, hke⟩ := hinv
  refine ⟨l, hi.chain, hke ▸ hi.perm, by rw [← List.length_append, hi.perm.length_eq, hke],
    fun pa hpa => (hi.free hpa).imp fun _ h => h.1, hi.alloc.2⟩

/-- Boot with the kernel ending at `KERNBASE`, two `kalloc`s, which hand out the last two
pages, and the `kfree` of the first of them: the one page still held can be freed, and
`kalloc` does not hand it out again. -/
theorem kmem_pages_allocFree :
    ∃ m0 s, kinit ⟨fun _ => 0, 0, KERNBASE⟩ = .ok m0 ∧ Run.Reachable kmemNext ⟨m0, []⟩ s ∧
      s.held = [PHYSTOP - 2 * PGSIZE] ∧
      ∃ l, FreeChain s.phys.mem s.phys.freelist l ∧ (l ++ s.held).Perm (pageRange (PGROUNDUP KERNBASE) PHYSTOP) ∧
        l.length + s.held.length = (pageRange (PGROUNDUP KERNBASE) PHYSTOP).length ∧
        (∀ pa ∈ s.held, ∃ m', kfree s.phys pa = .ok m') ∧ (kalloc s.phys).1 ∉ s.held := by
  obtain ⟨m0, hk, hk0, hc⟩ := kinit_chain (m := ⟨fun _ => 0, 0, KERNBASE⟩) rfl (by decide)
  simp only at hk0 hc
  -- the free list hands out the last two pages first
  have hpages : pageRange (PGROUNDUP KERNBASE) PHYSTOP =
      pageRange (PGROUNDUP KERNBASE) (PHYSTOP - 2 * PGSIZE) ++ [PHYSTOP - 2 * PGSIZE, PHYSTOP - PGSIZE] := by
    calc pageRange (PGROUNDUP KERNBASE) PHYSTOP
        = pageRange (PGROUNDUP KERNBASE) (PHYSTOP - PGSIZE + PGSIZE) := by rfl
      _ = pageRange (PGROUNDUP KERNBASE) (PHYSTOP - 2 * PGSIZE + PGSIZE) ++ [PHYSTOP - PGSIZE] :=
        pageRange_snoc (by decide) (by decide) (by decide)
      _ = pageRange (PGROUNDUP KERNBASE) (PHYSTOP - 2 * PGSIZE) ++ [PHYSTOP - 2 * PGSIZE] ++ [PHYSTOP - PGSIZE] := by
        rw [pageRange_snoc (by decide) (by decide) (by decide)]
      _ = _ := List.append_assoc _ _ _
  have hal : ∀ q ∈ (pageRange (PGROUNDUP KERNBASE) PHYSTOP).reverse, q % PGSIZE = 0 :=
    fun q hq => ((mem_pageRange (PGROUNDUP_mod _)).mp (List.mem_reverse.mp hq)).2.2
  have hnd : (pageRange (PGROUNDUP KERNBASE) PHYSTOP).reverse.Nodup := List.nodup_reverse.mpr nodup_pageRange
  rw [hpages, List.reverse_append] at hc hal hnd
  simp only [List.reverse_cons, List.reverse_nil, List.nil_append, List.cons_append] at hc hal hnd
  obtain ⟨h1, hk1, hc1⟩ := kalloc_chain hc hal hnd
  obtain ⟨h2, hk2, -⟩ := kalloc_chain hc1 (fun q hq => hal q (List.mem_of_mem_tail hq)) hnd.tail
  simp only [List.headD_cons, List.tail_cons] at h1 h2
  obtain ⟨m3, hm3⟩ : ∃ m3, kfree (kalloc (kalloc m0).2).2 (PHYSTOP - PGSIZE) = .ok m3 :=
    ⟨_, by rw [kfree, if_neg (by rw [hk2, hk1, hk0]; decide)]⟩
  have r1 : kmemNext ⟨m0, []⟩ .alloc = some ⟨(kalloc m0).2, [PHYSTOP - PGSIZE]⟩ := by
    have h0 : PHYSTOP - PGSIZE ≠ 0 := by decide
    simp [kmemNext, kmemStep, h1, h0]
  have r2 : kmemNext ⟨(kalloc m0).2, [PHYSTOP - PGSIZE]⟩ .alloc =
      some ⟨(kalloc (kalloc m0).2).2, [PHYSTOP - 2 * PGSIZE, PHYSTOP - PGSIZE]⟩ := by
    have h0 : PHYSTOP - 2 * PGSIZE ≠ 0 := by decide
    simp [kmemNext, kmemStep, h2, h0]
  have r3 : kmemNext ⟨(kalloc (kalloc m0).2).2, [PHYSTOP - 2 * PGSIZE, PHYSTOP - PGSIZE]⟩
      (.free (PHYSTOP - PGSIZE)) = some ⟨m3, [PHYSTOP - 2 * PGSIZE]⟩ := by
    have he : [PHYSTOP - 2 * PGSIZE, PHYSTOP - PGSIZE].erase (PHYSTOP - PGSIZE) = [PHYSTOP - 2 * PGSIZE] := by
      decide
    simp [kmemNext, kmemStep, hm3, Except.map, he]
  have hs := ((Run.Reachable.init.step _ r1).step _ r2).step _ r3
  have hp := kmem_pages (m := ⟨fun _ => 0, 0, KERNBASE⟩) rfl (by decide) hk hs
  exact ⟨m0, _, hk, hs, rfl, hp⟩

end Xv6
