import Xv6.Spec.Param
import Xv6.Lib.ByteMem
import Xv6.Lib.Except

/-! Physical memory, the page allocator of `kalloc.c` (`kinit`, `freerange`, `kfree`,
`kalloc`) and the user page-table functions of `vm.c` that the process calls here use:
`uvmcreate`, `walk`, `walkaddr`, `copyout`, `copyinstr`, `mappages`, `uvmunmap`, `uvmalloc`,
`uvmdealloc`, `uvmcopy`, `freewalk`, `uvmfree` and `proc_freepagetable` (from `proc.c`).

Page tables live in physical memory as 512 little-endian 64-bit PTEs per page. A load
the kernel makes through its direct map must hit RAM, `[KERNBASE, PHYSTOP)`; a load from
anywhere else faults, and `kerneltrap()` panics. The C loops that stop when a length runs
out are recursions on a fuel argument that the callers set to that length. -/

namespace Xv6

open ByteMem

structure Phys where
  mem : ℕ → UInt8
  /-- `kmem.freelist`: the first free page (0 for none); each free page holds the next. -/
  freelist : ℕ
  /-- The linker's `end`, the first address after the kernel image. -/
  kend : ℕ

namespace Phys

/-- A 64-bit load through the kernel's direct map. -/
def load (m : Phys) (pa : ℕ) : Except String ℕ :=
  if KERNBASE ≤ pa ∧ pa + 8 ≤ PHYSTOP then .ok (readWord m.mem pa 8) else .error "kerneltrap"

def store (m : Phys) (pa v : ℕ) : Phys := { m with mem := writeWord m.mem pa 8 v }

/-- `memmove(pa, src, n)` for kernel bytes `src` of length `n`. -/
def memmove (m : Phys) (pa : ℕ) (src : List UInt8) : Phys := { m with mem := writeBytes m.mem pa src }

def memset (m : Phys) (pa : ℕ) (c : UInt8) (n : ℕ) : Phys := { m with mem := fill m.mem pa n c }

@[simp] theorem mem_store (m : Phys) (pa v : ℕ) : (m.store pa v).mem = writeWord m.mem pa 8 v := rfl

@[simp] theorem mem_memmove (m : Phys) (pa : ℕ) (src : List UInt8) :
    (m.memmove pa src).mem = writeBytes m.mem pa src := rfl

end Phys

def kfree (m : Phys) (pa : ℕ) : Except String Phys :=
  if pa % PGSIZE ≠ 0 ∨ pa < m.kend ∨ PHYSTOP ≤ pa then .error "kfree"
  else .ok { (m.memset pa 1 PGSIZE).store pa m.freelist with freelist := pa }

/-- `kalloc()`: the page it returns (0 when none is free) and the memory after. -/
def kalloc (m : Phys) : ℕ × Phys :=
  if m.freelist = 0 then (0, m)
  else (m.freelist, ({ m with freelist := readWord m.mem m.freelist 8 } : Phys).memset m.freelist 5 PGSIZE)

/-- The loop of `freerange`: `kfree` each page from `p` on that ends by `pa_end`. -/
def freerangeLoop (pa_end : ℕ) : ℕ → Phys → ℕ → Except String Phys
  | 0, m, _ => .ok m
  | fuel + 1, m, p =>
    if p + PGSIZE ≤ pa_end then do
      let m ← kfree m p
      freerangeLoop pa_end fuel m (p + PGSIZE)
    else .ok m

/-- `freerange(pa_start, pa_end)`: no more than `pa_end / PGSIZE` pages end by `pa_end`. -/
def freerange (m : Phys) (pa_start pa_end : ℕ) : Except String Phys :=
  freerangeLoop pa_end (pa_end / PGSIZE) m (PGROUNDUP pa_start)

/-- `kinit()`: every page from the end of the kernel to `PHYSTOP` goes on the free list. -/
def kinit (m : Phys) : Except String Phys := freerange m m.kend PHYSTOP

/-- `uvmcreate()`: an empty page table on a zeroed page, or 0 when no page is free. -/
def uvmcreate (m : Phys) : ℕ × Phys :=
  let (pagetable, m) := kalloc m
  if pagetable = 0 then (0, m) else (pagetable, m.memset pagetable 0 PGSIZE)

/-- One iteration of `walk`'s loop at `level`: the page-table page the PTE points to, or
(with `alloc`) a fresh zeroed one installed in it; `none` for `return 0`. -/
def walkLevel (m : Phys) (pagetable va level : ℕ) (alloc : Bool) : Except String (Option ℕ × Phys) := do
  let pte ← m.load (pagetable + 8 * PX level va)
  if pte &&& PTE_V ≠ 0 then return (some (PTE2PA pte), m)
  else if !alloc then return (none, m)
  else
    let (pa, m₁) := kalloc m
    if pa = 0 then return (none, m₁)
    else return (some pa, (m₁.memset pa 0 PGSIZE).store (pagetable + 8 * PX level va) (PA2PTE pa ||| PTE_V))

/-- `walk(pagetable, va, alloc)`: the address of the level-0 PTE for `va`. -/
def walk (m : Phys) (pagetable va : ℕ) (alloc : Bool) : Except String (Option ℕ × Phys) :=
  if MAXVA ≤ va then .error "walk" else do
    match ← walkLevel m pagetable va 2 alloc with
    | (none, m₁) => return (none, m₁)
    | (some pt₁, m₁) =>
      match ← walkLevel m₁ pt₁ va 1 alloc with
      | (none, m₂) => return (none, m₂)
      | (some pt₀, m₂) => return (some (pt₀ + 8 * PX 0 va), m₂)

/-- `walkaddr(pagetable, va)`: the physical page of a valid user mapping, or 0. -/
def walkaddr (m : Phys) (pagetable va : ℕ) : Except String ℕ :=
  if MAXVA ≤ va then .ok 0 else do
    match (← walk m pagetable va false).1 with
    | none => return 0
    | some a =>
      let pte ← m.load a
      if pte &&& PTE_V = 0 then return 0
      else if pte &&& PTE_U = 0 then return 0
      else return PTE2PA pte

/-- The loop of `copyout`: copy `src` to `dstva` page by page; `-1` at the first page
that `walkaddr` refuses, with the earlier pages already written. -/
def copyoutLoop (pagetable : ℕ) : ℕ → Phys → ℕ → List UInt8 → Except String (ℤ × Phys)
  | 0, m, _, _ => return (0, m)
  | fuel + 1, m, dstva, src =>
    if src.length = 0 then return (0, m) else do
      let va0 := PGROUNDDOWN dstva
      let pa0 ← walkaddr m pagetable va0
      if pa0 = 0 then return (-1, m)
      else
        let n := min (PGSIZE - (dstva - va0)) src.length
        copyoutLoop pagetable fuel (m.memmove (pa0 + (dstva - va0)) (src.take n)) (va0 + PGSIZE)
          (src.drop n)

/-- `copyout(pagetable, dstva, src, len)` for the `len` kernel bytes `src`. -/
def copyout (m : Phys) (pagetable dstva : ℕ) (src : List UInt8) : Except String (ℤ × Phys) :=
  copyoutLoop pagetable src.length m dstva src

/-- The loop of `copyin`: the result and the bytes stored at `dst`, page by page; `-1` at
the first page that `walkaddr` refuses, with the earlier pages' bytes already stored. -/
def copyinLoop (m : Phys) (pagetable : ℕ) : ℕ → ℕ → ℕ → Except String (ℤ × List UInt8)
  | 0, _, _ => return (0, [])
  | fuel + 1, srcva, len =>
    if len = 0 then return (0, []) else do
      let va0 := PGROUNDDOWN srcva
      let pa0 ← walkaddr m pagetable va0
      if pa0 = 0 then return (-1, [])
      else
        let n := min (PGSIZE - (srcva - va0)) len
        let (r, rest) ← copyinLoop m pagetable fuel (va0 + PGSIZE) (len - n)
        return (r, readBytes m.mem (pa0 + (srcva - va0)) n ++ rest)

/-- `copyin(pagetable, dst, srcva, len)`: the result and the bytes stored at `dst`. -/
def copyin (m : Phys) (pagetable srcva len : ℕ) : Except String (ℤ × List UInt8) :=
  copyinLoop m pagetable len srcva len

/-- The inner loop of `copyinstr` over the bytes of one page: copy them up to a NUL,
which is stored too. The flag is `got_null`. -/
def copyinstrPage : List UInt8 → Bool × List UInt8
  | [] => (false, [])
  | c :: cs => if c = 0 then (true, [0]) else ((copyinstrPage cs).1, c :: (copyinstrPage cs).2)

/-- The outer loop of `copyinstr`: the result and every byte stored at `dst`, in order. -/
def copyinstrLoop (m : Phys) (pagetable : ℕ) : ℕ → ℕ → ℕ → Except String (ℤ × List UInt8)
  | 0, _, _ => return (-1, [])
  | fuel + 1, srcva, max =>
    if max = 0 then return (-1, []) else do
      let va0 := PGROUNDDOWN srcva
      let pa0 ← walkaddr m pagetable va0
      if pa0 = 0 then return (-1, [])
      else
        let n := min (PGSIZE - (srcva - va0)) max
        let (gotNull, out) := copyinstrPage (readBytes m.mem (pa0 + (srcva - va0)) n)
        if gotNull then return (0, out)
        else
          let (r, rest) ← copyinstrLoop m pagetable fuel (va0 + PGSIZE) (max - n)
          return (r, out ++ rest)

/-- `copyinstr(pagetable, dst, srcva, max)`: the result and the bytes stored at `dst`. -/
def copyinstr (m : Phys) (pagetable srcva max : ℕ) : Except String (ℤ × List UInt8) :=
  copyinstrLoop m pagetable (max + 1) srcva max

/-- `fetchstr(addr, buf, max)` of `syscall.c` through the caller's page table (and so
`argstr`, at the address in the argument register): `-1` when `copyinstr` fails, else
`strlen(buf)`; and the bytes stored at `buf`. -/
def fetchstr (m : Phys) (pagetable addr max : ℕ) : Except String (ℤ × List UInt8) := do
  let (r, out) ← copyinstr m pagetable addr max
  if r < 0 then return (-1, out) else return ((out.takeWhile (· != 0)).length, out)

/-- One iteration of `uvmunmap`'s loop, for the page `k` pages above `va`. -/
def uvmunmapStep (pagetable va : ℕ) (doFree : Bool) (m : Phys) (k : ℕ) : Except String Phys := do
  match (← walk m pagetable (va + k * PGSIZE) false).1 with
  | none => throw "uvmunmap: walk"
  | some pte =>
    let v ← m.load pte
    if v &&& PTE_V = 0 then throw "uvmunmap: not mapped"
    else if PTE_FLAGS v = PTE_V then throw "uvmunmap: not a leaf"
    else
      let m ← if doFree then kfree m (PTE2PA v) else pure m
      return m.store pte 0

def uvmunmap (m : Phys) (pagetable va npages : ℕ) (doFree : Bool) : Except String Phys :=
  if va % PGSIZE ≠ 0 then .error "uvmunmap: not aligned"
  else (List.range npages).foldlM (uvmunmapStep pagetable va doFree) m

/-- `freewalk(pagetable)`, recursing at most `depth` levels: a table built by `walk` has
three, so `uvmfree` passes 3 and the depth never runs out on such a table. -/
def freewalk : ℕ → Phys → ℕ → Except String Phys
  | 0, m, _ => .ok m
  | depth + 1, m, pagetable => do
    let step (m : Phys) (i : ℕ) : Except String Phys := do
      let pte ← m.load (pagetable + 8 * i)
      if pte &&& PTE_V ≠ 0 ∧ pte &&& (PTE_R ||| PTE_W ||| PTE_X) = 0 then
        let m ← freewalk depth m (PTE2PA pte)
        return m.store (pagetable + 8 * i) 0
      else if pte &&& PTE_V ≠ 0 then throw "freewalk: leaf"
      else return m
    let m ← (List.range 512).foldlM step m
    kfree m pagetable

def uvmfree (m : Phys) (pagetable sz : ℕ) : Except String Phys := do
  let m ← if 0 < sz then uvmunmap m pagetable 0 (PGROUNDUP sz / PGSIZE) true else pure m
  freewalk 3 m pagetable

/-- `proc_freepagetable(pagetable, sz)`. -/
def procFreepagetable (m : Phys) (pagetable sz : ℕ) : Except String Phys := do
  let m ← uvmunmap m pagetable TRAMPOLINE 1 false
  let m ← uvmunmap m pagetable TRAPFRAME 1 false
  uvmfree m pagetable sz

/-- One round of `mappages`'s loop, mapping `a` to `pa`; the loop stops after `last`. -/
def mappagesLoop (pagetable last perm : ℕ) : ℕ → Phys → ℕ → ℕ → Except String (ℤ × Phys)
  | 0, m, _, _ => return (0, m)
  | fuel + 1, m, a, pa => do
    match ← walk m pagetable a true with
    | (none, m) => return (-1, m)
    | (some pte, m) =>
      let v ← m.load pte
      if v &&& PTE_V ≠ 0 then throw "mappages: remap"
      else
        let m := m.store pte (PA2PTE pa ||| perm ||| PTE_V)
        if a = last then return (0, m) else mappagesLoop pagetable last perm fuel m (a + PGSIZE) (pa + PGSIZE)

/-- `mappages(pagetable, va, size, pa, perm)`: `0`, or `-1` when `walk` could not allocate
a page-table page. The loop visits each page from `PGROUNDDOWN(va)` to `last` once. -/
def mappages (m : Phys) (pagetable va size pa perm : ℕ) : Except String (ℤ × Phys) :=
  if size = 0 then .error "mappages: size"
  else
    let a := PGROUNDDOWN va
    let last := PGROUNDDOWN (va + size - 1)
    mappagesLoop pagetable last perm ((last - a) / PGSIZE + 1) m a pa

/-- `uvmdealloc(pagetable, oldsz, newsz)`: the new size. `int npages` holds the page count
exactly for sizes below `MAXVA`. -/
def uvmdealloc (m : Phys) (pagetable oldsz newsz : ℕ) : Except String (ℕ × Phys) :=
  if oldsz ≤ newsz then return (oldsz, m)
  else if PGROUNDUP newsz < PGROUNDUP oldsz then do
    let m ← uvmunmap m pagetable (PGROUNDUP newsz) ((PGROUNDUP oldsz - PGROUNDUP newsz) / PGSIZE) true
    return (newsz, m)
  else return (newsz, m)

/-- The loop of `uvmalloc` from `a` up to `newsz`; a failure deallocates back to `oldsz`,
the old size rounded up. Each round maps one page, so `newsz / PGSIZE + 1` rounds are
enough. -/
def uvmallocLoop (pagetable oldsz newsz xperm : ℕ) : ℕ → Phys → ℕ → Except String (ℕ × Phys)
  | 0, m, _ => return (newsz, m)
  | fuel + 1, m, a =>
    if a < newsz then
      let (mem, m) := kalloc m
      if mem = 0 then do
        let (_, m) ← uvmdealloc m pagetable a oldsz
        return (0, m)
      else do
        let m := m.memset mem 0 PGSIZE
        let (r, m) ← mappages m pagetable a PGSIZE mem (PTE_R ||| PTE_U ||| xperm)
        if r ≠ 0 then do
          let m ← kfree m mem
          let (_, m) ← uvmdealloc m pagetable a oldsz
          return (0, m)
        else uvmallocLoop pagetable oldsz newsz xperm fuel m (a + PGSIZE)
    else return (newsz, m)

/-- `uvmalloc(pagetable, oldsz, newsz, xperm)`: the new size, or `0` on error. -/
def uvmalloc (m : Phys) (pagetable oldsz newsz xperm : ℕ) : Except String (ℕ × Phys) :=
  if newsz < oldsz then return (oldsz, m)
  else uvmallocLoop pagetable (PGROUNDUP oldsz) newsz xperm (newsz / PGSIZE + 1) m (PGROUNDUP oldsz)

/-- The `err:` path of `uvmcopy` at the page `i`: unmap and free the pages copied so far. -/
def uvmcopyErr (m : Phys) (new i : ℕ) : Except String (ℤ × Phys) := do
  let m ← uvmunmap m new 0 (i / PGSIZE) true
  return (-1, m)

/-- The loop of `uvmcopy` from the page `i`: the parent's page is copied into a fresh frame
that `new` maps with the parent's flags. Each round copies one page, so `sz / PGSIZE + 1`
rounds are enough. -/
def uvmcopyLoop (old new sz : ℕ) : ℕ → Phys → ℕ → Except String (ℤ × Phys)
  | 0, m, _ => return (0, m)
  | fuel + 1, m, i =>
    if i < sz then do
      match (← walk m old i false).1 with
      | none => throw "uvmcopy: pte should exist"
      | some pte =>
        let v ← m.load pte
        if v &&& PTE_V = 0 then throw "uvmcopy: page not present"
        else
          let pa := PTE2PA v
          let flags := PTE_FLAGS v
          let (mem, m) := kalloc m
          if mem = 0 then uvmcopyErr m new i
          else
            let m := m.memmove mem (readBytes m.mem pa PGSIZE)
            let (r, m) ← mappages m new i PGSIZE mem flags
            if r ≠ 0 then do
              let m ← kfree m mem
              uvmcopyErr m new i
            else uvmcopyLoop old new sz fuel m (i + PGSIZE)
    else return (0, m)

/-- `uvmcopy(old, new, sz)`: `0`, or `-1` when memory ran out. -/
def uvmcopy (m : Phys) (old new sz : ℕ) : Except String (ℤ × Phys) :=
  uvmcopyLoop old new sz (sz / PGSIZE + 1) m 0

/-- The byte a process sees at user address `va` through `pagetable`, when mapped. -/
def uread (m : Phys) (pagetable va : ℕ) : Option UInt8 :=
  match walkaddr m pagetable (PGROUNDDOWN va) with
  | .ok pa => if pa = 0 then none else some (m.mem (pa + (va - PGROUNDDOWN va)))
  | .error _ => none

/-- What `copyinstr` returns when every byte it looks at is readable: `0` and the bytes up
to the first NUL, which is stored too, or `-1` and all of them. -/
def copyinstrResult (bs : List UInt8) : ℤ × List UInt8 :=
  ((if (copyinstrPage bs).1 then 0 else -1), (copyinstrPage bs).2)

/-! ## Page arithmetic -/

theorem sub_PGROUNDDOWN (a : ℕ) : a - PGROUNDDOWN a = a % PGSIZE := by
  simp only [PGROUNDDOWN, PGSIZE]; omega

theorem PGROUNDDOWN_add {a j : ℕ} (h : a % PGSIZE + j < PGSIZE) :
    PGROUNDDOWN (a + j) = PGROUNDDOWN a := by
  simp only [PGROUNDDOWN, PGSIZE] at *; omega

theorem PGROUNDDOWN_le (a : ℕ) : PGROUNDDOWN a ≤ a := by
  simp only [PGROUNDDOWN, PGSIZE]; omega

/-! ## Walks -/

theorem walkaddr_of_le {m : Phys} {pagetable va : ℕ} (h : MAXVA ≤ va) : walkaddr m pagetable va = .ok 0 := by
  simp [walkaddr, h]

/-- Through a null page table the first PTE load is below RAM and faults. -/
theorem walkaddr_null {m : Phys} {va : ℕ} (h : va < MAXVA) : walkaddr m 0 va = .error "kerneltrap" := by
  have hpx : PX 2 va < 512 := Nat.mod_lt _ (by decide)
  have hload : m.load (8 * PX 2 va) = .error "kerneltrap" := by
    unfold Phys.load
    rw [if_neg]
    rintro ⟨hlo, -⟩
    simp only [KERNBASE] at hlo
    omega
  simp [walkaddr, walk, walkLevel, hload, Nat.not_le.mpr h]

theorem uread_eq_some {m : Phys} {pagetable va : ℕ} {b : UInt8} :
    uread m pagetable va = some b ↔
      ∃ pa, walkaddr m pagetable (PGROUNDDOWN va) = .ok pa ∧ pa ≠ 0 ∧ m.mem (pa + va % PGSIZE) = b := by
  unfold uread
  rw [sub_PGROUNDDOWN]
  cases walkaddr m pagetable (PGROUNDDOWN va) with
  | error e => simp
  | ok pa => by_cases h : pa = 0 <;> simp [h]

/-! ## copyout -/

theorem copyoutLoop_nil (pagetable fuel : ℕ) (m : Phys) (dstva : ℕ) :
    copyoutLoop pagetable fuel m dstva [] = .ok (0, m) := by
  cases fuel <;> simp [copyoutLoop]

theorem copyout_page {m : Phys} {pagetable dstva pa : ℕ} {src : List UInt8}
    (hpa : walkaddr m pagetable (PGROUNDDOWN dstva) = .ok pa) (hpa0 : pa ≠ 0)
    (hfit : dstva % PGSIZE + src.length ≤ PGSIZE) :
    copyout m pagetable dstva src = .ok (0, m.memmove (pa + dstva % PGSIZE) src) := by
  cases src with
  | nil => simp [copyout, copyoutLoop_nil, Phys.memmove]
  | cons b bs =>
    have hn : min (PGSIZE - dstva % PGSIZE) (bs.length + 1) = bs.length + 1 := by
      simp only [List.length_cons] at hfit; omega
    simp [copyout, copyoutLoop, hpa, hpa0, sub_PGROUNDDOWN, hn, copyoutLoop_nil]

theorem copyout_null {m : Phys} {dstva : ℕ} {src : List UInt8} (hsrc : src ≠ [])
    (h : dstva < MAXVA) : copyout m 0 dstva src = .error "kerneltrap" := by
  have hd : PGROUNDDOWN dstva < MAXVA := lt_of_le_of_lt (PGROUNDDOWN_le dstva) h
  cases src with
  | nil => exact absurd rfl hsrc
  | cons b bs => simp [copyout, copyoutLoop, walkaddr_null hd]

theorem copyout_unmapped {m : Phys} {pagetable dstva : ℕ} {src : List UInt8} (hsrc : src ≠ [])
    (hpa : walkaddr m pagetable (PGROUNDDOWN dstva) = .ok 0) :
    copyout m pagetable dstva src = .ok (-1, m) := by
  cases src with
  | nil => exact absurd rfl hsrc
  | cons b bs => simp [copyout, copyoutLoop, hpa]

theorem copyout_of_le {m : Phys} {pagetable dstva : ℕ} {src : List UInt8} (hsrc : src ≠ [])
    (h : MAXVA ≤ dstva) : copyout m pagetable dstva src = .ok (-1, m) := by
  have hd : MAXVA ≤ PGROUNDDOWN dstva := by
    simp only [PGROUNDDOWN, MAXVA, PGSIZE] at *; omega
  exact copyout_unmapped hsrc (walkaddr_of_le hd)

/-! ## copyinstr -/

theorem copyinstrPage_append (a b : List UInt8) :
    copyinstrPage (a ++ b) = if (copyinstrPage a).1 then copyinstrPage a
      else ((copyinstrPage b).1, (copyinstrPage a).2 ++ (copyinstrPage b).2) := by
  induction a with
  | nil => simp [copyinstrPage]
  | cons c a ih =>
    by_cases hc : c = 0
    · simp [copyinstrPage, hc]
    · simp only [List.cons_append, copyinstrPage, hc, if_false, ih]
      split_ifs <;> simp

theorem copyinstrPage_of_ne_zero {bs : List UInt8} (h : ∀ b ∈ bs, b ≠ 0) : copyinstrPage bs = (false, bs) := by
  induction bs with
  | nil => rfl
  | cons b bs ih =>
    have hb : b ≠ 0 := h b (List.mem_cons_self)
    rw [copyinstrPage, if_neg hb, ih fun c hc => h c (List.mem_cons_of_mem b hc)]

theorem readBytes_page {m : Phys} {pagetable srcva pa n : ℕ} (s : ℕ → UInt8)
    (hpa : walkaddr m pagetable (PGROUNDDOWN srcva) = .ok pa)
    (hfit : srcva % PGSIZE + n ≤ PGSIZE)
    (hs : ∀ j < n, uread m pagetable (srcva + j) = some (s (srcva + j))) :
    readBytes m.mem (pa + srcva % PGSIZE) n = (List.range n).map fun j => s (srcva + j) := by
  apply List.ext_getElem (by simp)
  intro j h1 h2
  simp only [length_readBytes] at h1
  obtain ⟨pa', hpa', -, hb⟩ := uread_eq_some.mp (hs j h1)
  have hpage : PGROUNDDOWN (srcva + j) = PGROUNDDOWN srcva := PGROUNDDOWN_add (by omega)
  have hoff : (srcva + j) % PGSIZE = srcva % PGSIZE + j := by
    simp only [PGSIZE] at *; omega
  rw [hpage, hpa] at hpa'
  cases hpa'
  simp only [readBytes, List.getElem_map, List.getElem_range]
  rw [← hb, hoff, Nat.add_assoc]

/-- On a string whose first `max` bytes are readable, the page-by-page loop of
`copyinstr` is one scan over those bytes. -/
theorem copyinstrLoop_readable {m : Phys} {pagetable : ℕ} (s : ℕ → UInt8) :
    ∀ fuel srcva max, max ≤ fuel → (∀ j < max, uread m pagetable (srcva + j) = some (s (srcva + j))) →
      copyinstrLoop m pagetable fuel srcva max =
        .ok (copyinstrResult ((List.range max).map fun j => s (srcva + j)))
  | 0, srcva, max, hf, _ => by
    obtain rfl : max = 0 := by omega
    simp [copyinstrLoop, copyinstrResult, copyinstrPage]
  | fuel + 1, srcva, max, hf, hs => by
    rcases Nat.eq_zero_or_pos max with rfl | hmax
    · simp [copyinstrLoop, copyinstrResult, copyinstrPage]
    obtain ⟨pa, hpa, hpa0, -⟩ := uread_eq_some.mp (by simpa using hs 0 hmax)
    have hoff : srcva % PGSIZE < PGSIZE := Nat.mod_lt _ (by decide)
    simp only [copyinstrLoop, Nat.pos_iff_ne_zero.mp hmax, if_false, hpa, Except.ok_bind, hpa0,
      sub_PGROUNDDOWN]
    -- the first page takes `n` bytes; the rest of the string starts at the next page
    set n := min (PGSIZE - srcva % PGSIZE) max with hn
    have hread := readBytes_page s hpa (n := n) (by omega) fun j hj => hs j (by omega)
    -- past the first page the string goes on at the next page boundary
    have hsame : ∀ j < max - n, PGROUNDDOWN srcva + PGSIZE + j = srcva + n + j := by
      intro j hj
      have h1 : n = PGSIZE - srcva % PGSIZE := by omega
      rw [h1]
      simp only [PGROUNDDOWN, PGSIZE] at *
      omega
    have hrest : copyinstrLoop m pagetable fuel (PGROUNDDOWN srcva + PGSIZE) (max - n) =
        .ok (copyinstrResult ((List.range (max - n)).map fun j => s (srcva + n + j))) := by
      have hl : ((List.range (max - n)).map fun j => s (srcva + n + j)) =
          (List.range (max - n)).map fun j => s (PGROUNDDOWN srcva + PGSIZE + j) := by
        apply List.map_congr_left
        intro j hj
        rw [hsame j (List.mem_range.mp hj)]
      rw [hl]
      apply copyinstrLoop_readable s fuel _ _ (by omega)
      intro j hj
      rw [hsame j hj, Nat.add_assoc]
      exact hs (n + j) (by omega)
    have hsplit : (List.range max).map (fun j => s (srcva + j)) =
        (List.range n).map (fun j => s (srcva + j)) ++
          (List.range (max - n)).map (fun j => s (srcva + n + j)) := by
      rw [show max = n + (max - n) by omega, List.range_add, List.map_append, List.map_map]
      simp [Function.comp_def, Nat.add_assoc, show n + (max - n) - n = max - n by omega]
    rw [hread, hsplit]
    unfold copyinstrResult
    rw [copyinstrPage_append]
    by_cases hg : (copyinstrPage ((List.range n).map fun j => s (srcva + j))).1
    · simp [hg]
    · simp [hg, hrest, copyinstrResult]

end Xv6
