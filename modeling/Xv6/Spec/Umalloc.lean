import Xv6.Spec.Param

/-! The user heap allocator of `umalloc.c`, Kernighan and Ritchie's: a circular list of free
blocks, each a `Header` followed by its space, through the static `base`.

Memory is a map from addresses to the header stored there; a pointer is a byte address,
`Header *` arithmetic moves by `sizeof(Header)` bytes, and a `uint` field wraps modulo
`2 ^ 32`. `sbrk` is the system call as the program sees it: from the break and the `int`
argument, the result (`(char *) -1` is `2 ^ 64 - 1`) and the new break. The loops walk the
free list, so they run on fuel; `none` is running out of it. -/

namespace Xv6

/-- `union header` without its alignment member. -/
structure Header where
  ptr : ℕ
  size : ℕ
  deriving DecidableEq, Repr

/-- `sizeof(Header)`. -/
def HDRSZ : ℕ := 16

structure UHeap where
  mem : ℕ → Header
  /-- `&base`. -/
  base : ℕ
  freep : ℕ
  /-- The program break. -/
  brk : ℕ

namespace UHeap

def setPtr (h : UHeap) (a v : ℕ) : UHeap := { h with mem := Function.update h.mem a { h.mem a with ptr := v } }

/-- Store into a `uint` size field. -/
def setSize (h : UHeap) (a v : ℕ) : UHeap :=
  { h with mem := Function.update h.mem a { h.mem a with size := v % 2 ^ 32 } }

variable (h : UHeap) {a b : ℕ} (v : ℕ)

@[simp] theorem setPtr_self : (h.setPtr a v).mem a = { h.mem a with ptr := v } := by simp [setPtr]
@[simp] theorem setPtr_of_ne (hab : b ≠ a) : (h.setPtr a v).mem b = h.mem b := by simp [setPtr, hab]
@[simp] theorem setSize_self : (h.setSize a v).mem a = { h.mem a with size := v % 2 ^ 32 } := by simp [setSize]
@[simp] theorem setSize_of_ne (hab : b ≠ a) : (h.setSize a v).mem b = h.mem b := by simp [setSize, hab]
@[simp] theorem setPtr_brk : (h.setPtr a v).brk = h.brk := rfl
@[simp] theorem setPtr_base : (h.setPtr a v).base = h.base := rfl
@[simp] theorem setPtr_freep : (h.setPtr a v).freep = h.freep := rfl
@[simp] theorem setSize_brk : (h.setSize a v).brk = h.brk := rfl
@[simp] theorem setSize_base : (h.setSize a v).base = h.base := rfl
@[simp] theorem setSize_freep : (h.setSize a v).freep = h.freep := rfl

end UHeap

/-- The search loop of `free`: the free block `p` after which `bp` goes, either between `p`
and the next block or at the wrap point of the list. -/
def freeFind (h : UHeap) (bp : ℕ) : ℕ → ℕ → Option ℕ
  | 0, _ => none
  | fuel + 1, p =>
    let q := (h.mem p).ptr
    if bp > p ∧ bp < q then some p
    else if p ≥ q ∧ (bp > p ∨ bp < q) then some p
    else freeFind h bp fuel q

/-- `free(ap)`: the block is put after `p` and joined to its neighbours where they touch. -/
def free (fuel : ℕ) (h : UHeap) (ap : ℕ) : Option UHeap := do
  let bp := ap - HDRSZ
  let p ← freeFind h bp fuel h.freep
  let q := (h.mem p).ptr
  let h := if bp + HDRSZ * (h.mem bp).size = q then
      (h.setSize bp ((h.mem bp).size + (h.mem q).size)).setPtr bp (h.mem q).ptr
    else h.setPtr bp q
  let h := if p + HDRSZ * (h.mem p).size = bp then
      (h.setSize p ((h.mem p).size + (h.mem bp).size)).setPtr p (h.mem bp).ptr
    else h.setPtr p bp
  return { h with freep := p }

/-- `morecore(nu)`: at least 4096 units from `sbrk(nu * sizeof(Header))`, whose argument is an
`int`, given to `free` as one block; the result is `freep`, or `0` when `sbrk` fails. -/
def morecore (sbrk : ℕ → ℤ → ℕ × ℕ) (fuel : ℕ) (h : UHeap) (nu : ℕ) : Option (ℕ × UHeap) :=
  let nu := if nu < 4096 then 4096 else nu
  let (p, brk) := sbrk h.brk (int32 (nu * HDRSZ))
  let h := { h with brk := brk }
  if p = 2 ^ 64 - 1 then some (0, h)
  else do
    let h ← free fuel (h.setSize p nu) (p + HDRSZ)
    return (h.freep, h)

/-- The loop of `malloc` from `prevp` and `p = prevp->s.ptr`: the first block of at least
`nunits` units is taken whole, or its tail is cut off; after a full round the heap grows. -/
def mallocLoop (sbrk : ℕ → ℤ → ℕ × ℕ) (nunits : ℕ) : ℕ → UHeap → ℕ → ℕ → Option (ℕ × UHeap)
  | 0, _, _, _ => none
  | fuel + 1, h, prevp, p =>
    if nunits ≤ (h.mem p).size then
      if (h.mem p).size = nunits then some (p + HDRSZ, { h.setPtr prevp (h.mem p).ptr with freep := prevp })
      else
        let h := h.setSize p ((h.mem p).size - nunits)
        let p := p + HDRSZ * (h.mem p).size
        some (p + HDRSZ, { h.setSize p nunits with freep := prevp })
    else if p = h.freep then
      match morecore sbrk fuel h nunits with
      | none => none
      | some (p, h) => if p = 0 then some (0, h) else mallocLoop sbrk nunits fuel h p (h.mem p).ptr
    else mallocLoop sbrk nunits fuel h p (h.mem p).ptr

/-- `malloc(nbytes)` for a `uint` `nbytes`; the first call makes `base` the empty list. -/
def malloc (sbrk : ℕ → ℤ → ℕ × ℕ) (fuel : ℕ) (h : UHeap) (nbytes : ℕ) : Option (ℕ × UHeap) :=
  let nunits := (nbytes + HDRSZ - 1) / HDRSZ + 1
  let h := if h.freep = 0 then
      { h with mem := Function.update h.mem h.base { ptr := h.base, size := 0 }, freep := h.base }
    else h
  mallocLoop sbrk nunits fuel h h.freep (h.mem h.freep).ptr

end Xv6
