import Xv6.Spec.Param

/-! The virtio disk driver of `virtio_disk.c` with the device on the other side of its
queue.

The driver keeps `NUM` descriptors with their free flags, the avail ring it writes heads
into, the used ring the device writes completions into, and `info` per chain head. Every
call of `virtio_disk_rw` holds `vdisk_lock` except inside `sleep`, so a call is three steps:
allocate three descriptors and submit the chain (or sleep for descriptors), try again after a
wakeup, and once `b->disk` is clear free the chain. `virtio_disk_intr` runs its whole loop
under the lock. The device takes heads from the avail ring in order with its own index, and
finishes the requests it holds in any order: it follows the chain to the status byte, sets
it to 0 and puts the head on the used ring. The ring indices are `uint16`; a `uint16` is a
natural number kept below `2 ^ 16`. A descriptor's `addr` is what it points at; block data
and the request header's bytes are not modelled. -/

namespace Xv6

def NUM : ℕ := 8

instance : NeZero NUM := ⟨by decide⟩

def VRING_DESC_F_NEXT : ℕ := 1
def VRING_DESC_F_WRITE : ℕ := 2

def VIRTIO_BLK_T_IN : ℕ := 0
def VIRTIO_BLK_T_OUT : ℕ := 1

/-- The target of a descriptor's `addr`. -/
inductive DescAddr
  | null
  /-- `(uint64) &disk.ops[i]`. -/
  | op (i : Fin NUM)
  /-- `(uint64) b->data`. -/
  | data (b : Fin NBUF)
  /-- `(uint64) &disk.info[i].status`. -/
  | status (i : Fin NUM)
  deriving DecidableEq, Repr

/-- `struct virtq_desc`. -/
structure Desc where
  addr : DescAddr
  len : ℕ
  flags : ℕ
  next : ℕ
  deriving DecidableEq, Repr

def Desc.zero : Desc := ⟨.null, 0, 0, 0⟩

/-- `struct virtio_blk_req`. -/
structure BlkReq where
  type : ℕ
  reserved : ℕ
  sector : ℕ
  deriving DecidableEq, Repr

structure Info where
  b : Option (Fin NBUF)
  status : ℕ
  deriving DecidableEq, Repr

/-- `struct virtq_avail` and `struct virtq_used` (whose entries are the `id`s). -/
structure VRing where
  ring : Fin NUM → ℕ
  idx : ℕ

/-- `ring[n % NUM]`. -/
def slot (n : ℕ) : Fin NUM := ⟨n % NUM, Nat.mod_lt _ (by decide)⟩

/-- `disk` without its lock. -/
structure Disk where
  desc : Fin NUM → Desc
  avail : VRing
  used : VRing
  free : Fin NUM → Bool
  /-- `disk.used_idx`: how far the driver has looked in the used ring. -/
  usedIdx : ℕ
  info : Fin NUM → Info
  ops : Fin NUM → BlkReq

/-- Where a call of `virtio_disk_rw(b, write)` is: not in one, asleep for descriptors, or
asleep until `b->disk` is clear, with the chain it submitted. -/
inductive VCall
  | idle
  | waitDesc (b : Fin NBUF) (blockno : ℕ) (write : Bool)
  | waitDone (b : Fin NBUF) (i0 i1 i2 : Fin NUM)
  deriving DecidableEq, Repr

structure VirtioSys where
  disk : Disk
  /-- `b->disk` of each buffer. -/
  bdisk : Fin NBUF → Bool
  calls : Fin NPROC → VCall
  /-- The device's own index into the avail ring. -/
  lastAvail : ℕ
  /-- The heads the device has taken and not yet finished. -/
  inflight : List ℕ

/-- `alloc_desc()`: the first free descriptor, now marked in use; `none` for `-1`. -/
def allocDesc (d : Disk) : Option (Fin NUM × Disk) :=
  match (List.finRange NUM).find? (fun i => d.free i) with
  | none => none
  | some i => some (i, { d with free := Function.update d.free i false })

/-- `free_desc(i)`. -/
def freeDesc (d : Disk) (i : ℕ) : Except String Disk :=
  if h : NUM ≤ i then .error "free_desc 1"
  else if d.free ⟨i, by omega⟩ then .error "free_desc 2"
  else .ok { d with desc := Function.update d.desc ⟨i, by omega⟩ Desc.zero,
                    free := Function.update d.free ⟨i, by omega⟩ true }

/-- The loop of `free_chain(i)`. It reads `desc[i]` before `free_desc` checks `i`, so an
index past `NUM` is an error here. Each round frees a descriptor or panics, so `NUM + 1`
rounds always end it. -/
def freeChainLoop : ℕ → Disk → ℕ → Except String Disk
  | 0, _, _ => .error "free_chain"
  | fuel + 1, d, i =>
    if h : i < NUM then do
      let flag := (d.desc ⟨i, h⟩).flags
      let nxt := (d.desc ⟨i, h⟩).next
      let d ← freeDesc d i
      if flag &&& VRING_DESC_F_NEXT ≠ 0 then freeChainLoop fuel d nxt else return d
    else .error "free_chain: desc[i]"

def freeChain (d : Disk) (i : ℕ) : Except String Disk := freeChainLoop (NUM + 1) d i

/-- `alloc3_desc(idx)`, its loop of three rounds written out: three descriptors, or none
with those already taken given back. -/
def alloc3Desc (d : Disk) : Except String (Option (Fin NUM × Fin NUM × Fin NUM) × Disk) :=
  match allocDesc d with
  | none => .ok (none, d)
  | some (i0, d) =>
    match allocDesc d with
    | none => do
      let d ← freeDesc d i0
      return (none, d)
    | some (i1, d) =>
      match allocDesc d with
      | none => do
        let d ← freeDesc d i0
        let d ← freeDesc d i1
        return (none, d)
      | some (i2, d) => .ok (some (i0, i1, i2), d)

/-- The three descriptors of a request filled in, and its status byte set to `0xff`. -/
def formatChain (d : Disk) (b : Fin NBUF) (blockno : ℕ) (write : Bool) (i0 i1 i2 : Fin NUM) : Disk :=
  let sector := blockno * (BSIZE / 512) % 2 ^ 32
  let d := { d with ops := (Function.update d.ops i0
    { type := if write then VIRTIO_BLK_T_OUT else VIRTIO_BLK_T_IN, reserved := 0, sector := sector }) }
  let d := { d with desc := (Function.update d.desc i0
    { addr := .op i0, len := 16, flags := VRING_DESC_F_NEXT, next := i1 }) }
  let d := { d with desc := (Function.update d.desc i1
    { addr := .data b, len := BSIZE, flags := (if write then 0 else VRING_DESC_F_WRITE) ||| VRING_DESC_F_NEXT,
      next := i2 }) }
  let d := { d with info := Function.update d.info i0 { d.info i0 with status := 0xff } }
  { d with desc := Function.update d.desc i2 { addr := .status i0, len := 1, flags := VRING_DESC_F_WRITE, next := 0 } }

/-- The chain recorded for `virtio_disk_intr` and its head put on the avail ring. -/
def submit (s : VirtioSys) (p : Fin NPROC) (b : Fin NBUF) (i0 i1 i2 : Fin NUM) (d : Disk) : VirtioSys :=
  let d := { d with info := Function.update d.info i0 { d.info i0 with b := some b } }
  let d := { d with avail := { ring := Function.update d.avail.ring (slot d.avail.idx) i0,
                               idx := (d.avail.idx + 1) % 2 ^ 16 } }
  { s with disk := d, bdisk := Function.update s.bdisk b true,
           calls := Function.update s.calls p (.waitDone b i0 i1 i2) }

/-- `virtio_disk_rw(b, write)` up to its sleep: the chain submitted, or a sleep for descriptors. -/
def rwAlloc (s : VirtioSys) (p : Fin NPROC) (b : Fin NBUF) (blockno : ℕ) (write : Bool) :
    Except String VirtioSys := do
  match ← alloc3Desc s.disk with
  | (none, d) => return { s with disk := d, calls := Function.update s.calls p (.waitDesc b blockno write) }
  | (some (i0, i1, i2), d) => return submit s p b i0 i1 i2 (formatChain d b blockno write i0 i1 i2)

/-- The end of `virtio_disk_rw`: `info[idx[0]].b = 0` and `free_chain(idx[0])`. -/
def rwFinish (s : VirtioSys) (p : Fin NPROC) (i0 : Fin NUM) : Except String VirtioSys := do
  let d := { s.disk with info := Function.update s.disk.info i0 { s.disk.info i0 with b := none } }
  let d ← freeChain d i0
  return { s with disk := d, calls := Function.update s.calls p .idle }

/-- How far `a` is ahead of `b` as `uint16` indices. -/
def ahead16 (a b : ℕ) : ℕ := (a + 2 ^ 16 - b) % 2 ^ 16

/-- The loop of `virtio_disk_intr`, one used entry a round. -/
def intrLoop : ℕ → VirtioSys → Except String VirtioSys
  | 0, s => .ok s
  | fuel + 1, s =>
    if s.disk.usedIdx = s.disk.used.idx then .ok s
    else
      let id := s.disk.used.ring (slot s.disk.usedIdx)
      if h : id < NUM then
        if (s.disk.info ⟨id, h⟩).status ≠ 0 then .error "virtio_disk_intr status"
        else
          match (s.disk.info ⟨id, h⟩).b with
          | none => .error "virtio_disk_intr: b is null"
          | some b => intrLoop fuel { s with bdisk := Function.update s.bdisk b false,
                                             disk := { s.disk with usedIdx := (s.disk.usedIdx + 1) % 2 ^ 16 } }
      else .error "virtio_disk_intr: info[id]"

/-- `virtio_disk_intr()`: as many rounds as the used ring is ahead of `used_idx`. -/
def virtioDiskIntr (s : VirtioSys) : Except String VirtioSys := intrLoop (ahead16 s.disk.used.idx s.disk.usedIdx) s

/-- The status byte of the chain at head `h`, as the device finds it: two descriptors with
`NEXT`, then one that points at a status byte. -/
def deviceStatus (d : Disk) (h : ℕ) : Option (Fin NUM) :=
  if h0 : h < NUM then
    let d0 := d.desc ⟨h, h0⟩
    if h1 : d0.flags &&& VRING_DESC_F_NEXT ≠ 0 ∧ d0.next < NUM then
      let d1 := d.desc ⟨d0.next, h1.2⟩
      if h2 : d1.flags &&& VRING_DESC_F_NEXT ≠ 0 ∧ d1.next < NUM then
        match (d.desc ⟨d1.next, h2.2⟩).addr with
        | .status i => some i
        | _ => none
      else none
    else none
  else none

/-- The device finishes the request at head `h`. -/
def deviceComplete (s : VirtioSys) (h : ℕ) : Except String VirtioSys :=
  match deviceStatus s.disk h with
  | none => .error "device: bad chain"
  | some i =>
    let d := { s.disk with info := Function.update s.disk.info i { s.disk.info i with status := 0 } }
    let d := { d with used := { ring := Function.update d.used.ring (slot d.used.idx) h,
                                idx := (d.used.idx + 1) % 2 ^ 16 } }
    .ok { s with disk := d, inflight := s.inflight.erase h }

/-- The buffer a call is for. -/
def VCall.buf : VCall → Option (Fin NBUF)
  | .idle => none
  | .waitDesc b _ _ => some b
  | .waitDone b _ _ _ => some b

inductive VirtioEvent
  /-- `virtio_disk_rw(b, write)` for block `blockno`, by a process that holds `b`'s lock. -/
  | rw (p : Fin NPROC) (b : Fin NBUF) (blockno : ℕ) (write : Bool)
  /-- A process asleep for descriptors wakes up. -/
  | retry (p : Fin NPROC)
  /-- A process whose buffer the interrupt handler released wakes up. -/
  | finish (p : Fin NPROC)
  /-- The device takes the next head from the avail ring. -/
  | fetch
  /-- The device finishes the request at head `h`. -/
  | complete (h : ℕ)
  | intr
  deriving DecidableEq, Repr

def virtioStep (s : VirtioSys) : VirtioEvent → Option (Except String VirtioSys)
  | .rw p b blockno write =>
    if s.calls p = .idle ∧ ∀ q, (s.calls q).buf ≠ some b then some (rwAlloc s p b blockno write) else none
  | .retry p =>
    match s.calls p with
    | .waitDesc b blockno write => some (rwAlloc s p b blockno write)
    | _ => none
  | .finish p =>
    match s.calls p with
    | .waitDone b i0 _ _ => if s.bdisk b = false then some (rwFinish s p i0) else none
    | _ => none
  | .fetch =>
    if s.lastAvail = s.disk.avail.idx then none
    else some (.ok { s with inflight := s.inflight ++ [s.disk.avail.ring (slot s.lastAvail)],
                            lastAvail := (s.lastAvail + 1) % 2 ^ 16 })
  | .complete h => if h ∈ s.inflight then some (deviceComplete s h) else none
  | .intr => some (virtioDiskIntr s)

def virtioNext (s : VirtioSys) (e : VirtioEvent) : Option VirtioSys :=
  match virtioStep s e with
  | some (.ok s') => some s'
  | _ => none

/-- After `virtio_disk_init`: every descriptor free, the rings empty. -/
def virtioInit : VirtioSys where
  disk := { desc := fun _ => Desc.zero, avail := ⟨fun _ => 0, 0⟩, used := ⟨fun _ => 0, 0⟩, free := fun _ => true,
            usedIdx := 0, info := fun _ => ⟨none, 0⟩, ops := fun _ => ⟨0, 0, 0⟩ }
  bdisk := fun _ => false
  calls := fun _ => .idle
  lastAvail := 0
  inflight := []

end Xv6
