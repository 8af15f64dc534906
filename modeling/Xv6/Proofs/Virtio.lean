import Xv6.Spec.Virtio
import Xv6.Lib.Gather
import Xv6.Lib.Run
import Xv6.Lib.Except

/-! Descriptor accounting of the virtio driver. Every descriptor that is not free belongs to
the chain of exactly one call asleep in `virtio_disk_rw`, a chain of three distinct
descriptors that the device can follow to the status byte of its head, with the call's
buffer recorded at the head. The heads on the avail ring past the device's index, those the
device holds, and those on the used ring past `used_idx` are, each once, the heads of the
chains whose buffer still has `b->disk` set. From that, no step of a driver call, of the
interrupt handler or of the device panics, and the interrupt handler clears `b->disk` only
for the buffer of a chain whose head is on the used ring. -/

namespace Xv6

open Gather

/-! ## Ring indices

The ring indices run modulo `2 ^ 16` and name entries modulo `NUM`, which divides `2 ^ 16`;
the entries from one index on are read as a list. -/

/-- The `k` entries of a ring from index `i` on. -/
def ringView (ring : Fin NUM → ℕ) (i k : ℕ) : List ℕ := (List.range k).map fun j => ring (slot (i + j))

section Ahead

variable {a b : ℕ}

theorem ahead16_eq_zero_iff (ha : a < 2 ^ 16) (hb : b < 2 ^ 16) : ahead16 a b = 0 ↔ a = b := by
  unfold ahead16
  omega

theorem ahead16_succ_left (ha : a < 2 ^ 16) (hb : b < 2 ^ 16) (h : ahead16 a b + 1 < 2 ^ 16) :
    ahead16 ((a + 1) % 2 ^ 16) b = ahead16 a b + 1 := by
  unfold ahead16 at *
  omega

theorem ahead16_succ_right (ha : a < 2 ^ 16) (hb : b < 2 ^ 16) (hab : a ≠ b) :
    ahead16 a ((b + 1) % 2 ^ 16) = ahead16 a b - 1 := by
  unfold ahead16
  omega

theorem slot_ahead16 (ha : a < 2 ^ 16) (hb : b < 2 ^ 16) : slot (b + ahead16 a b) = slot a := by
  unfold slot ahead16 NUM
  ext
  simp only
  omega

theorem slot_mod (k : ℕ) : slot (a % 2 ^ 16 + k) = slot (a + k) := by
  unfold slot NUM
  ext
  simp only
  omega

theorem slot_add_ne {j m : ℕ} (hjm : j ≠ m) (hj : j < NUM) (hm : m < NUM) : slot (a + j) ≠ slot (a + m) := by
  unfold slot NUM at *
  intro h
  have := congrArg Fin.val h
  simp only at this
  omega

end Ahead

section RingView

variable {ring : Fin NUM → ℕ} {i k : ℕ}

@[simp] theorem length_ringView : (ringView ring i k).length = k := by simp [ringView]

@[simp] theorem ringView_zero : ringView ring i 0 = [] := rfl

theorem ringView_succ : ringView ring i (k + 1) = ring (slot i) :: ringView ring (i + 1) k := by
  simp only [ringView, List.range_succ_eq_map, List.map_cons, List.map_map, Nat.add_zero]
  congr 1
  apply List.map_congr_left
  intro j _
  simp only [Function.comp_apply, Nat.add_assoc, Nat.add_comm 1 j]

theorem ringView_mod : ringView ring (i % 2 ^ 16) k = ringView ring i k := by
  simp only [ringView, slot_mod]

theorem ringView_push {x : ℕ} (hk : k < NUM) :
    ringView (Function.update ring (slot (i + k)) x) i (k + 1) = ringView ring i k ++ [x] := by
  simp only [ringView, List.range_succ, List.map_append, List.map_cons, List.map_nil, Function.update_self]
  congr 1
  apply List.map_congr_left
  intro j hj
  rw [Function.update_of_ne (slot_add_ne (Nat.ne_of_lt (List.mem_range.mp hj)) (by
    have := List.mem_range.mp hj
    omega) hk)]

variable (ring) in
theorem ringView_push_ahead {a : ℕ} (x : ℕ) (ha : a < 2 ^ 16) (hi : i < 2 ^ 16) (hk : ahead16 a i < NUM) :
    ringView (Function.update ring (slot a) x) i (ahead16 ((a + 1) % 2 ^ 16) i) = ringView ring i (ahead16 a i) ++ [x] := by
  have hN : NUM < 2 ^ 16 := by unfold NUM; omega
  rw [ahead16_succ_left ha hi (by omega), ← slot_ahead16 ha hi, ringView_push hk]

variable (ring) in
theorem ringView_pop_ahead {a : ℕ} (ha : a < 2 ^ 16) (hi : i < 2 ^ 16) (hai : a ≠ i) :
    ringView ring i (ahead16 a i) = ring (slot i) :: ringView ring ((i + 1) % 2 ^ 16) (ahead16 a ((i + 1) % 2 ^ 16)) := by
  have hpos : ahead16 a i ≠ 0 := fun h => hai ((ahead16_eq_zero_iff ha hi).mp h)
  rw [ringView_mod, ahead16_succ_right ha hi hai, ← ringView_succ, Nat.sub_add_cancel (Nat.pos_of_ne_zero hpos)]

end RingView

/-! ## Descriptors -/

namespace Disk

variable {d d' : Disk}

theorem allocDesc_eq_some {i : Fin NUM} (h : allocDesc d = some (i, d')) :
    d.free i = true ∧ d' = { d with free := Function.update d.free i false } := by
  unfold allocDesc at h
  split at h
  · cases h
  · rename_i j hj
    cases h
    exact ⟨by simpa using List.find?_some hj, rfl⟩

theorem freeDesc_of_used {i : Fin NUM} (h : d.free i = false) :
    freeDesc d i = .ok { d with desc := Function.update d.desc i Desc.zero, free := Function.update d.free i true } := by
  simp [freeDesc, h]

theorem freeDesc_take {i : Fin NUM} (hf : d.free i = true) (hz : d.desc i = Desc.zero) :
    freeDesc { d with free := Function.update d.free i false } i = .ok d := by
  have h1 : Function.update d.free i true = d.free := by rw [← hf, Function.update_eq_self]
  have h2 : Function.update d.desc i Desc.zero = d.desc := by rw [← hz, Function.update_eq_self]
  rw [freeDesc_of_used (by simp)]
  simp only [Function.update_idem, h1, h2]

/-- `alloc3_desc` takes three distinct free descriptors, or, when fewer are free, gives back
those it took, which leaves the disk as it was when free descriptors are zero. -/
theorem alloc3Desc_cases (hz : ∀ i, d.free i = true → d.desc i = Desc.zero) :
    alloc3Desc d = .ok (none, d) ∨
      ∃ i0 i1 i2, i0 ≠ i1 ∧ i0 ≠ i2 ∧ i1 ≠ i2 ∧ d.free i0 = true ∧ d.free i1 = true ∧ d.free i2 = true ∧
        alloc3Desc d = .ok (some (i0, i1, i2),
          { d with free := Function.update (Function.update (Function.update d.free i0 false) i1 false) i2 false }) := by
  unfold alloc3Desc
  rcases h0 : allocDesc d with _ | ⟨i0, d1⟩
  case none => exact .inl rfl
  obtain ⟨hf0, hd1⟩ := allocDesc_eq_some h0
  simp only
  rcases h1 : allocDesc d1 with _ | ⟨i1, d2⟩
  case none =>
    left
    simp only [hd1, freeDesc_take hf0 (hz i0 hf0), Except.ok_bind]
    rfl
  obtain ⟨hf1, hd2⟩ := allocDesc_eq_some h1
  have h01 : i0 ≠ i1 := fun e => by subst e; simp [hd1] at hf1
  simp only
  rcases h2 : allocDesc d2 with _ | ⟨i2, d3⟩
  case none =>
    -- give back `i0`, then `i1`
    left
    have hf1' : d.free i1 = true := by simpa [hd1, Function.update_of_ne (Ne.symm h01)] using hf1
    have hback : freeDesc d2 i0 = .ok { d with free := Function.update d.free i1 false } := by
      rw [freeDesc_of_used (by simp [hd2, hd1, Function.update_of_ne h01])]
      subst hd2 hd1
      congr 1
      congr 1
      · rw [← hz i0 hf0, Function.update_eq_self]
      · funext j
        by_cases hj0 : j = i0
        · subst hj0
          simp [Function.update_of_ne h01, hf0]
        · by_cases hj1 : j = i1
          · subst hj1
            simp [Function.update_of_ne hj0]
          · simp [Function.update_of_ne hj0, Function.update_of_ne hj1]
    simp only [hback, freeDesc_take hf1' (hz i1 hf1'), Except.ok_bind]
    rfl
  obtain ⟨hf2, rfl⟩ := allocDesc_eq_some h2
  subst hd2 hd1
  have h02 : i0 ≠ i2 := fun e => by subst e; simp [Function.update_of_ne h01] at hf2
  have h12 : i1 ≠ i2 := fun e => by subst e; simp at hf2
  right
  refine ⟨i0, i1, i2, h01, h02, h12, hf0, ?_, ?_, rfl⟩
  · simpa [Function.update_of_ne (Ne.symm h01)] using hf1
  · simpa [Function.update_of_ne (Ne.symm h02), Function.update_of_ne (Ne.symm h12)] using hf2

theorem freeChainLoop_next {fuel : ℕ} {i : Fin NUM} (hu : d.free i = false)
    (hf : (d.desc i).flags &&& VRING_DESC_F_NEXT ≠ 0) :
    freeChainLoop (fuel + 1) d i = freeChainLoop fuel
      { d with desc := Function.update d.desc i Desc.zero, free := Function.update d.free i true } (d.desc i).next := by
  simp only [freeChainLoop, i.isLt, dite_true, Fin.eta, freeDesc_of_used hu, Except.ok_bind, if_pos hf]

theorem freeChainLoop_last {fuel : ℕ} {i : Fin NUM} (hu : d.free i = false)
    (hf : (d.desc i).flags &&& VRING_DESC_F_NEXT = 0) :
    freeChainLoop (fuel + 1) d i =
      .ok { d with desc := Function.update d.desc i Desc.zero, free := Function.update d.free i true } := by
  simp only [freeChainLoop, i.isLt, dite_true, Fin.eta, freeDesc_of_used hu, Except.ok_bind, hf, ne_eq,
    not_true_eq_false, if_false]
  rfl

end Disk

/-- The three descriptors of the request with head `i0` as `virtio_disk_rw` fills them in: the
device follows them to the status byte of `i0`. -/
structure Chain (desc : Fin NUM → Desc) (b : Fin NBUF) (i0 i1 i2 : Fin NUM) : Prop where
  desc0 : desc i0 = ⟨.op i0, 16, VRING_DESC_F_NEXT, i1⟩
  desc1 : (desc i1).addr = .data b ∧ (desc i1).flags &&& VRING_DESC_F_NEXT ≠ 0 ∧ (desc i1).next = i2
  desc2 : desc i2 = ⟨.status i0, 1, VRING_DESC_F_WRITE, 0⟩

namespace Chain

variable {d : Disk} {b : Fin NBUF} {i0 i1 i2 : Fin NUM}

theorem congr {desc desc' : Fin NUM → Desc} (hc : Chain desc b i0 i1 i2) (h0 : desc' i0 = desc i0)
    (h1 : desc' i1 = desc i1) (h2 : desc' i2 = desc i2) : Chain desc' b i0 i1 i2 :=
  ⟨h0 ▸ hc.desc0, h1 ▸ hc.desc1, h2 ▸ hc.desc2⟩

theorem deviceStatus_eq (hc : Chain d.desc b i0 i1 i2) : deviceStatus d i0 = some i0 := by
  obtain ⟨-, hf1, hn1⟩ := hc.desc1
  have hf0 : (d.desc i0).flags &&& VRING_DESC_F_NEXT ≠ 0 := by
    rw [hc.desc0]; show VRING_DESC_F_NEXT &&& VRING_DESC_F_NEXT ≠ 0; decide
  have hn0 : (d.desc i0).next = i1 := by rw [hc.desc0]
  simp only [deviceStatus, i0.isLt, dite_true, Fin.eta, hf0, hn0, i1.isLt, hf1, hn1, i2.isLt, ne_eq,
    not_false_eq_true, and_self, hc.desc2]

theorem freeChain_eq (hc : Chain d.desc b i0 i1 i2) (h01 : i0 ≠ i1) (h02 : i0 ≠ i2) (h12 : i1 ≠ i2)
    (hu0 : d.free i0 = false) (hu1 : d.free i1 = false) (hu2 : d.free i2 = false) :
    freeChain d i0 = .ok { d with
      desc := Function.update (Function.update (Function.update d.desc i0 Desc.zero) i1 Desc.zero) i2 Desc.zero,
      free := Function.update (Function.update (Function.update d.free i0 true) i1 true) i2 true } := by
  obtain ⟨-, hf1, hn1⟩ := hc.desc1
  have hf0 : (d.desc i0).flags &&& VRING_DESC_F_NEXT ≠ 0 := by
    rw [hc.desc0]; show VRING_DESC_F_NEXT &&& VRING_DESC_F_NEXT ≠ 0; decide
  have hf2 : (d.desc i2).flags &&& VRING_DESC_F_NEXT = 0 := by
    rw [hc.desc2]; show VRING_DESC_F_WRITE &&& VRING_DESC_F_NEXT = 0; decide
  -- three rounds of the loop's `NUM + 1`
  show freeChainLoop (6 + 1 + 1 + 1) d i0 = _
  rw [Disk.freeChainLoop_next hu0 hf0, hc.desc0]
  dsimp only
  rw [Disk.freeChainLoop_next (by simpa [Function.update_of_ne (Ne.symm h01)] using hu1)
    (by simpa [Function.update_of_ne (Ne.symm h01)] using hf1)]
  simp only [Function.update_of_ne (Ne.symm h01), hn1]
  rw [Disk.freeChainLoop_last (by simpa [Function.update_of_ne (Ne.symm h02), Function.update_of_ne (Ne.symm h12)] using hu2)
    (by simpa [Function.update_of_ne (Ne.symm h02), Function.update_of_ne (Ne.symm h12)] using hf2)]

end Chain

/-! ## Ownership -/

namespace VCall

/-- The descriptors a call holds: its chain, once submitted. -/
def chain : VCall → List (Fin NUM)
  | .waitDone _ i0 i1 i2 => [i0, i1, i2]
  | _ => []

/-- The head a call waits on while its buffer is with the device. -/
def head (bdisk : Fin NBUF → Bool) : VCall → List ℕ
  | .waitDone b i0 _ _ => if bdisk b then [i0.val] else []
  | _ => []

variable {c : VCall} {bdisk : Fin NBUF → Bool}

theorem length_head_le : 3 * (c.head bdisk).length ≤ c.chain.length := by
  cases c with
  | waitDone b i0 i1 i2 =>
    simp only [head, chain]
    split_ifs <;> simp
  | _ => simp [head, chain]

theorem head_eq_nil (h : c.chain = []) : c.head bdisk = [] := by
  cases c <;> simp_all [head, chain]

theorem head_update_of_ne {b : Fin NBUF} {v : Bool} (h : c.buf ≠ some b) :
    c.head (Function.update bdisk b v) = c.head bdisk := by
  cases c with
  | waitDone b' i0 i1 i2 =>
    have hb : b' ≠ b := fun e => h (by rw [e]; rfl)
    simp [head, Function.update_of_ne hb]
  | _ => rfl

end VCall

namespace VirtioSys

/-- The descriptors of all submitted chains. -/
def chains (s : VirtioSys) : List (Fin NUM) := gather s.calls VCall.chain

/-- The heads of the requests the device has not yet given back. -/
def active (s : VirtioSys) : List ℕ := gather s.calls (VCall.head s.bdisk)

/-- The buffers of the calls in progress. -/
def bufs (s : VirtioSys) : List (Fin NBUF) := gather s.calls fun c => c.buf.toList

/-- The heads on the avail ring that the device has not taken. -/
def pendingAvail (s : VirtioSys) : List ℕ :=
  ringView s.disk.avail.ring s.lastAvail (ahead16 s.disk.avail.idx s.lastAvail)

/-- The heads on the used ring that the driver has not looked at. -/
def pendingUsed (s : VirtioSys) : List ℕ :=
  ringView s.disk.used.ring s.disk.usedIdx (ahead16 s.disk.used.idx s.disk.usedIdx)

/-- Descriptors are free or in one chain, chains are well formed, each buffer is in one call,
and every request whose buffer is with the device is once on the avail ring, with the device
or on the used ring, and finished there. -/
structure Inv (s : VirtioSys) : Prop where
  zero : ∀ i, s.disk.free i = true → s.disk.desc i = Desc.zero
  nodup : s.chains.Nodup
  used : ∀ i, s.disk.free i = false ↔ i ∈ s.chains
  chain : ∀ p b i0 i1 i2, s.calls p = .waitDone b i0 i1 i2 → Chain s.disk.desc b i0 i1 i2 ∧ (s.disk.info i0).b = some b
  bufs : s.bufs.Nodup
  transit : (s.pendingAvail ++ s.inflight ++ s.pendingUsed).Perm s.active
  done : ∀ i : Fin NUM, i.val ∈ s.pendingUsed → (s.disk.info i).status = 0
  avail_lt : s.disk.avail.idx < 2 ^ 16
  last_lt : s.lastAvail < 2 ^ 16
  used_lt : s.disk.used.idx < 2 ^ 16
  usedIdx_lt : s.disk.usedIdx < 2 ^ 16

variable {s : VirtioSys} {p : Fin NPROC} {b : Fin NBUF} {i0 i1 i2 : Fin NUM}

theorem mem_active {x : ℕ} :
    x ∈ s.active ↔ ∃ p b i0 i1 i2, s.calls p = .waitDone b i0 i1 i2 ∧ s.bdisk b = true ∧ x = i0.val := by
  rw [active, mem_gather]
  constructor
  · rintro ⟨p, hp⟩
    cases hc : s.calls p with
    | waitDone b i0 i1 i2 =>
      rw [hc, VCall.head] at hp
      split_ifs at hp with hb
      · exact ⟨p, b, i0, i1, i2, hc, hb, List.mem_singleton.mp hp⟩
      · cases hp
    | _ => simp [hc, VCall.head] at hp
  · rintro ⟨p, b, i0, i1, i2, hp, hb, rfl⟩
    exact ⟨p, by simp [hp, VCall.head, hb]⟩

theorem mem_chains (hp : s.calls p = .waitDone b i0 i1 i2) : i0 ∈ s.chains ∧ i1 ∈ s.chains ∧ i2 ∈ s.chains := by
  simp only [chains, mem_gather]
  exact ⟨⟨p, by simp [hp, VCall.chain]⟩, ⟨p, by simp [hp, VCall.chain]⟩, ⟨p, by simp [hp, VCall.chain]⟩⟩

namespace Inv

variable (hi : s.Inv)
include hi

theorem distinct (hp : s.calls p = .waitDone b i0 i1 i2) : i0 ≠ i1 ∧ i0 ≠ i2 ∧ i1 ≠ i2 := by
  have := (nodup_gather_iff.mp hi.nodup).1 p
  simp only [hp, VCall.chain, List.nodup_cons, List.mem_cons, List.not_mem_nil, or_false, List.nodup_nil] at this
  tauto

theorem disjoint {q : Fin NPROC} (hpq : p ≠ q) : (s.calls p).chain.Disjoint (s.calls q).chain :=
  (nodup_gather_iff.mp hi.nodup).2 p q hpq

theorem head_of_active {x : ℕ} (hx : x ∈ s.active) :
    ∃ p b i0 i1 i2, s.calls p = .waitDone b i0 i1 i2 ∧ s.bdisk b = true ∧ x = i0.val ∧
      Chain s.disk.desc b i0 i1 i2 ∧ (s.disk.info i0).b = some b := by
  obtain ⟨p, b, i0, i1, i2, hp, hb, rfl⟩ := mem_active.mp hx
  exact ⟨p, b, i0, i1, i2, hp, hb, rfl, hi.chain p b i0 i1 i2 hp⟩

/-- At most two chains of three fit in the `NUM` descriptors, so at most two requests are
anywhere on the rings. -/
theorem length_transit : (s.pendingAvail ++ s.inflight ++ s.pendingUsed).length ≤ 2 := by
  have h3 : 3 * s.active.length ≤ s.chains.length := length_gather_le fun _ => VCall.length_head_le
  have h8 : s.chains.length ≤ NUM := by simpa using hi.nodup.length_le_card
  have hN : NUM = 8 := rfl
  rw [hi.transit.length_eq]
  omega

theorem used_of_transit {i : Fin NUM} (h : i.val ∈ s.pendingAvail ++ s.inflight ++ s.pendingUsed) :
    s.disk.free i = false := by
  obtain ⟨p, b, j0, j1, j2, hp, -, hij, -⟩ := hi.head_of_active (hi.transit.subset h)
  rw [Fin.ext hij]
  exact (hi.used j0).mpr (mem_chains hp).1

end Inv

end VirtioSys

/-! ## Submitting a request -/

section Submit

variable {d : Disk} {b : Fin NBUF} {blockno : ℕ} {write : Bool} {i0 i1 i2 : Fin NUM}

@[simp] theorem formatChain_free : (formatChain d b blockno write i0 i1 i2).free = d.free := rfl
@[simp] theorem formatChain_avail : (formatChain d b blockno write i0 i1 i2).avail = d.avail := rfl
@[simp] theorem formatChain_used : (formatChain d b blockno write i0 i1 i2).used = d.used := rfl
@[simp] theorem formatChain_usedIdx : (formatChain d b blockno write i0 i1 i2).usedIdx = d.usedIdx := rfl
@[simp] theorem formatChain_info :
    (formatChain d b blockno write i0 i1 i2).info = Function.update d.info i0 { d.info i0 with status := 0xff } := rfl

theorem formatChain_desc :
    (formatChain d b blockno write i0 i1 i2).desc =
      Function.update (Function.update (Function.update d.desc i0 ⟨.op i0, 16, VRING_DESC_F_NEXT, i1⟩) i1
        ⟨.data b, BSIZE, (if write then 0 else VRING_DESC_F_WRITE) ||| VRING_DESC_F_NEXT, i2⟩) i2
        ⟨.status i0, 1, VRING_DESC_F_WRITE, 0⟩ := rfl

theorem formatChain_desc_of_ne {j : Fin NUM} (h0 : j ≠ i0) (h1 : j ≠ i1) (h2 : j ≠ i2) :
    (formatChain d b blockno write i0 i1 i2).desc j = d.desc j := by
  rw [formatChain_desc, Function.update_of_ne h2, Function.update_of_ne h1, Function.update_of_ne h0]

theorem formatChain_chain (h01 : i0 ≠ i1) (h02 : i0 ≠ i2) (h12 : i1 ≠ i2) :
    Chain (formatChain d b blockno write i0 i1 i2).desc b i0 i1 i2 := by
  rw [formatChain_desc]
  refine ⟨?_, ?_, Function.update_self _ _ _⟩
  · rw [Function.update_of_ne h02, Function.update_of_ne h01, Function.update_self]
  · rw [Function.update_of_ne h12, Function.update_self]
    refine ⟨rfl, ?_, rfl⟩
    show ((if write then 0 else VRING_DESC_F_WRITE) ||| VRING_DESC_F_NEXT) &&& VRING_DESC_F_NEXT ≠ 0
    cases write <;> decide

variable {s : VirtioSys} {p : Fin NPROC}

@[simp] theorem submit_calls :
    (submit s p b i0 i1 i2 d).calls = Function.update s.calls p (.waitDone b i0 i1 i2) := rfl
@[simp] theorem submit_bdisk : (submit s p b i0 i1 i2 d).bdisk = Function.update s.bdisk b true := rfl
@[simp] theorem submit_lastAvail : (submit s p b i0 i1 i2 d).lastAvail = s.lastAvail := rfl
@[simp] theorem submit_inflight : (submit s p b i0 i1 i2 d).inflight = s.inflight := rfl
@[simp] theorem submit_desc : (submit s p b i0 i1 i2 d).disk.desc = d.desc := rfl
@[simp] theorem submit_free : (submit s p b i0 i1 i2 d).disk.free = d.free := rfl
@[simp] theorem submit_used : (submit s p b i0 i1 i2 d).disk.used = d.used := rfl
@[simp] theorem submit_usedIdx : (submit s p b i0 i1 i2 d).disk.usedIdx = d.usedIdx := rfl
@[simp] theorem submit_info :
    (submit s p b i0 i1 i2 d).disk.info = Function.update d.info i0 { d.info i0 with b := some b } := rfl
@[simp] theorem submit_avail :
    (submit s p b i0 i1 i2 d).disk.avail =
      ⟨Function.update d.avail.ring (slot d.avail.idx) i0, (d.avail.idx + 1) % 2 ^ 16⟩ := rfl

theorem VirtioSys.active_submit (hp : (s.calls p).chain = []) (hb : ∀ q, q ≠ p → (s.calls q).buf ≠ some b) :
    (submit s p b i0 i1 i2 d).active.Perm (s.active ++ [i0.val]) := by
  have := perm_of_eq_off s.calls (submit s p b i0 i1 i2 d).calls (VCall.head s.bdisk)
    (VCall.head (Function.update s.bdisk b true)) p
    fun a ha => by rw [submit_calls, Function.update_of_ne ha, VCall.head_update_of_ne (hb a ha)]
  rwa [VCall.head_eq_nil hp, List.append_nil, submit_calls, Function.update_self, VCall.head,
    Function.update_self, if_pos rfl] at this

namespace VirtioSys.Inv

variable (hi : s.Inv)
include hi

theorem pendingAvail_submit (hd : d.avail = s.disk.avail) :
    (submit s p b i0 i1 i2 d).pendingAvail = s.pendingAvail ++ [i0.val] := by
  have hk : ahead16 s.disk.avail.idx s.lastAvail ≤ 2 := by
    have := hi.length_transit
    simp only [List.length_append, pendingAvail, length_ringView] at this
    omega
  simp only [pendingAvail, submit_avail, submit_lastAvail, hd]
  exact ringView_push_ahead _ _ hi.avail_lt hi.last_lt (by unfold NUM; omega)

theorem bufs_update {c : VCall} (hb : ∀ q, q ≠ p → (s.calls q).buf ≠ some b) (hc : c.buf = some b) :
    (gather (Function.update s.calls p c) fun c => c.buf.toList).Nodup := by
  refine nodup_gather_update hi.bufs (by simp [hc]) fun a ha x hx hx' => hb a ha ?_
  simp only [hc, Option.toList_some, List.mem_singleton] at hx
  simpa [hx] using hx'

/-- Submitting a chain of three distinct free descriptors, for a call that holds none, for a
buffer no other call has, keeps the invariant. -/
theorem submit (blockno : ℕ) (write : Bool) (hp : (s.calls p).chain = []) (hb : ∀ q, q ≠ p → (s.calls q).buf ≠ some b)
    (h01 : i0 ≠ i1) (h02 : i0 ≠ i2) (h12 : i1 ≠ i2)
    (hf0 : s.disk.free i0 = true) (hf1 : s.disk.free i1 = true) (hf2 : s.disk.free i2 = true) :
    (submit s p b i0 i1 i2 (formatChain { s.disk with
      free := Function.update (Function.update (Function.update s.disk.free i0 false) i1 false) i2 false }
        b blockno write i0 i1 i2)).Inv := by
  set D : Disk := { s.disk with
    free := Function.update (Function.update (Function.update s.disk.free i0 false) i1 false) i2 false } with hD
  -- the three descriptors were in no chain
  have hfresh : ∀ j ∈ [i0, i1, i2], j ∉ s.chains := by
    simp only [List.mem_cons, List.not_mem_nil, or_false]
    rintro j (rfl | rfl | rfl) <;> simp [← hi.used, *]
  have hchains : (gather (Function.update s.calls p (.waitDone b i0 i1 i2)) VCall.chain).Perm
      (s.chains ++ [i0, i1, i2]) := by
    have := perm_update s.calls VCall.chain p (.waitDone b i0 i1 i2)
    rwa [hp, List.append_nil] at this
  constructor
  case zero =>
    intro j hj
    simp only [submit_free, formatChain_free, hD, Function.update_apply] at hj
    split_ifs at hj with h2 h1 h0
    rw [submit_desc, formatChain_desc_of_ne h0 h1 h2]
    exact hi.zero j hj
  case nodup =>
    refine nodup_gather_update hi.nodup (by simp [VCall.chain, h01, h02, h12]) fun a _ x hx hx' => hfresh x hx ?_
    exact mem_gather.mpr ⟨a, hx'⟩
  case used =>
    intro j
    rw [chains, submit_calls, hchains.mem_iff, List.mem_append, ← hi.used]
    simp only [submit_free, formatChain_free, hD, Function.update_apply, List.mem_cons, List.not_mem_nil, or_false]
    split_ifs <;> simp_all
  case chain =>
    intro q b' j0 j1 j2 hq
    by_cases hqp : q = p
    · subst hqp
      simp only [submit_calls, Function.update_self, VCall.waitDone.injEq] at hq
      obtain ⟨rfl, rfl, rfl, rfl⟩ := hq
      exact ⟨formatChain_chain h01 h02 h12, by simp⟩
    · rw [submit_calls, Function.update_of_ne hqp] at hq
      obtain ⟨hc, hinfo⟩ := hi.chain q b' j0 j1 j2 hq
      obtain ⟨m0, m1, m2⟩ := mem_chains hq
      have hne : ∀ j ∈ s.chains, j ≠ i0 ∧ j ≠ i1 ∧ j ≠ i2 := fun j hj =>
        ⟨fun e => hfresh j (by simp [e]) hj, fun e => hfresh j (by simp [e]) hj, fun e => hfresh j (by simp [e]) hj⟩
      obtain ⟨n00, n01, n02⟩ := hne j0 m0
      obtain ⟨n10, n11, n12⟩ := hne j1 m1
      obtain ⟨n20, n21, n22⟩ := hne j2 m2
      refine ⟨hc.congr ?_ ?_ ?_, ?_⟩
      · exact formatChain_desc_of_ne n00 n01 n02
      · exact formatChain_desc_of_ne n10 n11 n12
      · exact formatChain_desc_of_ne n20 n21 n22
      · simpa [Function.update_of_ne n00] using hinfo
  case bufs => exact hi.bufs_update hb rfl
  case transit =>
    rw [pendingAvail_submit hi (d := formatChain D b blockno write i0 i1 i2) rfl]
    calc (s.pendingAvail ++ [i0.val] ++ s.inflight ++ s.pendingUsed).Perm
          (s.pendingAvail ++ s.inflight ++ s.pendingUsed ++ [i0.val]) := by
          have := (List.perm_append_singleton i0.val (s.inflight ++ s.pendingUsed)).symm.append_left s.pendingAvail
          simpa only [List.append_assoc, List.singleton_append, List.cons_append, List.nil_append] using this
      _ = _ := rfl
      List.Perm _ (s.active ++ [i0.val]) := hi.transit.append_right _
      List.Perm _ _ := (VirtioSys.active_submit hp hb).symm
  case done =>
    intro j hj
    have hj0 : j ≠ i0 := fun e => by
      have := hi.used_of_transit (List.mem_append_right _ hj)
      simp_all
    simpa [Function.update_of_ne hj0] using hi.done j hj
  case avail_lt => exact Nat.mod_lt _ (by norm_num)
  case last_lt => exact hi.last_lt
  case used_lt => exact hi.used_lt
  case usedIdx_lt => exact hi.usedIdx_lt

theorem waitDesc (blockno : ℕ) (write : Bool) (hp : (s.calls p).chain = [])
    (hb : ∀ q, q ≠ p → (s.calls q).buf ≠ some b) :
    ({ s with calls := Function.update s.calls p (.waitDesc b blockno write) } : VirtioSys).Inv := by
  have hchains : (gather (Function.update s.calls p (.waitDesc b blockno write)) VCall.chain).Perm s.chains := by
    have := perm_update s.calls VCall.chain p (.waitDesc b blockno write)
    rw [hp, List.append_nil] at this
    simpa only [VCall.chain, List.append_nil, chains] using this
  have hactive : (gather (Function.update s.calls p (.waitDesc b blockno write)) (VCall.head s.bdisk)).Perm
      s.active := by
    have := perm_update s.calls (VCall.head s.bdisk) p (.waitDesc b blockno write)
    rw [VCall.head_eq_nil hp, List.append_nil] at this
    simpa only [VCall.head, List.append_nil, active] using this
  refine ⟨hi.zero, hchains.nodup_iff.mpr hi.nodup, fun i => (hi.used i).trans hchains.mem_iff.symm,
    fun q b' j0 j1 j2 hq => hi.chain q b' j0 j1 j2 ?_, ?_, hi.transit.trans hactive.symm, hi.done,
    hi.avail_lt, hi.last_lt, hi.used_lt, hi.usedIdx_lt⟩
  · by_cases hqp : q = p
    · subst hqp
      simp at hq
    · simpa [Function.update_of_ne hqp] using hq
  · exact hi.bufs_update hb rfl

/-- `virtio_disk_rw` up to its sleep, for a call that holds no chain and a buffer no other
call has, keeps the invariant and does not panic. -/
theorem rwAlloc {blockno : ℕ} {write : Bool} (hp : (s.calls p).chain = [])
    (hb : ∀ q, q ≠ p → (s.calls q).buf ≠ some b) :
    ∃ s', Xv6.rwAlloc s p b blockno write = .ok s' ∧ s'.Inv := by
  rcases Disk.alloc3Desc_cases hi.zero with h | ⟨i0, i1, i2, h01, h02, h12, hf0, hf1, hf2, h⟩
  · exact ⟨_, by simp [Xv6.rwAlloc, h], hi.waitDesc blockno write hp hb⟩
  · exact ⟨_, by simp [Xv6.rwAlloc, h],
      hi.submit blockno write hp hb h01 h02 h12 hf0 hf1 hf2⟩

end VirtioSys.Inv

end Submit

/-! ## Finishing a request -/

namespace VirtioSys.Inv

variable {s : VirtioSys} {p : Fin NPROC} {b : Fin NBUF} {i0 i1 i2 : Fin NUM} (hi : s.Inv)
include hi

/-- The end of `virtio_disk_rw`, once the interrupt handler has cleared `b->disk`, frees the
call's chain, keeps the invariant and does not panic. -/
theorem rwFinish (hp : s.calls p = .waitDone b i0 i1 i2) (hb : s.bdisk b = false) :
    ∃ s', Xv6.rwFinish s p i0 = .ok s' ∧ s'.Inv := by
  obtain ⟨h01, h02, h12⟩ := hi.distinct hp
  obtain ⟨m0, m1, m2⟩ := mem_chains hp
  have hfree := Chain.freeChain_eq
    (d := { s.disk with info := (Function.update s.disk.info i0 { s.disk.info i0 with b := none }) })
    (hi.chain p b i0 i1 i2 hp).1 h01 h02 h12
    ((hi.used i0).mpr m0) ((hi.used i1).mpr m1) ((hi.used i2).mpr m2)
  refine ⟨_, by simp only [Xv6.rwFinish, hfree, Except.ok_bind]; rfl, ?_⟩
  have hchains : (gather (Function.update s.calls p .idle) VCall.chain ++ [i0, i1, i2]).Perm s.chains := by
    have := perm_update s.calls VCall.chain p .idle
    rw [hp] at this
    simpa only [VCall.chain, List.append_nil, chains] using this
  have hnodup := hchains.nodup_iff.mpr hi.nodup
  have hactive : (gather (Function.update s.calls p .idle) (VCall.head s.bdisk)).Perm s.active := by
    have := perm_update s.calls (VCall.head s.bdisk) p .idle
    rw [hp] at this
    simpa only [VCall.head, hb, List.append_nil, active, Bool.false_eq_true, if_false] using this
  constructor
  case zero =>
    intro j hj
    simp only [Function.update_apply] at hj ⊢
    split_ifs at hj ⊢ <;> first | rfl | exact hi.zero j hj
  case nodup => exact hnodup.of_append_left
  case used =>
    intro j
    by_cases hj : j = i0 ∨ j = i1 ∨ j = i2
    · have hf : Function.update (Function.update (Function.update s.disk.free i0 true) i1 true) i2 true j = true := by
        rcases hj with rfl | rfl | rfl <;> simp [Function.update_apply]
      have hn : j ∉ gather (Function.update s.calls p .idle) VCall.chain := fun h =>
        List.disjoint_of_nodup_append hnodup h (by simpa using hj)
      simp only [hf, Bool.true_eq_false, false_iff]
      exact hn
    · simp only [not_or] at hj
      obtain ⟨n0, n1, n2⟩ := hj
      have := (hi.used j).trans hchains.mem_iff.symm
      simpa [Function.update_of_ne n0, Function.update_of_ne n1, Function.update_of_ne n2, n0, n1, n2, chains] using this
  case chain =>
    intro q b' j0 j1 j2 hq
    have hqp : q ≠ p := fun e => by subst e; simp at hq
    simp only [Function.update_of_ne hqp] at hq
    obtain ⟨hc, hinfo⟩ := hi.chain q b' j0 j1 j2 hq
    have hoff : ∀ j ∈ (s.calls q).chain, j ≠ i0 ∧ j ≠ i1 ∧ j ≠ i2 := fun j hj => by
      have := hi.disjoint hqp hj
      simp only [hp, VCall.chain, List.mem_cons, List.not_mem_nil, or_false] at this
      tauto
    obtain ⟨n00, n01, n02⟩ := hoff j0 (by simp [hq, VCall.chain])
    obtain ⟨n10, n11, n12⟩ := hoff j1 (by simp [hq, VCall.chain])
    obtain ⟨n20, n21, n22⟩ := hoff j2 (by simp [hq, VCall.chain])
    refine ⟨hc.congr ?_ ?_ ?_, ?_⟩
    · simp [Function.update_of_ne, n00, n01, n02]
    · simp [Function.update_of_ne, n10, n11, n12]
    · simp [Function.update_of_ne, n20, n21, n22]
    · simpa [Function.update_of_ne n00] using hinfo
  case bufs => exact nodup_gather_update hi.bufs (by simp [VCall.buf]) fun a _ x hx => by simp [VCall.buf] at hx
  case transit => exact hi.transit.trans hactive.symm
  case done =>
    intro j hj
    by_cases hj0 : j = i0
    · subst hj0
      simpa using hi.done j hj
    · simpa [Function.update_of_ne hj0] using hi.done j hj
  case avail_lt => exact hi.avail_lt
  case last_lt => exact hi.last_lt
  case used_lt => exact hi.used_lt
  case usedIdx_lt => exact hi.usedIdx_lt

/-! ## The device -/

theorem fetch (h : s.lastAvail ≠ s.disk.avail.idx) :
    ({ s with inflight := s.inflight ++ [s.disk.avail.ring (slot s.lastAvail)],
              lastAvail := (s.lastAvail + 1) % 2 ^ 16 } : VirtioSys).Inv := by
  have hpop := ringView_pop_ahead s.disk.avail.ring hi.avail_lt hi.last_lt (Ne.symm h)
  refine ⟨hi.zero, hi.nodup, hi.used, hi.chain, hi.bufs, ?_, hi.done, hi.avail_lt, Nat.mod_lt _ (by norm_num),
    hi.used_lt, hi.usedIdx_lt⟩
  have := hi.transit
  simp only [pendingAvail, hpop] at this
  refine List.Perm.trans ?_ this
  -- the head moves from the front of the avail ring to the end of the device's list
  have hmid : (ringView s.disk.avail.ring ((s.lastAvail + 1) % 2 ^ 16)
      (ahead16 s.disk.avail.idx ((s.lastAvail + 1) % 2 ^ 16)) ++ s.inflight ++
        s.disk.avail.ring (slot s.lastAvail) :: s.pendingUsed).Perm
      (s.disk.avail.ring (slot s.lastAvail) :: (ringView s.disk.avail.ring ((s.lastAvail + 1) % 2 ^ 16)
        (ahead16 s.disk.avail.idx ((s.lastAvail + 1) % 2 ^ 16)) ++ s.inflight ++ s.pendingUsed)) :=
    List.perm_middle
  simpa only [pendingAvail, pendingUsed, List.cons_append, List.append_assoc, List.nil_append] using hmid

/-- The device finishing a request it holds finds the status byte of the request's chain,
keeps the invariant and puts the head on the used ring. -/
theorem complete {h : ℕ} (hh : h ∈ s.inflight) :
    ∃ s', deviceComplete s h = .ok s' ∧ s'.Inv ∧ s'.pendingUsed = s.pendingUsed ++ [h] := by
  obtain ⟨q, b, j0, j1, j2, -, -, rfl, hc, -⟩ := hi.head_of_active (x := h) (hi.transit.subset (by simp [hh]))
  have hk : ahead16 s.disk.used.idx s.disk.usedIdx < NUM := by
    have := hi.length_transit
    simp only [List.length_append, pendingUsed, length_ringView] at this
    unfold NUM
    omega
  refine ⟨_, by simp only [deviceComplete, hc.deviceStatus_eq]; rfl, ?_⟩
  have hpush := ringView_push_ahead s.disk.used.ring j0.val hi.used_lt hi.usedIdx_lt hk
  refine ⟨⟨hi.zero, hi.nodup, hi.used, fun q' b' k0 k1 k2 hq' => ?_, hi.bufs, ?_, fun i hi' => ?_,
    hi.avail_lt, hi.last_lt, Nat.mod_lt _ (by norm_num), hi.usedIdx_lt⟩, hpush⟩
  · obtain ⟨hc', hinfo⟩ := hi.chain q' b' k0 k1 k2 hq'
    refine ⟨hc', ?_⟩
    by_cases hk0 : k0 = j0
    · subst hk0
      simpa using hinfo
    · simpa [Function.update_of_ne hk0] using hinfo
  · -- the head leaves the device's list for the end of the used ring
    have hmove : (s.inflight.erase j0 ++ (s.pendingUsed ++ [j0.val])).Perm (s.inflight ++ s.pendingUsed) := by
      calc (s.inflight.erase j0 ++ (s.pendingUsed ++ [j0.val])).Perm (j0.val :: (s.inflight.erase j0 ++ s.pendingUsed)) := by
            rw [← List.append_assoc]
            exact List.perm_append_singleton _ _
        _ = (j0.val :: s.inflight.erase j0) ++ s.pendingUsed := rfl
        List.Perm _ (s.inflight ++ s.pendingUsed) := (List.perm_cons_erase hh).symm.append_right _
    have ht : (s.pendingAvail ++ (s.inflight ++ s.pendingUsed)).Perm s.active := by
      simpa only [List.append_assoc] using hi.transit
    have := (hmove.append_left s.pendingAvail).trans ht
    simpa only [pendingAvail, pendingUsed, active, hpush, List.append_assoc] using this
  · by_cases hij : i = j0
    · subst hij
      simp
    · have hold : i.val ∈ s.pendingUsed := by
        have : i.val ∈ s.pendingUsed ++ [j0.val] := by simpa only [pendingUsed, hpush] using hi'
        simpa [Fin.val_ne_of_ne hij] using this
      simpa [Function.update_of_ne hij] using hi.done i hold

theorem buf_unique {q a : Fin NPROC} (hq : (s.calls q).buf = some b) (ha : (s.calls a).buf = some b) : a = q :=
  owner_unique (g := s.calls) (F := fun c : VCall => c.buf.toList) (x := b) hi.bufs (by simp [ha]) (by simp [hq])

end VirtioSys.Inv

/-! ## The interrupt handler -/

/-- The state after a round of `virtio_disk_intr` that releases buffer `b`. -/
def VirtioSys.retire (s : VirtioSys) (b : Fin NBUF) : VirtioSys :=
  { s with bdisk := Function.update s.bdisk b false, disk := { s.disk with usedIdx := (s.disk.usedIdx + 1) % 2 ^ 16 } }

namespace VirtioSys.Inv

variable {s : VirtioSys} (hi : s.Inv)
include hi

/-- A round of `virtio_disk_intr` with an entry on the used ring: the entry is the head of the
chain of a call whose buffer is with the device, that request is finished, and the round
clears the buffer's `b->disk` and keeps the invariant. -/
theorem retire (hne : s.disk.usedIdx ≠ s.disk.used.idx) (n : ℕ) :
    ∃ q b j0 j1 j2, s.calls q = .waitDone b j0 j1 j2 ∧ s.bdisk b = true ∧
      s.pendingUsed = j0.val :: (s.retire b).pendingUsed ∧ intrLoop (n + 1) s = intrLoop n (s.retire b) ∧
      (s.retire b).Inv := by
  have hpop := ringView_pop_ahead s.disk.used.ring hi.used_lt hi.usedIdx_lt (Ne.symm hne)
  have hx : s.disk.used.ring (slot s.disk.usedIdx) ∈ s.pendingUsed := by
    simp only [pendingUsed, hpop, List.mem_cons, true_or]
  obtain ⟨q, b, j0, j1, j2, hq, hb, hid, -, hinfo⟩ :=
    hi.head_of_active (x := s.disk.used.ring (slot s.disk.usedIdx)) (hi.transit.subset (by simp [hx]))
  have hst : (s.disk.info j0).status = 0 := hi.done j0 (hid ▸ hx)
  have hpu : s.pendingUsed = j0.val :: (s.retire b).pendingUsed := by
    rw [← hid]
    exact hpop
  refine ⟨q, b, j0, j1, j2, hq, hb, hpu, ?_, ?_⟩
  · have hj : (⟨s.disk.used.ring (slot s.disk.usedIdx), hid ▸ j0.isLt⟩ : Fin NUM) = j0 := Fin.ext hid
    rw [intrLoop, if_neg hne, dif_pos (hid ▸ j0.isLt), hj, if_neg (by simp [hst]), hinfo]
    rfl
  -- the call's head leaves the requests with the device as it leaves the used ring
  have hactive : ((s.retire b).active ++ [j0.val]).Perm s.active := by
    have := perm_of_eq_off s.calls (s.retire b).calls (VCall.head s.bdisk) (VCall.head (s.retire b).bdisk) q
      fun a ha => VCall.head_update_of_ne fun hab =>
        ha (hi.buf_unique (by rw [hq]; rfl) hab)
    simpa [VirtioSys.retire, hq, VCall.head, hb, active] using this
  have htransit : (s.pendingAvail ++ s.inflight ++ (s.retire b).pendingUsed ++ [j0.val]).Perm
      ((s.retire b).active ++ [j0.val]) := by
    refine List.Perm.trans ?_ (hi.transit.trans hactive.symm)
    rw [hpu]
    simp only [List.append_assoc]
    exact ((List.perm_append_singleton _ _).append_left _).append_left _
  refine ⟨hi.zero, hi.nodup, hi.used, hi.chain, hi.bufs, List.perm_append_right_iff _ |>.mp htransit,
    fun i hi' => hi.done i ?_, hi.avail_lt, hi.last_lt, hi.used_lt, Nat.mod_lt _ (by norm_num)⟩
  rw [hpu]
  exact List.mem_cons_of_mem _ hi'

end VirtioSys.Inv

/-- The whole loop of `virtio_disk_intr`, by induction on the entries left on the used ring,
each round being `Inv.retire`: it does not panic, keeps the invariant and the calls, and clears
`b->disk` only for the buffer of a call whose head was on the used ring. -/
theorem intrLoop_inv : ∀ (n : ℕ) {s : VirtioSys}, s.Inv → ahead16 s.disk.used.idx s.disk.usedIdx = n →
    ∃ s', intrLoop n s = .ok s' ∧ s'.Inv ∧ s'.calls = s.calls ∧
      ∀ b, s.bdisk b = true → s'.bdisk b = false →
        ∃ q j0 j1 j2, s.calls q = .waitDone b j0 j1 j2 ∧ j0.val ∈ s.pendingUsed
  | 0, s, hi, _ => ⟨s, rfl, hi, rfl, fun b h1 h2 => by simp [h1] at h2⟩
  | n + 1, s, hi, hn => by
    have hne : s.disk.usedIdx ≠ s.disk.used.idx := fun e => by
      rw [e, (ahead16_eq_zero_iff hi.used_lt hi.used_lt).mpr rfl] at hn
      cases hn
    obtain ⟨q, b₁, j0, j1, j2, hq, -, hpu, hloop, hi₁⟩ := hi.retire hne n
    have hn₁ : ahead16 (s.retire b₁).disk.used.idx (s.retire b₁).disk.usedIdx = n := by
      simp only [VirtioSys.retire]
      rw [ahead16_succ_right hi.used_lt hi.usedIdx_lt (Ne.symm hne), hn, Nat.add_sub_cancel]
    obtain ⟨s', hs', hi', hcalls, hclear⟩ := intrLoop_inv n hi₁ hn₁
    refine ⟨s', hloop.trans hs', hi', hcalls, fun b h1 h2 => ?_⟩
    by_cases hb : b = b₁
    · -- released by this round
      subst hb
      exact ⟨q, j0, j1, j2, hq, by simp [hpu]⟩
    · -- released by a later round, from an entry further on the used ring
      obtain ⟨q', k0, k1, k2, hq', hk⟩ := hclear b (by simpa [VirtioSys.retire, hb] using h1) h2
      exact ⟨q', k0, k1, k2, hq', by rw [hpu]; exact List.mem_cons_of_mem _ hk⟩

/-! ## Steps -/

section Steps

variable {s s' : VirtioSys} {p : Fin NPROC} {b b' : Fin NBUF}

theorem rwAlloc_bdisk {blockno : ℕ} {write : Bool} (h : rwAlloc s p b blockno write = .ok s')
    (hb : s.bdisk b' = true) : s'.bdisk b' = true := by
  obtain ⟨⟨o, d⟩, -, h⟩ := Except.bind_eq_ok.mp h
  rcases o with _ | ⟨i0, i1, i2⟩ <;> cases h
  · exact hb
  · by_cases hbb : b' = b
    · subst hbb
      simp
    · simpa [Function.update_of_ne hbb] using hb

theorem rwFinish_bdisk {i0 : Fin NUM} (h : rwFinish s p i0 = .ok s') : s'.bdisk = s.bdisk := by
  obtain ⟨d, -, h⟩ := Except.bind_eq_ok.mp h
  cases h
  rfl

theorem deviceComplete_bdisk {x : ℕ} (h : deviceComplete s x = .ok s') : s'.bdisk = s.bdisk := by
  unfold deviceComplete at h
  split at h
  · cases h
  · cases h
    rfl

end Steps

namespace VirtioSys.Inv

variable {s : VirtioSys} (hi : s.Inv)
include hi

/-- No event panics, and every event keeps the invariant. -/
theorem step {e : VirtioEvent} {r : Except String VirtioSys} (h : virtioStep s e = some r) :
    ∃ s', r = .ok s' ∧ s'.Inv := by
  cases e with
  | rw p b blockno write =>
    simp only [virtioStep] at h
    split_ifs at h with hg
    cases h
    exact hi.rwAlloc (by rw [hg.1]; rfl) fun q _ => hg.2 q
  | retry p =>
    simp only [virtioStep] at h
    split at h
    case h_1 b blockno write hp =>
      cases h
      exact hi.rwAlloc (by rw [hp]; rfl) fun q hq hqb => hq (hi.buf_unique (by rw [hp]; rfl) hqb)
    case h_2 => cases h
  | finish p =>
    simp only [virtioStep] at h
    split at h
    case h_1 b i0 i1 i2 hp =>
      split_ifs at h with hb
      cases h
      exact hi.rwFinish hp hb
    case h_2 => cases h
  | fetch =>
    simp only [virtioStep] at h
    split_ifs at h with hl
    cases h
    exact ⟨_, rfl, hi.fetch hl⟩
  | complete x =>
    simp only [virtioStep] at h
    split_ifs at h with hx
    cases h
    obtain ⟨s', hs', hi', -⟩ := hi.complete hx
    exact ⟨s', hs', hi'⟩
  | intr =>
    simp only [virtioStep, Option.some.injEq] at h
    subst h
    obtain ⟨s', hs', hi', -⟩ := intrLoop_inv _ hi rfl
    exact ⟨s', hs', hi'⟩

/-- Only the interrupt handler clears `b->disk`, and only for the buffer of a call whose
chain's head is on the used ring. -/
theorem bdisk_cleared {e : VirtioEvent} {s' : VirtioSys} {b : Fin NBUF} (h : virtioNext s e = some s')
    (h1 : s.bdisk b = true) (h2 : s'.bdisk b = false) :
    e = .intr ∧ ∃ p i0 i1 i2, s.calls p = .waitDone b i0 i1 i2 ∧ i0.val ∈ s.pendingUsed := by
  unfold virtioNext at h
  split at h
  case h_2 => cases h
  case h_1 r hr =>
  cases h
  cases e with
  | rw p b' blockno write =>
    simp only [virtioStep] at hr
    split_ifs at hr
    simp only [Option.some.injEq] at hr
    simp [rwAlloc_bdisk hr h1] at h2
  | retry p =>
    simp only [virtioStep] at hr
    split at hr
    · simp only [Option.some.injEq] at hr
      simp [rwAlloc_bdisk hr h1] at h2
    · cases hr
  | finish p =>
    simp only [virtioStep] at hr
    split at hr
    · split_ifs at hr
      simp only [Option.some.injEq] at hr
      simp [rwFinish_bdisk hr, h1] at h2
    · cases hr
  | fetch =>
    simp only [virtioStep] at hr
    split_ifs at hr
    cases hr
    simp [h1] at h2
  | complete x =>
    simp only [virtioStep] at hr
    split_ifs at hr
    simp only [Option.some.injEq] at hr
    simp [deviceComplete_bdisk hr, h1] at h2
  | intr =>
    simp only [virtioStep, Option.some.injEq] at hr
    obtain ⟨s'', hs'', -, -, hclear⟩ := intrLoop_inv _ hi rfl
    rw [virtioDiskIntr, hs'', Except.ok.injEq] at hr
    subst hr
    exact ⟨rfl, hclear b h1 h2⟩

end VirtioSys.Inv

theorem virtioInit_inv : virtioInit.Inv where
  zero _ _ := rfl
  nodup := by rw [VirtioSys.chains, gather_eq_nil fun _ => rfl]; exact List.nodup_nil
  used i := by
    rw [VirtioSys.chains, gather_eq_nil fun _ => rfl]
    simp [virtioInit]
  chain _ _ _ _ _ h := by cases h
  bufs := by rw [VirtioSys.bufs, gather_eq_nil fun _ => rfl]; exact List.nodup_nil
  transit := by rw [VirtioSys.active, gather_eq_nil fun _ => rfl]; rfl
  done _ h := by simp [VirtioSys.pendingUsed, virtioInit, ahead16] at h
  avail_lt := by decide
  last_lt := by decide
  used_lt := by decide
  usedIdx_lt := by decide

theorem reachable_inv {s : VirtioSys} (hs : Run.Reachable virtioNext virtioInit s) : s.Inv :=
  Run.Reachable.induction virtioInit_inv (fun s s' e hi h => by
    unfold virtioNext at h
    split at h
    · cases h
      obtain ⟨t, ht, hit⟩ := hi.step ‹_›
      cases ht
      exact hit
    · cases h) hs

/-! ## Descriptor accounting -/

/-- In every state the driver and the device reach: a descriptor is free exactly when no call
holds it, and one in use is in the chain of exactly one call; each call's chain is three
distinct descriptors linked to the status byte of its head, with the call's buffer recorded
at the head, and `free_chain` of the head frees exactly those three; `alloc3_desc` takes
three distinct free descriptors or leaves the disk as it was; the heads read off the avail
ring, held by the device and read off the used ring through the wrapping 16-bit indices
are, each once, the heads of the calls whose buffer is with the device; no event panics;
and `b->disk` is cleared only by the interrupt handler, for a buffer whose call's head is on
the used ring. -/
theorem virtio_descriptor_accounting {s : VirtioSys} (hs : Run.Reachable virtioNext virtioInit s) :
    (∀ i, (s.disk.free i = true ↔ ∀ p, i ∉ (s.calls p).chain) ∧
        (s.disk.free i = false → ∃! p, i ∈ (s.calls p).chain)) ∧
    (∀ p b i0 i1 i2, s.calls p = .waitDone b i0 i1 i2 →
        i0 ≠ i1 ∧ i0 ≠ i2 ∧ i1 ≠ i2 ∧ Chain s.disk.desc b i0 i1 i2 ∧ (s.disk.info i0).b = some b ∧
        freeChain s.disk i0 = .ok { s.disk with
          desc := Function.update (Function.update (Function.update s.disk.desc i0 Desc.zero) i1 Desc.zero) i2 Desc.zero,
          free := Function.update (Function.update (Function.update s.disk.free i0 true) i1 true) i2 true }) ∧
    (alloc3Desc s.disk = .ok (none, s.disk) ∨
      ∃ i0 i1 i2, i0 ≠ i1 ∧ i0 ≠ i2 ∧ i1 ≠ i2 ∧ s.disk.free i0 = true ∧ s.disk.free i1 = true ∧
        s.disk.free i2 = true ∧ alloc3Desc s.disk = .ok (some (i0, i1, i2),
          { s.disk with free := Function.update (Function.update (Function.update s.disk.free i0 false) i1 false) i2 false })) ∧
    (s.pendingAvail ++ s.inflight ++ s.pendingUsed).Perm s.active ∧
    (∀ e r, virtioStep s e = some r → ∃ s', r = .ok s') ∧
    (∀ e s' b, virtioNext s e = some s' → s.bdisk b = true → s'.bdisk b = false →
        e = .intr ∧ ∃ p i0 i1 i2, s.calls p = .waitDone b i0 i1 i2 ∧ i0.val ∈ s.pendingUsed) := by
  have hi := reachable_inv hs
  refine ⟨fun i => ⟨?_, fun hf => ?_⟩, fun p b i0 i1 i2 hp => ?_, Disk.alloc3Desc_cases hi.zero, hi.transit,
    fun e r h => ?_, fun e s' b h h1 h2 => hi.bdisk_cleared h h1 h2⟩
  · have := (hi.used i).not
    simp only [Bool.not_eq_false, VirtioSys.chains, mem_gather, not_exists] at this
    exact this
  · obtain ⟨p, hp⟩ := mem_gather.mp ((hi.used i).mp hf)
    exact ⟨p, hp, fun q hq => owner_unique hi.nodup hq hp⟩
  · obtain ⟨h01, h02, h12⟩ := hi.distinct hp
    obtain ⟨hc, hinfo⟩ := hi.chain p b i0 i1 i2 hp
    obtain ⟨m0, m1, m2⟩ := VirtioSys.mem_chains hp
    exact ⟨h01, h02, h12, hc, hinfo,
      hc.freeChain_eq h01 h02 h12 ((hi.used i0).mpr m0) ((hi.used i1).mpr m1) ((hi.used i2).mpr m2)⟩
  · obtain ⟨s', hs', -⟩ := hi.step h
    exact ⟨s', hs'⟩

/-- Three calls for three buffers: the third finds two free descriptors, gives them back and
sleeps; the device finishes the second request first; once its call has freed the chain, the
third call takes the same three descriptors. -/
def busyRun : List VirtioEvent :=
  [.rw 0 ⟨0, by decide⟩ 10 false, .rw 1 ⟨1, by decide⟩ 11 true, .rw 2 ⟨2, by decide⟩ 12 false,
   .fetch, .fetch, .complete 3, .intr, .finish 1, .retry 2]

theorem virtio_descriptor_accounting_busy :
    ∃ s, Run.run virtioNext virtioInit busyRun = some s ∧ s.calls 2 = .waitDone ⟨2, by decide⟩ 3 4 5 ∧
      (∀ e r, virtioStep s e = some r → ∃ s', r = .ok s') := by
  obtain ⟨s, hs⟩ : ∃ s, Run.run virtioNext virtioInit busyRun = some s :=
    Option.isSome_iff_exists.mp (by decide)
  have hcall : (Run.run virtioNext virtioInit busyRun).map (fun s => decide (s.calls 2 = .waitDone ⟨2, by decide⟩ 3 4 5)) =
      some true := by decide
  rw [hs, Option.map_some, Option.some.injEq, decide_eq_true_iff] at hcall
  exact ⟨s, hs, hcall, (virtio_descriptor_accounting (Run.reachable_of_run hs)).2.2.2.2.1⟩

end Xv6
