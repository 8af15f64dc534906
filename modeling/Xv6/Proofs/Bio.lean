import Xv6.Spec.Bio
import Xv6.Lib.Run
import Xv6.Lib.Except

/-! The buffer cache. In every state the calls reach from `binit`, the links form one ring
through all `NBUF` buffers; no buffer carries the block of a buffer that `bget` has given
a block; and `refcnt` counts the holders and the pins. The ring is ordered by when each
buffer was last put at the front, so `bget` recycles, among the buffers with `refcnt = 0`,
the one put at the front longest ago. That need not be the one released longest ago:
`brelse` moves a buffer only when its count drops to 0, and `bunpin`, which may bring the
count to 0, does not move it. -/

namespace Xv6

open DList

namespace Bcache

variable (c : Bcache) (b : Fin NBUF) (x : Buf)

@[simp] theorem setBuf_buf_self : (c.setBuf b x).buf b = x := by simp [setBuf]

theorem setBuf_buf_of_ne {b' : Fin NBUF} (h : b' ≠ b) : (c.setBuf b x).buf b' = c.buf b' := by
  simp [setBuf, Function.update_of_ne h]

@[simp] theorem setBuf_links : (c.setBuf b x).links = c.links := rfl
@[simp] theorem setBuf_holds : (c.setBuf b x).holds = c.holds := rfl
@[simp] theorem setBuf_pins : (c.setBuf b x).pins = c.pins := rfl
@[simp] theorem setBuf_assigned : (c.setBuf b x).assigned = c.assigned := rfl
@[simp] theorem setBuf_moved : (c.setBuf b x).moved = c.moved := rfl
@[simp] theorem setBuf_clock : (c.setBuf b x).clock = c.clock := rfl

end Bcache

/-! ## The invariant -/

/-- No buffer carries the block of a buffer that `bget` has handed out. -/
def OneBlock (buf : Fin NBUF → Buf) (assigned : Fin NBUF → Bool) : Prop :=
  ∀ b₁ b₂, assigned b₁ = true → (buf b₁).dev = (buf b₂).dev → (buf b₁).blockno = (buf b₂).blockno → b₁ = b₂

theorem OneBlock.of_keys {buf buf' : Fin NBUF → Buf} {assigned : Fin NBUF → Bool} (h : OneBlock buf assigned)
    (hk : ∀ b', (buf' b').dev = (buf b').dev ∧ (buf' b').blockno = (buf b').blockno) :
    OneBlock buf' assigned := by
  intro b₁ b₂ h₁ hd hn
  rw [(hk b₁).1, (hk b₂).1] at hd
  rw [(hk b₁).2, (hk b₂).2] at hn
  exact h b₁ b₂ h₁ hd hn

/-- The ring through every buffer, newest move to the front first; the counts; and one
buffer per block that `bget` has handed out. -/
structure BioInv (c : Bcache) : Prop where
  ring : ∃ L, c.links.Ring L ∧ (∀ b, b ∈ L) ∧ L.Pairwise (fun a b => c.moved b < c.moved a)
  moved_lt : ∀ b, c.moved b < c.clock
  refcnt : ∀ b, (c.buf b).refcnt = c.holds b + c.pins b
  unique : OneBlock c.buf c.assigned

theorem bioInv_binit : BioInv binit := by
  have h₀ : Links.Ring (⟨fun _ => none, fun _ => none⟩ : Links (Fin NBUF)) [] := Links.ring_nil rfl rfl
  have hr := Links.Ring.foldl_insertHead (List.finRange NBUF) h₀ (List.nodup_finRange NBUF) (by simp)
  refine ⟨⟨_, hr, by simp, ?_⟩, fun b => b.isLt, fun _ => rfl, fun b₁ _ h => by simp [binit] at h⟩
  -- `binit` puts buffer `NBUF - 1` in front, and `moved` is the order of insertion
  rw [List.append_nil, List.pairwise_reverse]
  exact List.pairwise_lt_finRange NBUF

section Steps

variable {c c' : Bcache} {dev blockno : ℕ} {b : Fin NBUF}

theorem BioInv.length_le {L : List (Fin NBUF)} (hr : c.links.Ring L) : L.length ≤ NBUF := by
  simpa using hr.nodup.length_le_card

theorem Bcache.setBuf_keys (c : Bcache) (b : Fin NBUF) (x : Buf) (hd : x.dev = (c.buf b).dev)
    (hn : x.blockno = (c.buf b).blockno) (b' : Fin NBUF) : ((c.setBuf b x).buf b').dev = (c.buf b').dev ∧
      ((c.setBuf b x).buf b').blockno = (c.buf b').blockno := by
  by_cases hb : b' = b
  · subst hb; simp [hd, hn]
  · simp [Bcache.setBuf_buf_of_ne _ _ _ hb]

/-- `bget`: the buffer that carries the block, or, when none does, the buffer with
`refcnt = 0` put at the front longest ago, which is given the block. -/
theorem bget_spec (hinv : BioInv c) (h : bget c dev blockno = .ok (c', b)) :
    ((c.buf b).dev = dev ∧ (c.buf b).blockno = blockno ∧
      c' = { c.setBuf b { c.buf b with refcnt := (c.buf b).refcnt + 1 } with
             holds := Function.update c.holds b (c.holds b + 1) }) ∨
    ((∀ b', ¬ ((c.buf b').dev = dev ∧ (c.buf b').blockno = blockno)) ∧ (c.buf b).refcnt = 0 ∧
      (∀ b', (c.buf b').refcnt = 0 → c.moved b ≤ c.moved b') ∧
      c' = { c.setBuf b { dev := dev, blockno := blockno, valid := false, refcnt := 1 } with
             holds := Function.update c.holds b (c.holds b + 1),
             assigned := Function.update c.assigned b true }) := by
  obtain ⟨L, hr, hall, hsort⟩ := hinv.ring
  unfold bget at h
  rw [hr.findNext _ (BioInv.length_le hr)] at h
  split at h
  · next b₀ hfind =>
    simp only [Except.pure_eq_ok, Except.ok.injEq, Prod.mk.injEq] at h
    obtain ⟨rfl, rfl⟩ := h
    have hkey := List.find?_some hfind
    simp only [Bool.and_eq_true, beq_iff_eq] at hkey
    exact .inl ⟨hkey.1, hkey.2, rfl⟩
  · next hfind =>
    rw [hr.findPrev _ (BioInv.length_le hr)] at h
    split at h
    · next b₀ hfind' =>
      simp only [Except.pure_eq_ok, Except.ok.injEq, Prod.mk.injEq] at h
      obtain ⟨rfl, rfl⟩ := h
      refine .inr ⟨fun b' hb' => ?_, by simpa using List.find?_some hfind', fun b' hb' => ?_, rfl⟩
      · have := List.find?_eq_none.mp hfind b' (hall b')
        simp [hb'.1, hb'.2] at this
      · -- the backward scan meets the buffers in increasing order of `moved`
        have hrev : L.reverse.Pairwise (fun a b => c.moved a < c.moved b) := List.pairwise_reverse.mpr hsort
        rcases find?_pairwise hrev hfind' b' (List.mem_reverse.mpr (hall b')) (by simpa using hb') with
          rfl | hlt
        · exact le_rfl
        · exact hlt.le
    · cases h

theorem BioInv.bget (hinv : BioInv c) (h : bget c dev blockno = .ok (c', b)) : BioInv c' := by
  rcases bget_spec hinv h with ⟨-, -, rfl⟩ | ⟨hmiss, hz, -, rfl⟩
  · refine ⟨hinv.ring, hinv.moved_lt, fun b' => ?_, fun b₁ b₂ => ?_⟩
    · by_cases hb : b' = b
      · subst hb; simp [hinv.refcnt b']; omega
      · simp [Bcache.setBuf_buf_of_ne _ _ _ hb, Function.update_of_ne hb, hinv.refcnt b']
    · -- a hit changes no buffer's block
      exact hinv.unique.of_keys (Bcache.setBuf_keys c b { c.buf b with refcnt := (c.buf b).refcnt + 1 } rfl rfl)
        b₁ b₂
  · refine ⟨hinv.ring, hinv.moved_lt, fun b' => ?_, fun b₁ b₂ h₁ hd hn => ?_⟩
    · by_cases hb : b' = b
      · -- the recycled buffer was unused: its one holder is the caller
        subst hb
        have := hinv.refcnt b'
        simp only [Bcache.setBuf_buf_self, Bcache.setBuf_pins, Function.update_self]
        omega
      · simp [Bcache.setBuf_buf_of_ne _ _ _ hb, Function.update_of_ne hb, hinv.refcnt b']
    · -- the block given was carried by no buffer
      by_cases hb₁ : b₁ = b <;> by_cases hb₂ : b₂ = b
      · rw [hb₁, hb₂]
      · subst hb₁
        simp only [Bcache.setBuf_buf_self, Bcache.setBuf_buf_of_ne _ _ _ hb₂] at hd hn
        exact absurd ⟨hd.symm, hn.symm⟩ (hmiss b₂)
      · subst hb₂
        simp only [Bcache.setBuf_buf_self, Bcache.setBuf_buf_of_ne _ _ _ hb₁] at hd hn
        exact absurd ⟨hd, hn⟩ (hmiss b₁)
      · simp only [Bcache.setBuf_buf_of_ne _ _ _ hb₁, Bcache.setBuf_buf_of_ne _ _ _ hb₂] at hd hn
        simp only [Function.update_of_ne hb₁] at h₁
        exact hinv.unique b₁ b₂ h₁ hd hn

theorem BioInv.setValid (hinv : BioInv c) (b : Fin NBUF) :
    BioInv (c.setBuf b { c.buf b with valid := true }) := by
  refine ⟨hinv.ring, hinv.moved_lt, fun b' => ?_,
    hinv.unique.of_keys (Bcache.setBuf_keys c b { c.buf b with valid := true } rfl rfl)⟩
  by_cases hb : b' = b
  · subst hb; simpa using hinv.refcnt b'
  · simpa [Bcache.setBuf_buf_of_ne _ _ _ hb] using hinv.refcnt b'

theorem BioInv.bread (hinv : BioInv c) (h : bread c dev blockno = .ok (c', b)) : BioInv c' := by
  obtain ⟨⟨c₁, b₁⟩, hget, h⟩ := Except.bind_eq_ok.mp h
  have hinv₁ := hinv.bget hget
  dsimp only at h
  split_ifs at h <;> simp only [Except.pure_eq_ok, Except.ok.injEq, Prod.mk.injEq] at h <;>
    obtain ⟨rfl, rfl⟩ := h
  · exact hinv₁.setValid b₁
  · exact hinv₁

/-- `brelse` by a holder: one holder fewer, and a buffer whose count drops to 0 moves in
front of every other, with the newest time. -/
theorem BioInv.brelse (hinv : BioInv c) (hh : 0 < c.holds b) : BioInv (brelse c b) := by
  obtain ⟨L, hr, hall, hsort⟩ := hinv.ring
  have hcount : ∀ b', ((c.setBuf b { c.buf b with refcnt := (c.buf b).refcnt - 1 }).buf b').refcnt =
      Function.update c.holds b (c.holds b - 1) b' + c.pins b' := by
    intro b'
    by_cases hb : b' = b
    · subst hb
      have := hinv.refcnt b'
      simp only [Bcache.setBuf_buf_self, Function.update_self]
      omega
    · simp [Bcache.setBuf_buf_of_ne _ _ _ hb, Function.update_of_ne hb, hinv.refcnt b']
  have hunique := hinv.unique.of_keys
    (Bcache.setBuf_keys c b { c.buf b with refcnt := (c.buf b).refcnt - 1 } rfl rfl)
  unfold Xv6.brelse
  dsimp only
  split_ifs with h0
  · refine ⟨⟨b :: L.erase b, hr.moveToFront (hall b), fun x => ?_, ?_⟩, fun x => ?_, hcount, hunique⟩
    · by_cases hx : x = b
      · simp [hx]
      · exact List.mem_cons_of_mem _ ((hr.nodup.mem_erase_iff).mpr ⟨hx, hall x⟩)
    · -- `b` now carries the newest time; the others keep their order
      refine List.pairwise_cons.mpr ⟨fun y hy => ?_, ?_⟩
      · have hyb : y ≠ b := ((hr.nodup.mem_erase_iff).mp hy).1
        simpa [Function.update_of_ne hyb] using hinv.moved_lt y
      · refine (hsort.sublist List.erase_sublist).imp_of_mem fun {x y} hx hy hxy => ?_
        have hxb : x ≠ b := ((hr.nodup.mem_erase_iff).mp hx).1
        have hyb : y ≠ b := ((hr.nodup.mem_erase_iff).mp hy).1
        simpa [Function.update_of_ne hxb, Function.update_of_ne hyb] using hxy
    · by_cases hx : x = b
      · subst hx; simp
      · simpa [Function.update_of_ne hx] using Nat.lt_succ_of_lt (hinv.moved_lt x)
  · exact ⟨⟨L, hr, hall, hsort⟩, fun x => Nat.lt_succ_of_lt (hinv.moved_lt x), hcount, hunique⟩

theorem BioInv.bpin (hinv : BioInv c) (b : Fin NBUF) : BioInv (bpin c b) := by
  refine ⟨hinv.ring, hinv.moved_lt, fun b' => ?_,
    hinv.unique.of_keys (Bcache.setBuf_keys c b { c.buf b with refcnt := (c.buf b).refcnt + 1 } rfl rfl)⟩
  by_cases hb : b' = b
  · subst hb
    have := hinv.refcnt b'
    simp only [Xv6.bpin, Bcache.setBuf_buf_self, Bcache.setBuf_holds, Function.update_self]
    omega
  · simp [Xv6.bpin, Bcache.setBuf_buf_of_ne _ _ _ hb, Function.update_of_ne hb, hinv.refcnt b']

theorem BioInv.bunpin (hinv : BioInv c) (hp : 0 < c.pins b) : BioInv (bunpin c b) := by
  refine ⟨hinv.ring, hinv.moved_lt, fun b' => ?_,
    hinv.unique.of_keys (Bcache.setBuf_keys c b { c.buf b with refcnt := (c.buf b).refcnt - 1 } rfl rfl)⟩
  by_cases hb : b' = b
  · subst hb
    have := hinv.refcnt b'
    simp only [Xv6.bunpin, Bcache.setBuf_buf_self, Bcache.setBuf_holds, Function.update_self]
    omega
  · simp [Xv6.bunpin, Bcache.setBuf_buf_of_ne _ _ _ hb, Function.update_of_ne hb, hinv.refcnt b']

theorem BioInv.next {e : BioEvent} (hinv : BioInv c) (h : bioNext c e = some c') : BioInv c' := by
  have hstep : bioStep c e = some (.ok c') := by
    unfold bioNext at h
    split at h
    · next heq => cases h; exact heq
    · cases h
  cases e with
  | bread dev blockno =>
    simp only [bioStep, Option.some.injEq] at hstep
    cases hx : Xv6.bread c dev blockno with
    | error => simp [hx, Except.map] at hstep
    | ok p =>
      simp only [hx, Except.map, Except.ok.injEq] at hstep
      subst hstep
      exact hinv.bread hx
  | brelse b =>
    simp only [bioStep] at hstep
    split_ifs at hstep with hh
    cases hstep
    exact hinv.brelse hh
  | bpin b =>
    cases hstep
    exact hinv.bpin b
  | bunpin b =>
    simp only [bioStep] at hstep
    split_ifs at hstep with hp
    cases hstep
    exact hinv.bunpin hp

end Steps

theorem bioInv_reachable {c : Bcache} (hc : Run.Reachable bioNext binit c) : BioInv c := by
  induction hc with
  | init => exact bioInv_binit
  | step e _ he ih => exact ih.next he

/-! ## Recycling -/

/-- The log reads block 100 into buffer 0 and pins it; block 200 goes to buffer 1, which is
released and moves to the front; then buffer 0 is released, still pinned, so it stays at
the back, and unpinned. -/
def bioRun : List BioEvent := [.bread 1 100, .bpin 0, .bread 1 200, .brelse 1, .brelse 0, .bunpin 0]

/-- In every state the calls reach from `binit`: the links form one ring through each of the
`NBUF` buffers once, ordered by the last time each was put at the front; no buffer
carries a block `bget` has given another; `refcnt` is the number of holders plus the pins;
and `bget` returns the buffer that carries the block, or, when none does, gives the block
to a buffer with `refcnt = 0`, the one of those put at the front longest ago. -/
theorem bcache_lru {c : Bcache} (hc : Run.Reachable bioNext binit c) :
    (∃ L : List (Fin NBUF), c.links.Ring L ∧ (∀ b, b ∈ L) ∧ L.Pairwise (fun a b => c.moved b < c.moved a)) ∧
    OneBlock c.buf c.assigned ∧
    (∀ b, (c.buf b).refcnt = c.holds b + c.pins b) ∧
    (∀ dev blockno c' b, bget c dev blockno = .ok (c', b) →
      ((c.buf b).dev = dev ∧ (c.buf b).blockno = blockno) ∨
      ((∀ b', ¬ ((c.buf b').dev = dev ∧ (c.buf b').blockno = blockno)) ∧ (c.buf b).refcnt = 0 ∧
        (∀ b', (c.buf b').refcnt = 0 → c.moved b ≤ c.moved b') ∧
        (c'.buf b).dev = dev ∧ (c'.buf b).blockno = blockno)) := by
  have hinv := bioInv_reachable hc
  refine ⟨hinv.ring, hinv.unique, hinv.refcnt, fun dev blockno c' b h => ?_⟩
  rcases bget_spec hinv h with ⟨hd, hn, -⟩ | ⟨hmiss, hz, hmin, rfl⟩
  · exact .inl ⟨hd, hn⟩
  · exact .inr ⟨hmiss, hz, hmin, by simp, by simp⟩

/-- After `bioRun` no buffer carries block 300, so `bget` of it recycles a buffer with
`refcnt = 0`, the one put at the front longest ago. -/
theorem bcache_lru_bioRun :
    ∃ c, Run.Reachable bioNext binit c ∧ (∀ b, (c.buf b).refcnt = c.holds b + c.pins b) ∧
      ∀ c' b, bget c 1 300 = .ok (c', b) →
        (c.buf b).refcnt = 0 ∧ ∀ b', (c.buf b').refcnt = 0 → c.moved b ≤ c.moved b' := by
  obtain ⟨c, hc, hp⟩ := Run.exists_reachable_of_run bioNext binit bioRun
    (fun c => decide (∀ b : Fin NBUF, ¬((c.buf b).dev = 1 ∧ (c.buf b).blockno = 300))) (by decide)
  have hl := bcache_lru hc
  refine ⟨c, hc, hl.2.2.1, fun c' b hb => ?_⟩
  rcases hl.2.2.2 1 300 c' b hb with h | ⟨-, h0, hmin, -⟩
  · exact absurd h (of_decide_eq_true hp b)
  · exact ⟨h0, hmin⟩

end Xv6
