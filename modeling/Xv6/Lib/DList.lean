import Mathlib.Tactic

/-! Doubly linked rings with a sentinel, kept in `next` and `prev` pointer fields: `none` is
the sentinel (the list head) and `some a` the node `a`. `Ring lk L` says that the links go
round from the sentinel through the nodes of `L`, in order, and back. The two pointer
updates C code makes on such a ring, inserting a node after another and unlinking a node,
and the scans that follow it either way from the sentinel are given here with what they do
to the list.

A ring is described by the pairs of neighbours along it (`chain`); an update that rewrites
one pair into two, or two into one, keeps every other pair because the pairs' first
components are distinct, and so are their second components. -/

namespace DList

variable {α : Type}

structure Links (α : Type) where
  next : Option α → Option α
  prev : Option α → Option α

/-- The pairs of neighbours along a chain that starts at `x`, passes the nodes `L` and ends
at `y`. -/
def chain : Option α → List α → Option α → List (Option α × Option α)
  | x, [], y => [(x, y)]
  | x, a :: l, y => (x, some a) :: chain (some a) l y

/-! ## Chains -/

section Chain

theorem map_fst_chain (x : Option α) (L : List α) (y : Option α) :
    (chain x L y).map Prod.fst = x :: L.map some := by
  induction L generalizing x with
  | nil => rfl
  | cons a l ih => simp [chain, ih]

theorem map_snd_chain (x : Option α) (L : List α) (y : Option α) :
    (chain x L y).map Prod.snd = L.map some ++ [y] := by
  induction L generalizing x with
  | nil => rfl
  | cons a l ih => simp [chain, ih]

theorem chain_head (L : List α) (y : Option α) :
    ∃ v B, ∀ w, chain w L y = (w, v) :: B := by
  cases L with
  | nil => exact ⟨y, [], fun _ => rfl⟩
  | cons a l => exact ⟨some a, chain (some a) l y, fun _ => rfl⟩

/-- A chain through `l₁` ends with one pair into where it goes next, which the rest of a
chain through `l₁ ++ l₂` continues from. -/
theorem chain_prefix (x : Option α) (l₁ : List α) :
    ∃ A u, (∀ z, chain x l₁ z = A ++ [(u, z)]) ∧ ∀ l₂ y, chain x (l₁ ++ l₂) y = A ++ chain u l₂ y := by
  induction l₁ generalizing x with
  | nil => exact ⟨[], x, fun _ => rfl, fun _ _ => rfl⟩
  | cons a l ih =>
    obtain ⟨A, u, h₁, h₂⟩ := ih (some a)
    exact ⟨(x, some a) :: A, u, fun z => by simp [chain, h₁], fun l₂ y => by simp [chain, h₂]⟩

theorem chain_append_singleton (x : Option α) (l : List α) (a : α) (y : Option α) :
    chain x (l ++ [a]) y = chain x l (some a) ++ [(some a, y)] := by
  obtain ⟨A, u, h₁, h₂⟩ := chain_prefix x l
  rw [h₂, h₁]
  simp [chain]

/-- Taking the node `b` out of a chain turns its two pairs `(u, b)` and `(b, v)` into the
one pair `(u, v)`. -/
theorem chain_split (x : Option α) (l₁ : List α) (b : α) (l₂ : List α) (y : Option α) :
    ∃ A B u v, chain x (l₁ ++ b :: l₂) y = A ++ (u, some b) :: (some b, v) :: B ∧
      chain x (l₁ ++ l₂) y = A ++ (u, v) :: B := by
  obtain ⟨A, u, -, h₂⟩ := chain_prefix x l₁
  obtain ⟨v, B, hB⟩ := chain_head l₂ y
  refine ⟨A, B, u, v, ?_, ?_⟩
  · rw [h₂, chain, hB]
  · rw [h₂, hB]

theorem mem_chain_reverse (x : Option α) (L : List α) (y : Option α) (q : Option α × Option α) :
    q ∈ chain x L.reverse y ↔ q.swap ∈ chain y L x := by
  induction L generalizing x y q with
  | nil =>
    obtain ⟨q₁, q₂⟩ := q
    simp [chain, and_comm]
  | cons a l ih =>
    obtain ⟨q₁, q₂⟩ := q
    rw [List.reverse_cons, chain_append_singleton, List.mem_append, ih]
    simp [chain, or_comm, and_comm]

end Chain

/-! ## Links that hold a chain -/

namespace Links

/-- Every pair `(p, q)` of `P` is linked both ways: `p.next = q` and `q.prev = p`. -/
def Holds (lk : Links α) (P : List (Option α × Option α)) : Prop :=
  ∀ p ∈ P, lk.next p.1 = p.2 ∧ lk.prev p.2 = p.1

/-- The links as the other direction sees them. -/
def flip (lk : Links α) : Links α := ⟨lk.prev, lk.next⟩

/-- The ring from the sentinel through the distinct nodes `L` and back. -/
structure Ring (lk : Links α) (L : List α) : Prop where
  nodup : L.Nodup
  holds : lk.Holds (chain none L none)

variable [DecidableEq α]

/-- `b->next = u->next; b->prev = u; u->next->prev = b; u->next = b;` -/
def insertAfter (lk : Links α) (u : Option α) (b : α) : Links α :=
  let lk₁ : Links α := { lk with next := Function.update lk.next (some b) (lk.next u) }
  let lk₂ : Links α := { lk₁ with prev := Function.update lk₁.prev (some b) u }
  let lk₃ : Links α := { lk₂ with prev := Function.update lk₂.prev (lk₂.next u) (some b) }
  { lk₃ with next := Function.update lk₃.next u (some b) }

/-- `b->next->prev = b->prev; b->prev->next = b->next;` -/
def unlink (lk : Links α) (b : α) : Links α :=
  let lk₁ : Links α := { lk with prev := Function.update lk.prev (lk.next (some b)) (lk.prev (some b)) }
  { lk₁ with next := Function.update lk₁.next (lk₁.prev (some b)) (lk₁.next (some b)) }

/-- The loop `for (b = start; b != head; b = b->next)` that stops at the first node `p`
accepts, for at most `fuel` nodes. -/
def findNext (lk : Links α) (p : α → Bool) : ℕ → Option α → Option α
  | 0, _ => none
  | _ + 1, none => none
  | fuel + 1, some a => if p a then some a else lk.findNext p fuel (lk.next (some a))

end Links

/-! ## The updates -/

section Updates

variable [DecidableEq α] {lk : Links α} {A B : List (Option α × Option α)}

/-- Two neighbouring entries of a list without repetitions differ from each other and from
every other entry. -/
theorem nodup_pair {β : Type} {l₁ l₂ : List β} {a b : β} (h : (l₁ ++ a :: b :: l₂).Nodup) :
    a ≠ b ∧ ∀ x ∈ l₁ ++ l₂, x ≠ a ∧ x ≠ b := by
  rw [List.nodup_middle, List.nodup_cons] at h
  obtain ⟨ha, h⟩ := h
  rw [List.nodup_middle, List.nodup_cons] at h
  refine ⟨fun e => ha (by simp [e]), fun x hx => ⟨?_, fun e => h.1 (e ▸ hx)⟩⟩
  rintro rfl
  exact ha (by simp only [List.mem_append, List.mem_cons] at hx ⊢; tauto)

theorem Links.Holds.insertAfter {u v : Option α} {b : α} (h : lk.Holds (A ++ (u, v) :: B))
    (hfst : ((A ++ (u, some b) :: (some b, v) :: B).map Prod.fst).Nodup)
    (hsnd : ((A ++ (u, some b) :: (some b, v) :: B).map Prod.snd).Nodup) :
    (lk.insertAfter u b).Holds (A ++ (u, some b) :: (some b, v) :: B) := by
  obtain ⟨hn, hp⟩ := h (u, v) (by simp)
  -- the update writes `b` and `u` forwards and `b` and `v` backwards; every other pair
  -- leaves from another node and arrives at another node
  obtain ⟨hub, hf⟩ := nodup_pair (by simpa using hfst)
  obtain ⟨hbv, hs⟩ := nodup_pair (by simpa using hsnd)
  have hother : ∀ q ∈ A ++ B, (lk.insertAfter u b).next q.1 = q.2 ∧ (lk.insertAfter u b).prev q.2 = q.1 := by
    intro q hq
    obtain ⟨hq₁, hq₁'⟩ := hf q.1 (by simp only [← List.map_append]; exact List.mem_map_of_mem hq)
    obtain ⟨hq₂, hq₂'⟩ := hs q.2 (by simp only [← List.map_append]; exact List.mem_map_of_mem hq)
    obtain ⟨h₁, h₂⟩ := h q (by rcases List.mem_append.mp hq with hq | hq <;> simp [hq])
    simp [Links.insertAfter, Function.update_apply, hn, hq₁, hq₁', hq₂, hq₂', h₁, h₂]
  intro q hq
  simp only [List.mem_append, List.mem_cons] at hq
  rcases hq with hq | rfl | rfl | hq
  · exact hother q (by simp [hq])
  · simp [Links.insertAfter, Function.update_apply, hn, hbv]
  · simp [Links.insertAfter, hn, hub, Ne.symm hub]
  · exact hother q (by simp [hq])

theorem Links.Holds.unlink {u v : Option α} {b : α} (h : lk.Holds (A ++ (u, some b) :: (some b, v) :: B))
    (hfst : ((A ++ (u, some b) :: (some b, v) :: B).map Prod.fst).Nodup)
    (hsnd : ((A ++ (u, some b) :: (some b, v) :: B).map Prod.snd).Nodup) :
    (lk.unlink b).Holds (A ++ (u, v) :: B) := by
  obtain ⟨-, hpb⟩ := h (u, some b) (by simp)
  obtain ⟨hnb, -⟩ := h (some b, v) (by simp)
  -- the update writes `u` forwards and `v` backwards; every other pair leaves from another
  -- node and arrives at another node
  obtain ⟨-, hf⟩ := nodup_pair (by simpa using hfst)
  obtain ⟨hbv, hs⟩ := nodup_pair (by simpa using hsnd)
  have hother : ∀ q ∈ A ++ B, (lk.unlink b).next q.1 = q.2 ∧ (lk.unlink b).prev q.2 = q.1 := by
    intro q hq
    obtain ⟨hq₁, -⟩ := hf q.1 (by simp only [← List.map_append]; exact List.mem_map_of_mem hq)
    obtain ⟨-, hq₂⟩ := hs q.2 (by simp only [← List.map_append]; exact List.mem_map_of_mem hq)
    obtain ⟨h₁, h₂⟩ := h q (by rcases List.mem_append.mp hq with hq | hq <;> simp [hq])
    simp [Links.unlink, hnb, hpb, hbv, hq₁, hq₂, h₁, h₂]
  intro q hq
  simp only [List.mem_append, List.mem_cons] at hq
  rcases hq with hq | rfl | hq
  · exact hother q (by simp [hq])
  · simp [Links.unlink, hnb, hpb, hbv]
  · exact hother q (by simp [hq])

end Updates

/-! ## Rings -/

namespace Links

variable {lk : Links α} {L : List α}

theorem nodup_fst_chain (hL : L.Nodup) : ((chain none L none).map Prod.fst).Nodup := by
  rw [map_fst_chain]
  exact List.nodup_cons.mpr ⟨by simp, hL.map (Option.some_injective α)⟩

theorem nodup_snd_chain (hL : L.Nodup) : ((chain none L none).map Prod.snd).Nodup := by
  rw [map_snd_chain, List.nodup_append]
  exact ⟨hL.map (Option.some_injective α), List.nodup_singleton _, by simp⟩

/-- The ring `binit` starts from: `head.next = head.prev = &head`. -/
theorem ring_nil (hn : lk.next none = none) (hp : lk.prev none = none) : lk.Ring [] :=
  ⟨List.nodup_nil, by simp [Holds, chain, hn, hp]⟩

theorem Ring.flip (hr : lk.Ring L) : lk.flip.Ring L.reverse := by
  refine ⟨List.nodup_reverse.mpr hr.nodup, fun q hq => ?_⟩
  obtain ⟨h₁, h₂⟩ := hr.holds q.swap ((mem_chain_reverse none L none q).mp hq)
  exact ⟨h₂, h₁⟩

section Updates

variable [DecidableEq α] {b : α}

theorem Ring.insertHead (hr : lk.Ring L) (hb : b ∉ L) : (lk.insertAfter none b).Ring (b :: L) := by
  have hnd : (b :: L).Nodup := List.nodup_cons.mpr ⟨hb, hr.nodup⟩
  obtain ⟨v, B, hB⟩ := chain_head L none
  have hnew : chain none (b :: L) none = [] ++ (none, some b) :: (some b, v) :: B := by
    simp [chain, hB]
  refine ⟨hnd, ?_⟩
  rw [hnew]
  have hold := hr.holds
  rw [hB] at hold
  exact Holds.insertAfter hold (hnew ▸ nodup_fst_chain hnd) (hnew ▸ nodup_snd_chain hnd)

theorem Ring.unlink (hr : lk.Ring L) (hb : b ∈ L) : (lk.unlink b).Ring (L.erase b) := by
  obtain ⟨l₁, l₂, rfl⟩ := List.append_of_mem hb
  have hb₁ : b ∉ l₁ := fun h => (List.nodup_middle.mp hr.nodup |> List.nodup_cons.mp).1 (by simp [h])
  rw [List.erase_append_right _ hb₁, List.erase_cons_head]
  obtain ⟨A, B, u, v, hold, hnew⟩ := chain_split none l₁ b l₂ none
  have hh := hr.holds
  rw [hold] at hh
  refine ⟨(List.nodup_middle.mp hr.nodup |> List.nodup_cons.mp).2, ?_⟩
  rw [hnew]
  exact Holds.unlink hh (hold ▸ nodup_fst_chain hr.nodup) (hold ▸ nodup_snd_chain hr.nodup)

/-- `brelse`'s move to the front: unlink a node and insert it after the sentinel. -/
theorem Ring.moveToFront (hr : lk.Ring L) (hb : b ∈ L) :
    ((lk.unlink b).insertAfter none b).Ring (b :: L.erase b) :=
  (hr.unlink hb).insertHead (hr.nodup.not_mem_erase)

/-- `binit`'s loop: each node in turn inserted after the sentinel. -/
theorem Ring.foldl_insertHead :
    ∀ (l : List α) {lk : Links α} {L : List α}, lk.Ring L → l.Nodup → (∀ b ∈ l, b ∉ L) →
      (l.foldl (fun lk b => lk.insertAfter none b) lk).Ring (l.reverse ++ L)
  | [], _, _, hr, _, _ => by simpa using hr
  | a :: l, _, L, hr, hnd, hdis => by
    obtain ⟨hal, hl⟩ := List.nodup_cons.mp hnd
    have hfresh : ∀ b ∈ l, b ∉ a :: L := by
      intro b hb hbL
      rcases List.mem_cons.mp hbL with rfl | hbL
      · exact hal hb
      · exact hdis b (by simp [hb]) hbL
    simpa using Ring.foldl_insertHead l (hr.insertHead (hdis a (by simp))) hl hfresh

end Updates

/-! ## Scans -/

/-- Following `next` along a chain that ends at the sentinel finds what `List.find?` finds,
given fuel for every node. -/
theorem findNext_chain (p : α → Bool) :
    ∀ (L : List α) (x : Option α) (fuel : ℕ), (∀ q ∈ chain x L none, lk.next q.1 = q.2) →
      L.length ≤ fuel → lk.findNext p fuel (lk.next x) = L.find? p
  | [], x, fuel, h, _ => by
    rw [(h (x, none) (by simp [chain]))]
    cases fuel <;> rfl
  | a :: l, x, fuel, h, hf => by
    obtain ⟨fuel, rfl⟩ : ∃ f, fuel = f + 1 := ⟨fuel - 1, by simp at hf; omega⟩
    rw [h (x, some a) (by simp [chain]), findNext, List.find?_cons]
    have ih := findNext_chain p l (some a) fuel (fun q hq => h q (by simp [chain, hq]))
      (by simp at hf; omega)
    cases p a <;> simp [ih]

theorem Ring.findNext (hr : lk.Ring L) (p : α → Bool) {fuel : ℕ} (hf : L.length ≤ fuel) :
    lk.findNext p fuel (lk.next none) = L.find? p :=
  findNext_chain p L none fuel (fun q hq => (hr.holds q hq).1) hf

theorem Ring.findPrev (hr : lk.Ring L) (p : α → Bool) {fuel : ℕ} (hf : L.length ≤ fuel) :
    lk.flip.findNext p fuel (lk.prev none) = L.reverse.find? p :=
  hr.flip.findNext p (by simpa using hf)

end Links

theorem find?_pairwise {R : α → α → Prop} {l : List α} {p : α → Bool} {x : α} (hl : l.Pairwise R)
    (hx : l.find? p = some x) : ∀ y ∈ l, p y = true → y = x ∨ R x y := by
  obtain ⟨-, as, bs, rfl, has⟩ := List.find?_eq_some_iff_append.mp hx
  intro y hy hpy
  rw [List.pairwise_append, List.pairwise_cons] at hl
  rcases List.mem_append.mp hy with hy | hy
  · simpa [hpy] using has y hy
  · rcases List.mem_cons.mp hy with rfl | hy
    · exact .inl rfl
    · exact .inr (hl.2.1.1 y hy)

end DList
