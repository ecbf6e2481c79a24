import Mathlib.Data.List.Nodup

/-!
# Linked lists in a pool of slots

A pool gives every slot a successor (`next`) and, for a doubly linked list, a predecessor (`prev`);
`nil` stands for no slot.  `Chain nil next head l` says that the list from `head` runs through the
slots of `l`; `DChain` says the same of a doubly linked list, whose first slot has a given
predecessor.

A slot is put in front (`Chain.cons`, `DChain.push`), the first slot is dropped (`Chain.tail`), a
slot is unlinked wherever it stands (`DChain.unlink`), and writes outside a list do not change it
(`Chain.congr`, `DChain.congr`).
-/

namespace Elisa.LinkedList

open List

variable {nil : Nat} {next next' prev prev' : Nat → Nat}

/-! ## Singly linked lists -/

/-- The list from `head` runs through the slots of `l`. -/
def Chain (nil : Nat) (next : Nat → Nat) : Nat → List Nat → Prop
  | head, [] => head = nil
  | head, x :: xs => head = x ∧ x ≠ nil ∧ Chain nil next (next x) xs

variable {head : Nat}

@[simp] theorem chain_nil : Chain nil next head [] ↔ head = nil := Iff.rfl

variable {x : Nat}

@[simp] theorem chain_cons {xs : List Nat} :
    Chain nil next head (x :: xs) ↔ head = x ∧ x ≠ nil ∧ Chain nil next (next x) xs := Iff.rfl

variable {l : List Nat}

theorem Chain.exists_cons (h : Chain nil next head l) (hne : head ≠ nil) :
    ∃ xs, l = head :: xs ∧ Chain nil next (next head) xs := by
  cases l with
  | nil => exact absurd h hne
  | cons x xs =>
    obtain ⟨rfl, -, hxs⟩ := h
    exact ⟨xs, rfl, hxs⟩

theorem Chain.ne_nil_of_mem (h : Chain nil next head l) (hx : x ∈ l) : x ≠ nil := by
  induction l generalizing head with
  | nil => cases hx
  | cons y ys ih =>
    cases hx with
    | head => exact h.2.1
    | tail _ hx => exact ih h.2.2 hx

theorem Chain.congr (h : Chain nil next head l) (hn : ∀ x ∈ l, next' x = next x) :
    Chain nil next' head l := by
  induction l generalizing head with
  | nil => exact h
  | cons y ys ih =>
    obtain ⟨rfl, hne, hys⟩ := h
    refine ⟨rfl, hne, ?_⟩
    rw [hn _ mem_cons_self]
    exact ih hys fun x hx => hn x (mem_cons_of_mem _ hx)

/-! ## Doubly linked lists -/

/-- The list from `head` runs through the slots of `l`, and each slot points
back at the one before it; the first points back at `p`. -/
def DChain (nil : Nat) (next prev : Nat → Nat) : Nat → Nat → List Nat → Prop
  | _, head, [] => head = nil
  | p, head, x :: xs => head = x ∧ x ≠ nil ∧ prev x = p ∧ DChain nil next prev x (next x) xs

variable {p : Nat}

@[simp] theorem dchain_nil : DChain nil next prev p head [] ↔ head = nil := Iff.rfl

@[simp] theorem dchain_cons {xs : List Nat} :
    DChain nil next prev p head (x :: xs) ↔
      head = x ∧ x ≠ nil ∧ prev x = p ∧ DChain nil next prev x (next x) xs := Iff.rfl

theorem DChain.chain (h : DChain nil next prev p head l) : Chain nil next head l := by
  induction l generalizing p head with
  | nil => exact h
  | cons x xs ih => exact ⟨h.1, h.2.1, ih h.2.2.2⟩

theorem DChain.congr (h : DChain nil next prev p head l) (hn : ∀ x ∈ l, next' x = next x)
    (hp : ∀ x ∈ l, prev' x = prev x) : DChain nil next' prev' p head l := by
  induction l generalizing p head with
  | nil => exact h
  | cons y ys ih =>
    obtain ⟨rfl, hne, hprev, hys⟩ := h
    refine ⟨rfl, hne, (hp _ mem_cons_self).trans hprev, ?_⟩
    rw [hn _ mem_cons_self]
    exact ih hys (fun x hx => hn x (mem_cons_of_mem _ hx))
      fun x hx => hp x (mem_cons_of_mem _ hx)

theorem DChain.push (h : DChain nil next prev p head l) (hx : x ≠ nil) (hnext : next' x = head)
    (hprev : prev' x = nil) (hnd : l.Nodup) (hback : head ≠ nil → prev' head = x)
    (hn : ∀ y ∈ l, next' y = next y) (hp : ∀ y ∈ l, y ≠ head → prev' y = prev y) :
    DChain nil next' prev' nil x (x :: l) := by
  refine ⟨rfl, hx, hprev, ?_⟩
  rw [hnext]
  cases l with
  | nil => exact h
  | cons y ys =>
    obtain ⟨rfl, hne, -, hys⟩ := h
    have hout := (nodup_cons.mp hnd).1
    refine ⟨rfl, hne, hback hne, ?_⟩
    rw [hn _ mem_cons_self]
    refine hys.congr (fun z hz => hn z (mem_cons_of_mem _ hz)) fun z hz => ?_
    exact hp z (mem_cons_of_mem _ hz) fun he => hout (he ▸ hz)

/-- The links around a slot of a list, wherever it stands. -/
theorem DChain.links {a b : List Nat} (h : DChain nil next prev p head (a ++ x :: b)) :
    prev x = a.getLastD p ∧ next x = b.headD nil := by
  induction a generalizing p head with
  | nil =>
    obtain ⟨rfl, -, hprev, hb⟩ := h
    refine ⟨hprev, ?_⟩
    cases b with
    | nil => exact hb
    | cons y ys => exact hb.1
  | cons y ys ih =>
    obtain ⟨hprev, hnext⟩ := ih h.2.2.2
    refine ⟨?_, hnext⟩
    rw [hprev]
    cases ys <;> rfl

/-- The back link of a slot leads to a slot whose link leads here, or the slot
is the first. -/
theorem DChain.back (h : DChain nil next prev p head l) (hx : x ∈ l) :
    (prev x = p ∧ head = x) ∨ (prev x ∈ l ∧ next (prev x) = x) := by
  induction l generalizing p head with
  | nil => cases hx
  | cons y ys ih =>
    obtain ⟨rfl, hne, hprev, hys⟩ := h
    cases hx with
    | head => exact .inl ⟨hprev, rfl⟩
    | tail _ hx =>
      rcases ih hys hx with ⟨hpx, hhead⟩ | ⟨hmem, hnext⟩
      · refine .inr ⟨?_, ?_⟩
        · rw [hpx]
          exact mem_cons_self
        · rw [hpx, hhead]
      · exact .inr ⟨mem_cons_of_mem _ hmem, hnext⟩

/-- The link of a slot is `nil`, or leads to a slot that links back. -/
theorem DChain.forth (h : DChain nil next prev p head l) (hx : x ∈ l) (hne : next x ≠ nil) :
    next x ∈ l ∧ prev (next x) = x := by
  induction l generalizing p head with
  | nil => cases hx
  | cons y ys ih =>
    obtain ⟨rfl, -, -, hys⟩ := h
    cases hx with
    | head =>
      cases ys with
      | nil => exact absurd hys hne
      | cons z zs =>
        obtain ⟨hz, -, hback, -⟩ := hys
        rw [hz]
        exact ⟨by simp, hback⟩
    | tail _ hx =>
      obtain ⟨hmem, hback⟩ := ih hys hx
      exact ⟨mem_cons_of_mem _ hmem, hback⟩

/-- Unlinks a slot: the one before it gets its link, the one after it gets its
back link, and the list starts at its successor if it was the first.  The
induction is on the slots before it. -/
theorem DChain.unlink {a b : List Nat} (h : DChain nil next prev p head (a ++ x :: b))
    (hnd : (a ++ x :: b).Nodup) (hp : p ∉ a ++ x :: b)
    (hnext : ∀ y ∈ a ++ b, next' y = if y = prev x then next x else next y)
    (hprev : ∀ y ∈ a ++ b, prev' y = if y = next x then prev x else prev y) :
    DChain nil next' prev' p (if prev x = p then next x else head) (a ++ b) := by
  induction a generalizing p head with
  | nil =>
    obtain ⟨rfl, -, hpx, hb⟩ := h
    simp only [nil_append] at hnd hp hnext hprev ⊢
    rw [if_pos hpx]
    have hpb : p ∉ b := fun hm => hp (mem_cons_of_mem _ hm)
    have hkeep : ∀ y ∈ b, next' y = next y := fun y hy => by
      rw [hnext y hy, if_neg]
      rw [hpx]
      exact fun he => hpb (he ▸ hy)
    cases b with
    | nil => exact hb
    | cons y ys =>
      obtain ⟨hy, hne, -, hys⟩ := hb
      have hyys := (nodup_cons.mp (nodup_cons.mp hnd).2).1
      refine ⟨hy, hne, ?_, ?_⟩
      · rw [hprev y mem_cons_self, if_pos hy.symm, hpx]
      rw [hkeep y mem_cons_self]
      refine hys.congr (fun z hz => hkeep z (mem_cons_of_mem _ hz)) fun z hz => ?_
      rw [hprev z (mem_cons_of_mem _ hz), if_neg]
      rw [hy]
      exact fun he => hyys (he ▸ hz)
  | cons y ys ih =>
    obtain ⟨rfl, hne, hpy, hys⟩ := h
    have hnd' := nodup_cons.mp hnd
    simp only [cons_append] at hnd' hp hnext hprev ⊢
    have hstart := ih hys hnd'.2 hnd'.1
      (fun z hz => hnext z (mem_cons_of_mem _ hz))
      fun z hz => hprev z (mem_cons_of_mem _ hz)
    obtain ⟨hback, hforth⟩ := hys.links
    have hpx : prev x ≠ p := by
      rw [hback]
      intro he
      cases ys with
      | nil =>
        apply hp
        rw [← he]
        exact mem_cons_self
      | cons z zs =>
        apply hp
        rw [← he]
        exact mem_cons_of_mem _ (mem_append_left _ (by
          rw [getLastD_cons]
          exact getLastD_mem_cons))
    rw [if_neg hpx]
    refine ⟨rfl, hne, ?_, ?_⟩
    · rw [hprev head mem_cons_self, if_neg, hpy]
      intro he
      have hmem : head ∈ b := by
        rw [hforth] at he
        cases b with
        | nil => exact absurd he hne
        | cons z zs =>
          rw [he]
          exact mem_cons_self
      exact hnd'.1 (by simp [hmem])
    · have hlink : next' head = if prev x = head then next x else next head := by
        rw [hnext head mem_cons_self]
        by_cases he : prev x = head
        · rw [if_pos he, if_pos he.symm]
        · rw [if_neg he, if_neg fun hh => he hh.symm]
      rw [hlink]
      exact hstart

end Elisa.LinkedList
