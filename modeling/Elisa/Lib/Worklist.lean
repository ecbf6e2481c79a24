import Mathlib.Data.List.Basic
import Mathlib.Logic.Relation

/-!
# Searches with a worklist

A search works through the list of its visited elements from the front, appending the neighbours it
has not seen.  `Explored R root worklist k` is what holds after `k` rounds: everything on the list
is reachable from the root, and the neighbours of the first `k` elements are on it
(`Explored.start`, `Explored.round`).  When no element is left the list is exactly what the root
reaches (`Explored.mem_iff`).

A search that does not find an element from some others keeps a relation without cycles when these
become the new neighbours of the element (`acyclic_redirect`).
-/

namespace Elisa.Worklist

open Relation

variable {α : Type*} {R : α → α → Prop} {root : α} {worklist : List α}

/-- The state of a search after `rounds` rounds. -/
structure Explored (R : α → α → Prop) (root : α) (worklist : List α) (rounds : Nat) : Prop where
  root_mem : root ∈ worklist
  reached : ∀ x ∈ worklist, ReflTransGen R root x
  closed : ∀ i < rounds, ∀ x, worklist[i]? = some x → ∀ y, R x y → y ∈ worklist

theorem Explored.start (R : α → α → Prop) (root : α) : Explored R root [root] 0 where
  root_mem := List.mem_singleton_self root
  reached := by
    intro x hx
    rw [List.mem_singleton.mp hx]
  closed := fun i hi => absurd hi (Nat.not_lt_zero i)

/-- One round: the neighbours of the next element that are new go to the end. -/
theorem Explored.round {k : Nat} {x : α} {added : List α} (h : Explored R root worklist k)
    (hx : worklist[k]? = some x) (hadded : ∀ y ∈ added, R x y)
    (hall : ∀ y, R x y → y ∈ worklist ++ added) : Explored R root (worklist ++ added) (k + 1) where
  root_mem := List.mem_append_left _ h.root_mem
  reached := by
    intro y hy
    rcases List.mem_append.mp hy with hy | hy
    · exact h.reached y hy
    · exact (h.reached x (List.mem_of_getElem? hx)).tail (hadded y hy)
  closed := by
    intro i hi y hy z hyz
    have hk : k < worklist.length := (List.getElem?_eq_some_iff.mp hx).1
    rw [List.getElem?_append_left (by omega)] at hy
    rcases Nat.lt_succ_iff_lt_or_eq.mp hi with hi | rfl
    · exact List.mem_append_left _ (h.closed i hi y hy z hyz)
    · rw [hx] at hy
      cases hy
      exact hall z hyz

theorem Explored.mem_iff {k : Nat} (h : Explored R root worklist k) (hk : worklist.length ≤ k)
    {x : α} : x ∈ worklist ↔ ReflTransGen R root x := by
  refine ⟨h.reached x, fun hx => ?_⟩
  induction hx with
  | refl => exact h.root_mem
  | tail _ hstep ih =>
    obtain ⟨i, hi⟩ := List.mem_iff_getElem?.mp ih
    have hlt : i < worklist.length := (List.getElem?_eq_some_iff.mp hi).1
    exact h.closed i (by omega) _ hi _ hstep

/-! ## Cycles -/

/-- New neighbours of one element that do not reach it close no cycle. -/
theorem acyclic_redirect {R R' : α → α → Prop} {q : α} (hR : ∀ x, ¬ TransGen R x x)
    (hR' : ∀ x y, R' x y → R x y ∨ (x = q ∧ ¬ ReflTransGen R y q)) (x : α) :
    ¬ TransGen R' x x := by
  -- what does not reach the element is left by old steps only, and for good
  have hleave : ∀ x y, ¬ ReflTransGen R x q → R' x y → R x y ∧ ¬ ReflTransGen R y q := by
    intro x y hx hxy
    rcases hR' x y hxy with h | ⟨rfl, -⟩
    · exact ⟨h, fun hy => hx (hy.head h)⟩
    · exact absurd .refl hx
  have haway : ∀ x y, ¬ ReflTransGen R x q → TransGen R' x y →
      TransGen R x y ∧ ¬ ReflTransGen R y q := by
    intro x y hx hxy
    induction hxy with
    | single h => exact ⟨.single (hleave x _ hx h).1, (hleave x _ hx h).2⟩
    | tail _ h ih => exact ⟨ih.1.tail (hleave _ _ ih.2 h).1, (hleave _ _ ih.2 h).2⟩
  have hold : ∀ y, TransGen R' x y → TransGen R x y ∨ ¬ ReflTransGen R y q := by
    intro y hxy
    induction hxy with
    | single h =>
      rcases hR' x _ h with h | ⟨-, h⟩
      · exact .inl (.single h)
      · exact .inr h
    | tail _ h ih =>
      rcases ih with ih | ih
      · rcases hR' _ _ h with h | ⟨-, h⟩
        · exact .inl (ih.tail h)
        · exact .inr h
      · exact .inr (hleave _ _ ih h).2
  intro hx
  rcases hold x hx with h | h
  · exact hR x h
  · exact hR x (haway x x h hx).1

end Elisa.Worklist
