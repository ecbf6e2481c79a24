import Mathlib.Data.List.Basic
import Mathlib.Data.List.TakeDrop

/-!
# Stacks with a height

A stack can be kept in an array that never shrinks, with a counter of its live slots.  Removing an
element lowers the counter, and the next one that is added overwrites the slot.  Each operation is
described by what it does to the live slots.
-/

namespace Elisa.Lib

/-- An array of slots, of which those below a height are live. -/
structure HeightStack (α : Type*) where
  slots : List α
  height : Nat
  within : height ≤ slots.length

namespace HeightStack

variable {α : Type*} {stack : HeightStack α} {a b : α}

def empty : HeightStack α := ⟨[], 0, Nat.le_refl 0⟩

/-- Overwrite the slot at the height if there is one, and add one otherwise. -/
def push (stack : HeightStack α) (a : α) : HeightStack α where
  slots := if stack.height < stack.slots.length then stack.slots.set stack.height a
    else stack.slots ++ [a]
  height := stack.height + 1
  within := by
    split
    next h => rw [List.length_set]; exact h
    next => simpa using stack.within

def top? (stack : HeightStack α) : Option α :=
  if stack.height = 0 then none else stack.slots[stack.height - 1]?

def pop (stack : HeightStack α) : HeightStack α where
  slots := stack.slots
  height := stack.height - 1
  within := Nat.le_trans (Nat.sub_le ..) stack.within

def setTop (stack : HeightStack α) (a : α) : HeightStack α where
  slots := stack.slots.set (stack.height - 1) a
  height := stack.height
  within := by simpa using stack.within

/-- The live slots, the topmost one first. -/
def live (stack : HeightStack α) : List α := (stack.slots.take stack.height).reverse

@[simp] theorem live_empty : (empty : HeightStack α).live = [] := rfl

@[simp] theorem length_live : stack.live.length = stack.height := by
  simp [live, stack.within]

@[simp] theorem live_push : (stack.push a).live = a :: stack.live := by
  have grown : (stack.push a).slots.take (stack.height + 1) =
    stack.slots.take stack.height ++ [a] := by
    unfold push
    dsimp only
    split
    next h => rw [List.take_add_one, List.take_set_of_le (Nat.le_refl _),
      List.getElem?_set_self h]; rfl
    rename_i h
    have full : stack.height = stack.slots.length :=
      Nat.le_antisymm stack.within (Nat.le_of_not_lt h)
    rw [full, List.take_length, List.take_of_length_le (by simp)]
  change ((stack.push a).slots.take (stack.height + 1)).reverse = _
  rw [grown, List.reverse_append]
  rfl

theorem take_eq_of_top (found : stack.top? = some a) :
    stack.slots.take stack.height = stack.slots.take (stack.height - 1) ++ [a] := by
  unfold top? at found
  split at found
  next => cases found
  rename_i positive
  conv_lhs => rw [← Nat.succ_pred_eq_of_ne_zero positive, List.take_add_one]
  rw [Nat.pred_eq_sub_one, found]
  rfl

theorem live_of_top (found : stack.top? = some a) : stack.live = a :: stack.pop.live := by
  rw [live, take_eq_of_top found, List.reverse_append]
  rfl

theorem live_setTop (found : stack.top? = some a) :
    (stack.setTop b).live = b :: stack.pop.live := by
  have here : (stack.setTop b).top? = some b := by
    unfold top? at found ⊢
    split at found
    next => cases found
    next positive =>
      rw [if_neg (show ¬(stack.setTop b).height = 0 from positive)]
      exact List.getElem?_set_self (List.getElem?_eq_some_iff.1 found).1
  rw [live_of_top here]
  exact congrArg (b :: List.reverse ·) (List.take_set_of_le (Nat.le_refl _))

theorem top?_eq_none_iff : stack.top? = none ↔ stack.live = [] := by
  rw [← List.length_eq_zero_iff, length_live, top?]
  constructor
  · intro none
    split at none
    next empty => exact empty
    rename_i positive
    have missing := List.getElem?_eq_none_iff.1 none
    have within := stack.within
    omega
  · exact fun empty => if_pos empty

end HeightStack

end Elisa.Lib
