import Mathlib.Algebra.Ring.Nat
import Mathlib.Data.List.Basic

/-!
# Computations that reject or fault

Code that checks untrusted data produces a value, rejects its input, or goes wrong by indexing past
a buffer or by leaving the machine range.  A computation is `Safe` when it does not go wrong;
`Safe.bind` is the rule for sequences, and `bind_eq_ok` takes a successful run apart.
-/

namespace Elisa

/-- How a checked computation goes wrong. -/
inductive Fault where
  | outOfBounds
  | overflow
deriving DecidableEq

/-- The end of a checked computation. -/
inductive Outcome (α : Type _) where
  | ok (value : α)
  | invalid
  | fault (f : Fault)
deriving DecidableEq

namespace Outcome

variable {α β : Type _}

/-- Run `next` on the value of `x`, if there is one. -/
protected def bind (x : Outcome α) (next : α → Outcome β) : Outcome β :=
  match x with
  | ok a => next a
  | invalid => invalid
  | fault f => fault f

instance : Monad Outcome where
  pure := ok
  bind := Outcome.bind

@[simp] theorem pure_eq (a : α) : (pure a : Outcome α) = ok a := rfl

@[simp] theorem ok_bind (a : α) (next : α → Outcome β) : (ok a >>= next) = next a := rfl

@[simp] theorem invalid_bind (next : α → Outcome β) :
    ((invalid : Outcome α) >>= next) = invalid := rfl

@[simp] theorem fault_bind (f : Fault) (next : α → Outcome β) :
    ((fault f : Outcome α) >>= next) = fault f := rfl

instance : LawfulMonad Outcome := LawfulMonad.mk' Outcome
  (fun x => by cases x <;> rfl)
  (fun _ _ => rfl)
  (fun x _ _ => by cases x <;> rfl)

theorem bind_eq_ok {x : Outcome α} {next : α → Outcome β} {b : β} :
    (x >>= next) = ok b ↔ ∃ a, x = ok a ∧ next a = ok b := by
  cases x with
  | ok a => simp
  | invalid => simp
  | fault f => simp

/-! ## Requirements -/

/-- Reject unless the condition holds. -/
def require (condition : Bool) : Outcome Unit := if condition then ok () else invalid

@[simp] theorem require_true : require true = ok () := rfl

@[simp] theorem require_false : require false = invalid := rfl

@[simp] theorem require_eq_ok {condition : Bool} {u : Unit} :
    require condition = ok u ↔ condition = true := by
  cases condition with
  | true => simp
  | false => simp

theorem require_bind_require (a b : Bool) :
    (require a >>= fun _ => require b) = require (a && b) := by
  cases a with
  | true => rfl
  | false => rfl

/-! ## Safety -/

/-- The computation does not go wrong. -/
def Safe (x : Outcome α) : Prop := ∀ f, x ≠ fault f

@[simp] theorem safe_ok (a : α) : (ok a).Safe := by
  intro f h
  cases h

@[simp] theorem safe_invalid : (invalid : Outcome α).Safe := by
  intro f h
  cases h

@[simp] theorem safe_require (condition : Bool) : (require condition).Safe := by
  cases condition with
  | true => exact safe_ok ()
  | false => exact safe_invalid

/-- A sequence is safe if each part is safe where it runs. -/
theorem Safe.bind {x : Outcome α} {next : α → Outcome β} (hx : x.Safe)
    (hnext : ∀ a, x = ok a → (next a).Safe) : (x >>= next).Safe := by
  cases x with
  | ok a => exact hnext a rfl
  | invalid => exact safe_invalid
  | fault f => exact absurd rfl (hx f)

theorem safe_require_bind {condition : Bool} {next : Unit → Outcome β}
    (hnext : condition = true → (next ()).Safe) : (require condition >>= next).Safe :=
  (safe_require condition).bind fun _ h => hnext (require_eq_ok.1 h)

theorem safe_forM {f : α → Outcome PUnit} : ∀ {xs : List α}, (∀ x ∈ xs, (f x).Safe) →
    (xs.forM f).Safe
  | [], _ => safe_ok _
  | x :: xs, h => by
      refine (h x (List.mem_cons_self ..)).bind ?_
      intro _ _
      exact safe_forM fun y hy => h y (List.mem_cons_of_mem x hy)

/-- A loop with an accumulator is safe if every iteration is. -/
theorem safe_foldlM {f : β → α → Outcome β} : ∀ {xs : List α} (b : β),
    (∀ b, ∀ x ∈ xs, (f b x).Safe) → (xs.foldlM f b).Safe
  | [], b, _ => safe_ok b
  | x :: xs, b, h => by
      rw [List.foldlM_cons]
      refine (h b x (List.mem_cons_self ..)).bind ?_
      intro b' _
      exact safe_foldlM b' fun c y hy => h c y (List.mem_cons_of_mem x hy)

/-! ## Checked machine operations -/

/-- One more than the largest machine word. -/
abbrev wordLimit : Nat := 2 ^ 64

def addLength (a b : Nat) : Outcome Nat := if a + b < wordLimit then ok (a + b) else fault .overflow

def mulLength (a b : Nat) : Outcome Nat := if a * b < wordLimit then ok (a * b) else fault .overflow

def subLength (a b : Nat) : Outcome Nat := if b ≤ a then ok (a - b) else fault .overflow

def index (xs : List α) (i : Nat) : Outcome α :=
  match xs[i]? with
  | some x => ok x
  | none => fault .outOfBounds

theorem addLength_eq {a b : Nat} (h : a + b < wordLimit) : addLength a b = ok (a + b) := if_pos h

theorem mulLength_eq {a b : Nat} (h : a * b < wordLimit) : mulLength a b = ok (a * b) := if_pos h

theorem subLength_eq {a b : Nat} (h : b ≤ a) : subLength a b = ok (a - b) := if_pos h

theorem index_eq {xs : List α} {i : Nat} (h : i < xs.length) : index xs i = ok (xs.get ⟨i, h⟩) := by
  simp [index, h]

theorem index_map (f : α → β) (xs : List α) (i : Nat) :
    index (xs.map f) i = (index xs i >>= fun x => ok (f x)) := by
  unfold index
  rw [List.getElem?_map]
  cases xs[i]? with
  | none => rfl
  | some x => rfl

end Outcome

end Elisa
