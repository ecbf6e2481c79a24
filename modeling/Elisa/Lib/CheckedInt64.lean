import Mathlib.Tactic.NormNum

/-!
# Signed 64-bit arithmetic that traps

A sum, a difference or a product out of range traps, and so does a division by zero or one whose
quotient is out of range, and a shift by less than 0 or by 64 and more.  Otherwise the value is that
on the integers (`add_eq_some_iff` and its siblings).  The second operand of `andThen`, `orElse` and
`implies` counts only where the first one leaves the answer open.
-/

namespace Elisa.Lib.CheckedInt64

/-- The integers that a signed 64-bit number can be. -/
def InRange (v : Int) : Prop :=
  -9223372036854775808 ≤ v ∧ v < 9223372036854775808

instance (v : Int) : Decidable (InRange v) := instDecidableAnd

theorem inRange_toInt (x : Int64) : InRange x.toInt :=
  ⟨x.le_toInt, x.toInt_lt⟩

def ofInt (v : Int) : Option Int64 :=
  if InRange v then some (Int64.ofInt v) else none

theorem bmod_of_inRange {v : Int} (h : InRange v) : v.bmod (2 ^ 64) = v :=
  Int.bmod_eq_of_le (by norm_num; exact h.1) (by norm_num; exact h.2)

theorem toInt_ofInt {v : Int} (h : InRange v) : (Int64.ofInt v).toInt = v := by
  rw [Int64.toInt_ofInt]
  exact bmod_of_inRange h

variable {left right x : Int64}

theorem ofInt_eq_some_iff {v : Int} : ofInt v = some x ↔ x.toInt = v := by
  unfold ofInt
  split
  next h =>
    rw [Option.some.injEq, ← Int64.toInt_inj, toInt_ofInt h]
    exact eq_comm
  rename_i h
  constructor
  · intro no
    cases no
  · rintro rfl
    exact absurd (inRange_toInt x) h

/-! ## Operations -/

def add (left right : Int64) : Option Int64 := ofInt (left.toInt + right.toInt)

def sub (left right : Int64) : Option Int64 := ofInt (left.toInt - right.toInt)

def mul (left right : Int64) : Option Int64 := ofInt (left.toInt * right.toInt)

def div (left right : Int64) : Option Int64 :=
  if right = 0 then none else ofInt (left.toInt.tdiv right.toInt)

/-- The remainder traps where the quotient does. -/
def rem (left right : Int64) : Option Int64 :=
  (div left right).map fun _ => left % right

def shiftLeft (value count : Int64) : Option Int64 :=
  if 0 ≤ count ∧ count < 64 then some (value <<< count) else none

def shiftRight (value count : Int64) : Option Int64 :=
  if 0 ≤ count ∧ count < 64 then some (value >>> count) else none

theorem add_eq_some_iff :
    add left right = some x ↔ x.toInt = left.toInt + right.toInt := ofInt_eq_some_iff

theorem sub_eq_some_iff :
    sub left right = some x ↔ x.toInt = left.toInt - right.toInt := ofInt_eq_some_iff

theorem mul_eq_some_iff :
    mul left right = some x ↔ x.toInt = left.toInt * right.toInt := ofInt_eq_some_iff

theorem div_eq_some_iff (ne : right ≠ 0) :
    div left right = some x ↔ x.toInt = left.toInt.tdiv right.toInt := by
  rw [div, if_neg ne]
  exact ofInt_eq_some_iff

/-- An operation that does not leave the range is the one on words. -/
theorem add_of_exact (exact_ : (left + right).toInt = left.toInt + right.toInt) :
    add left right = some (left + right) := add_eq_some_iff.2 exact_

theorem sub_of_exact (exact_ : (left - right).toInt = left.toInt - right.toInt) :
    sub left right = some (left - right) := sub_eq_some_iff.2 exact_

theorem mul_of_exact (exact_ : (left * right).toInt = left.toInt * right.toInt) :
    mul left right = some (left * right) := mul_eq_some_iff.2 exact_

theorem div_of_exact (ne : right ≠ 0) (exact_ :
    (left / right).toInt = left.toInt.tdiv right.toInt) :
    div left right = some (left / right) := (div_eq_some_iff ne).2 exact_

theorem sub_of_inRange (h : InRange (left.toInt - right.toInt)) :
    sub left right = some (left - right) := by
  refine sub_of_exact ?_
  rw [Int64.toInt_sub]
  exact bmod_of_inRange h

theorem add_of_inRange (h : InRange (left.toInt + right.toInt)) :
    add left right = some (left + right) := by
  refine add_of_exact ?_
  rw [Int64.toInt_add]
  exact bmod_of_inRange h

/-! ## Conditions -/

def andThen (left right : Option Bool) : Option Bool :=
  left.bind fun l => if l then right else some false

def orElse (left right : Option Bool) : Option Bool :=
  left.bind fun l => if l then some true else right

def implies (left right : Option Bool) : Option Bool :=
  left.bind fun l => if l then right else some true

/-- A condition that has to hold; the program stops where it does not. -/
def require (condition : Option Bool) : Option Unit :=
  condition.bind fun holds => if holds then some () else none

/-- A comparison of numbers whose computation may trap. -/
def compare (holds : Int64 → Int64 → Bool) (left right : Option Int64) : Option Bool :=
  left.bind fun l => right.map fun r => holds l r

section Conditions

variable {right : Option Bool}

@[simp] theorem andThen_true : andThen (some true) right = right := rfl

@[simp] theorem andThen_false : andThen (some false) right = some false := rfl

@[simp] theorem orElse_true : orElse (some true) right = some true := rfl

@[simp] theorem orElse_false : orElse (some false) right = right := rfl

@[simp] theorem implies_true : implies (some true) right = right := rfl

@[simp] theorem implies_false : implies (some false) right = some true := rfl

@[simp] theorem require_true : require (some true) = some () := rfl

@[simp] theorem compare_some (holds : Int64 → Int64 → Bool) (l r : Int64) :
    compare holds (some l) (some r) = some (holds l r) := rfl

end Conditions

end Elisa.Lib.CheckedInt64
