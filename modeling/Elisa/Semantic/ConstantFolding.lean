import Elisa.Frontend.Ast
import Elisa.Lib.CheckedInt64
import Mathlib.Tactic.Linarith

/-!
# Constants as the checks fold them, and as programs compute them

The contract checks fold constants into signed 64-bit numbers (`linear_checked_arithmetic.elisa`,
`where_signed_literal`, `fold_const_int`).  A program computes at the type of the variable it
compares with: a literal is its low bits, unsigned arithmetic wraps and signed arithmetic traps
(`evaluateConst`).  At 64 bits with sign the two agree (`evaluateConst_of_fold`).
-/

namespace Elisa.Semantic

open Ast Lexer Lib.CheckedInt64

/-! ## Checked arithmetic -/

def linearI64Max : Int := 9223372036854775807

def linearI64Min : Int := 0 - 9223372036854775807 - 1

def linearAddSafe (left right : Int) : Option Int :=
  if (0 < right ∧ linearI64Max - right < left) ∨ (right < 0 ∧ left < linearI64Min - right) then none
  else some (left + right)

def linearSubSafe (left right : Int) : Option Int :=
  if (0 < right ∧ left < linearI64Min + right) ∨ (right < 0 ∧ linearI64Max + right < left) then none
  else some (left - right)

def linearMulGuard (left right : Int) : Bool :=
  left = 0 ∨ right = 0 ∨ left = 1 ∨ right = 1
    ∨ (left = -1 ∧ right ≠ linearI64Min)
    ∨ (right = -1 ∧ left ≠ linearI64Min)
    ∨ (0 < left ∧ 0 < right ∧ left ≤ linearI64Max.tdiv right)
    ∨ (0 < left ∧ right < 0 ∧ linearI64Min.tdiv left ≤ right)
    ∨ (left < 0 ∧ 0 < right ∧ linearI64Min.tdiv right ≤ left)
    ∨ (left < 0 ∧ right < 0 ∧ linearI64Max.tdiv right ≤ left)

def linearMulSafe (left right : Int) : Option Int :=
  if !linearMulGuard left right then none else some (left * right)

/-! ## Folding -/

/-- The operators on two folded literals.  Both are within 32 bits, so nothing overflows. -/
def foldBounded (operator : TokenKind) (left right : Int) : Option Int :=
  match operator with
  | .plus => some (left + right)
  | .minus => some (left - right)
  | .star => some (left * right)
  | .slash => if right ≠ 0 then some (left.tdiv right) else none
  | .percent => if right ≠ 0 then some (left.tmod right) else none
  | _ => none

def foldLimit : Int := 2147483647

def whereSignedLiteral : Expr → Option Int
  | .intLit value => some value.toInt
  | .paren inner => whereSignedLiteral inner
  | .unary operator operand =>
    match whereSignedLiteral operand with
    | none => none
    | some inner =>
      if operator ≠ .minus then none
      -- The smallest number has no positive spelling, so it is there already.
      else if inner < -9223372036854775807 then some inner
      else linearSubSafe 0 inner
  | .binary left operator right =>
    match whereSignedLiteral left, whereSignedLiteral right with
    | some l, some r =>
      if (foldLimit < l ∨ l < 0 - foldLimit) ∨ (foldLimit < r ∨ r < 0 - foldLimit) then none
      else foldBounded operator l r
    | _, _ => none
  | _ => none

def foldConstInt (expression : Expr) : Option Int :=
  match whereSignedLiteral expression with
  | some literal => some literal
  | none =>
    match expression with
    | .boolLit value => if value then some 1 else some 0
    | .paren inner => foldConstInt inner
    | .binary left operator right =>
      match foldConstInt left, foldConstInt right with
      | some l, some r =>
        match operator with
        | .plus => linearAddSafe l r
        | .minus => linearSubSafe l r
        | .star => linearMulSafe l r
        | _ => none
      | _, _ => none
    | _ => none

/-! ## Types and their arithmetic -/

structure IntegerType where
  signed : Bool
  bits : Nat
  some_bits : 0 < bits
  at_most : bits ≤ 64

namespace IntegerType

def int64 : IntegerType := ⟨true, 64, by decide, by decide⟩

def uint64 : IntegerType := ⟨false, 64, by decide, by decide⟩

def Holds (type : IntegerType) (value : Int) : Prop :=
  if type.signed then -2 ^ (type.bits - 1) ≤ value ∧ value < 2 ^ (type.bits - 1)
  else 0 ≤ value ∧ value < 2 ^ type.bits

instance (type : IntegerType) (value : Int) : Decidable (type.Holds value) :=
  inferInstanceAs (Decidable (if type.signed then -2 ^ (type.bits - 1) ≤ value ∧
    value < 2 ^ (type.bits - 1) else 0 ≤ value ∧ value < 2 ^ type.bits))

/-- The value with the same low bits. -/
def wrap (type : IntegerType) (value : Int) : Int :=
  if type.signed then value.bmod (2 ^ type.bits) else value % 2 ^ type.bits

def result (type : IntegerType) (value : Int) : Option Int :=
  if type.signed then if type.Holds value then some value else none else some (type.wrap value)

/-- The numbers of a type are numbers of 64 bits with a sign, from below. -/
theorem Holds.least {type : IntegerType} {value : Int} (holds : type.Holds value) :
    linearI64Min ≤ value := by
  have few := type.at_most
  have small : (2 : Int) ^ (type.bits - 1) ≤ 2 ^ 63 := pow_le_pow_right₀ (by decide) (by omega)
  rw [Holds] at holds
  rw [linearI64Min]
  split at holds
  · omega
  · omega

end IntegerType

/-- A division traps at zero and where its quotient does. -/
def divideAt (type : IntegerType) (left right : Int) : Option Int :=
  if right = 0 then none else type.result (left.tdiv right)

def arithmeticAt (type : IntegerType) (operator : TokenKind) (left right : Int) : Option Int :=
  match operator with
  | .plus => type.result (left + right)
  | .minus => type.result (left - right)
  | .star => type.result (left * right)
  | .slash => divideAt type left right
  | .percent => (divideAt type left right).map fun _ => left.tmod right
  | _ => none

/-- The value that a program computes for a constant at a type, if it does not trap. -/
def evaluateConst (type : IntegerType) : Expr → Option Int
  | .intLit value => some (type.wrap value.toInt)
  | .boolLit value => some (if value then 1 else 0)
  | .paren inner => evaluateConst type inner
  | .unary .minus operand => (evaluateConst type operand).map fun value => type.wrap (-value)
  | .binary left operator right =>
    match evaluateConst type left, evaluateConst type right with
    | some l, some r => arithmeticAt type operator l r
    | _, _ => none
  | _ => none

def isArithmetic (operator : TokenKind) : Bool :=
  operator = .plus ∨ operator = .minus ∨ operator = .star ∨ operator = .slash ∨
    operator = .percent

/-- Expressions of literals alone. -/
def isConstant : Expr → Bool
  | .intLit _ | .boolLit _ => true
  | .paren inner => isConstant inner
  | .unary operator operand => operator = .minus && isConstant operand
  | .binary left operator right => isArithmetic operator && isConstant left && isConstant right
  | _ => false

/-! ## Agreement at 64 bits with sign -/

section Int64

open IntegerType

variable {value : Int}

theorem holds_int64 : int64.Holds value ↔ InRange value := by
  simp [IntegerType.Holds, int64, InRange]

theorem wrap_int64 (fits : InRange value) : int64.wrap value = value :=
  bmod_of_inRange fits

theorem result_int64 (fits : InRange value) : int64.result value = some value := by
  have signed : int64.signed = true := rfl
  rw [result, if_pos signed, if_pos (holds_int64.mpr fits)]

variable {left right : Int}

theorem linearAddSafe_spec (fits : InRange left) (known : linearAddSafe left right = some value) :
    InRange value ∧ value = left + right := by
  unfold linearAddSafe at known
  split at known
  next => cases known
  rename_i small
  obtain rfl := Option.some.inj known
  refine ⟨?_, rfl⟩
  simp only [linearI64Max, linearI64Min, InRange] at *
  omega

theorem linearSubSafe_spec (fits : InRange left) (known : linearSubSafe left right = some value) :
    InRange value ∧ value = left - right := by
  unfold linearSubSafe at known
  split at known
  next => cases known
  rename_i small
  obtain rfl := Option.some.inj known
  refine ⟨?_, rfl⟩
  simp only [linearI64Max, linearI64Min, InRange] at *
  omega

theorem inRange_of_product (posL : 0 < left) (posR : 0 < right)
    (fits : left ≤ linearI64Max.tdiv right) : InRange (left * right) := by
  rw [linearI64Max, Int.tdiv_eq_ediv_of_nonneg (by decide), Int.le_ediv_iff_mul_le posR] at fits
  have := Int.mul_pos posL posR
  constructor <;> linarith

theorem inRange_of_negative_product (posL : 0 < left) (negR : right < 0)
    (fits : linearI64Min.tdiv left ≤ right) : InRange (left * right) := by
  have quotient : linearI64Min.tdiv left = -(9223372036854775808 / left) := by
    rw [← Int.tdiv_eq_ediv_of_nonneg (by decide), ← Int.neg_tdiv]
    rfl
  have bound : -right * left ≤ 9223372036854775808 :=
    (Int.le_ediv_iff_mul_le posL).mp (by omega)
  have := Int.mul_pos posL (by omega : 0 < -right)
  constructor <;> linarith

theorem inRange_of_linearMulGuard (fitsL : InRange left) (fitsR : InRange right)
    (guard : linearMulGuard left right = true) : InRange (left * right) := by
  rw [linearMulGuard, decide_eq_true_eq] at guard
  rcases guard with rfl | rfl | rfl | rfl | ⟨rfl, least⟩ | ⟨rfl, least⟩ | ⟨posL, posR, fits⟩ |
    ⟨posL, negR, fits⟩ | ⟨negL, posR, fits⟩ | ⟨negL, negR, fits⟩
  · simpa using fitsL
  · simpa using fitsR
  · simpa using fitsR
  · simpa using fitsL
  · simp only [InRange, linearI64Min] at *
    omega
  · simp only [InRange, linearI64Min] at *
    omega
  · exact inRange_of_product posL posR fits
  · exact inRange_of_negative_product posL negR fits
  · rw [Int.mul_comm]
    exact inRange_of_negative_product posR negL fits
  · rw [← Int.neg_mul_neg]
    refine inRange_of_product (by omega) (by omega) ?_
    rw [Int.tdiv_neg]
    omega

theorem linearMulSafe_spec (fitsL : InRange left) (fitsR : InRange right)
    (known : linearMulSafe left right = some value) : InRange value ∧ value = left * right := by
  cases guard : linearMulGuard left right with
  | true =>
    obtain rfl : left * right = value := by simpa [linearMulSafe, guard] using known
    exact ⟨inRange_of_linearMulGuard fitsL fitsR guard, rfl⟩
  | false => simp [linearMulSafe, guard] at known

theorem inRange_tdiv (right : Int) (bound : left.natAbs ≤ 2147483647) :
    InRange (left.tdiv right) := by
  have quotient := Int.natAbs_tdiv_le_natAbs left right
  constructor <;> omega

theorem foldBounded_spec {operator : TokenKind} {left right : Int}
    (small : ¬ ((foldLimit < left ∨ left < 0 - foldLimit) ∨ (foldLimit < right ∨ right < 0 -
      foldLimit))) (known : foldBounded operator left right = some value) :
    InRange value ∧ arithmeticAt int64 operator left right = some value := by
  simp only [foldLimit] at small
  have boundL : left.natAbs ≤ 2147483647 := by omega
  have boundR : right.natAbs ≤ 2147483647 := by omega
  cases operator with
  | plus =>
    obtain rfl := Option.some.inj known
    have fits : InRange (left + right) := by constructor <;> omega
    exact ⟨fits, result_int64 fits⟩
  | minus =>
    obtain rfl := Option.some.inj known
    have fits : InRange (left - right) := by constructor <;> omega
    exact ⟨fits, result_int64 fits⟩
  | star =>
    obtain rfl := Option.some.inj known
    have bound : (left * right).natAbs ≤ 2147483647 * 2147483647 := by
      rw [Int.natAbs_mul]
      exact Nat.mul_le_mul boundL boundR
    have fits : InRange (left * right) := by constructor <;> omega
    exact ⟨fits, result_int64 fits⟩
  | slash =>
    obtain ⟨nonzero, rfl⟩ : right ≠ 0 ∧ left.tdiv right = value := by
      simpa [foldBounded] using known
    have fits := inRange_tdiv right boundL
    exact ⟨fits, by simp [arithmeticAt, divideAt, nonzero, result_int64 fits]⟩
  | percent =>
    obtain ⟨nonzero, rfl⟩ : right ≠ 0 ∧ left.tmod right = value := by
      simpa [foldBounded] using known
    have bound : (left.tmod right).natAbs ≤ 2147483647 := by
      rw [Int.natAbs_tmod]
      exact Nat.le_trans (Nat.mod_le _ _) boundL
    refine ⟨by constructor <;> omega, ?_⟩
    simp [arithmeticAt, divideAt, nonzero, result_int64 (inRange_tdiv right boundL)]
  | _ => cases known

theorem evaluateConst_of_whereSignedLiteral (expression : Expr)
    (found : whereSignedLiteral expression = some value) :
    InRange value ∧ evaluateConst int64 expression = some value := by
  fun_induction whereSignedLiteral expression generalizing value with
  | case1 literal =>
    obtain rfl := Option.some.inj found
    exact ⟨inRange_toInt literal, by rw [evaluateConst, wrap_int64 (inRange_toInt literal)]⟩
  | case2 inner ih => simpa [evaluateConst] using ih found
  | case3 | case4 => cases found
  | case5 operator operand inner eq minus least ih =>
    -- The smallest number is its own negation.
    obtain rfl := not_not.mp minus
    obtain rfl := Option.some.inj found
    obtain ⟨fits, evaluates⟩ := ih eq
    obtain rfl : inner = -9223372036854775808 := by
      have := fits.1
      omega
    exact ⟨fits, by rw [evaluateConst, evaluates]; rfl⟩
  | case6 operator operand inner eq minus least ih =>
    obtain rfl := not_not.mp minus
    obtain ⟨fits, evaluates⟩ := ih eq
    obtain ⟨fits', rfl⟩ := linearSubSafe_spec (by decide) found
    rw [Int.zero_sub] at fits' ⊢
    exact ⟨fits', by rw [evaluateConst, evaluates, Option.map_some, wrap_int64 fits']⟩
  | case7 => cases found
  | case8 left operator right r l eqR eqL small ihL ihR =>
    obtain ⟨fits, arithmetic⟩ := foldBounded_spec small found
    refine ⟨fits, ?_⟩
    simp only [evaluateConst, (ihL eqL).2, (ihR eqR).2, arithmetic]
  | case9 => cases found
  | case10 => cases found

/-- What the checks fold a constant to is its value at 64 bits with sign. -/
theorem evaluateConst_of_fold (expression : Expr) (found : foldConstInt expression = some value) :
    InRange value ∧ evaluateConst int64 expression = some value := by
  fun_induction foldConstInt expression generalizing value with
  | case1 expression literal eq =>
    obtain rfl := Option.some.inj found
    exact evaluateConst_of_whereSignedLiteral expression eq
  | case2 =>
    obtain rfl := Option.some.inj found
    exact ⟨by decide, rfl⟩
  | case3 literal false_ =>
    obtain rfl := Option.some.inj found
    obtain rfl := Bool.eq_false_of_not_eq_true false_
    exact ⟨by decide, rfl⟩
  | case4 inner eq ih =>
    rw [evaluateConst]
    exact ih found
  | case5 left right l r eqR eqL none_ ihL ihR =>
    obtain ⟨fits, rfl⟩ := linearAddSafe_spec (ihL eqL).1 found
    exact ⟨fits, by simp only [evaluateConst, (ihL eqL).2, (ihR eqR).2, arithmeticAt,
      result_int64 fits]⟩
  | case6 left right l r eqR eqL none_ ihL ihR =>
    obtain ⟨fits, rfl⟩ := linearSubSafe_spec (ihL eqL).1 found
    exact ⟨fits, by simp only [evaluateConst, (ihL eqL).2, (ihR eqR).2, arithmeticAt,
      result_int64 fits]⟩
  | case7 left right l r eqR eqL none_ ihL ihR =>
    obtain ⟨fits, rfl⟩ := linearMulSafe_spec (ihL eqL).1 (ihR eqR).1 found
    exact ⟨fits, by simp only [evaluateConst, (ihL eqL).2, (ihR eqR).2, arithmeticAt,
      result_int64 fits]⟩
  | _ => cases found

end Int64

/-! ## What folds is constant -/

variable {value : Int}

theorem isConstant_of_evaluateConst {type : IntegerType} (expression : Expr)
    (evaluates : evaluateConst type expression = some value) : isConstant expression = true := by
  fun_induction evaluateConst type expression generalizing value with
  | case1 | case2 => rfl
  | case3 inner ih => simpa [isConstant] using ih evaluates
  | case4 operand ih =>
    obtain ⟨number, known, -⟩ := Option.map_eq_some_iff.mp evaluates
    simpa [isConstant] using ih known
  | case5 left operator right l r eqR eqL ihL ihR =>
    have arithmetic : isArithmetic operator = true := by
      cases operator with
      | plus | minus | star | slash | percent => rfl
      | _ => cases evaluates
    simp [isConstant, arithmetic, ihL eqL, ihR eqR]
  | _ => cases evaluates

theorem isConstant_of_fold (expression : Expr) (found : foldConstInt expression = some value) :
    isConstant expression = true :=
  isConstant_of_evaluateConst expression (evaluateConst_of_fold expression found).2

end Elisa.Semantic
