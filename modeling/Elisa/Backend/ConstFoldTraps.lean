import Elisa.Backend.ConstFoldAgreement
import Elisa.Lib.CheckedInt64

/-!
# Folding does not trap

The folder is compiled code itself: its own sums, quotients and shifts trap where they are not
defined, its assertions are checked when it runs, and it goes on after a failure, with a 0 for the
missing value and the flag `ok` cleared (`Trapping.foldConstExpr`).  It never traps, and the flag
tells whether the expression has a value with every result in the range of a signed 64-bit number
(`foldConstExpr_checked`).
-/

namespace Elisa.Backend

open Elisa.Lib

/-! ## The folder as it runs -/

namespace Trapping

open BackendConstArithmetic (i64Max i64Min i64ShiftWidth)
open CheckedInt64

def le : Option Int64 → Option Int64 → Option Bool := compare fun l r => l ≤ r

def lt : Option Int64 → Option Int64 → Option Bool := compare fun l r => l < r

def eq : Option Int64 → Option Int64 → Option Bool := compare fun l r => l = r

def ensureResult (result : Bool) (p : Option Bool) : Option Unit :=
  require (p.map (result == ·))

def addIsSafe (left right : Int64) : Option Bool := do
  let above ← andThen (some (0 < right)) (lt (sub i64Max right) (some left))
  let under ← if above then some false
    else andThen (some (right < 0)) (lt (some left) (sub i64Min right))
  let result := !(above || under)
  if result then
    require (le (some i64Min) (add left right))
    require (le (add left right) (some i64Max))
  ensureResult result
    (orElse (some (right = 0))
      (orElse (andThen (some (0 < right)) (le (some left) (sub i64Max right)))
        (andThen (some (right < 0)) (le (sub i64Min right) (some left)))))
  require (implies (some result)
    (andThen (le (some i64Min) (add left right)) (le (add left right) (some i64Max))))
  return result

def subtractIsSafe (left right : Int64) : Option Bool := do
  let under ← andThen (some (0 < right)) (lt (some left) (add i64Min right))
  let above ← if under then some false
    else andThen (some (right < 0)) (lt (add i64Max right) (some left))
  let result := !(under || above)
  if result then
    require (le (some i64Min) (sub left right))
    require (le (sub left right) (some i64Max))
  ensureResult result
    (orElse (some (right = 0))
      (orElse (andThen (some (0 < right)) (le (add i64Min right) (some left)))
        (andThen (some (right < 0)) (le (some left) (add i64Max right)))))
  require (implies (some result)
    (andThen (le (some i64Min) (sub left right)) (le (sub left right) (some i64Max))))
  return result

def multiplyTest (left right : Int64) : Option Bool :=
  if left = 0 ∨ right = 0 then some true
  else if 0 < left then
    if 0 < right then (lt (div i64Max right) (some left)).map not
    else (lt (some right) (div i64Min left)).map not
  else if 0 < right then (lt (some left) (div i64Min right)).map not
  else (lt (some left) (div i64Max right)).map not

def multiplyIsSafe (left right : Int64) : Option Bool := do
  let result ← multiplyTest left right
  let signs (l r : Bool) := andThen (some l) (some r)
  ensureResult result
    (orElse (some (left = 0 ∨ right = 0))
      (orElse (andThen (signs (0 < left) (0 < right)) (le (some left) (div i64Max right)))
        (orElse (andThen (signs (0 < left) (right < 0)) (le (div i64Min left) (some right)))
          (orElse (andThen (signs (left < 0) (0 < right)) (le (div i64Min right) (some left)))
            (andThen (signs (left < 0) (right < 0)) (le (div i64Max right) (some left)))))))
  require (implies (some (result ∧ (left = 0 ∨ right = 0))) (eq (mul left right) (some 0)))
  require (implies (some (result ∧ 0 < left ∧ 0 < right))
    (andThen (le (some 0) (mul left right)) (le (mul left right) (some i64Max))))
  require (implies (some (result ∧ 0 < left ∧ right < 0))
    (andThen (le (some i64Min) (mul left right)) (le (mul left right) (some 0))))
  require (implies (some (result ∧ left < 0 ∧ 0 < right))
    (andThen (le (some i64Min) (mul left right)) (le (mul left right) (some 0))))
  require (implies (some (result ∧ left < 0 ∧ right < 0))
    (andThen (le (some 0) (mul left right)) (le (mul left right) (some i64Max))))
  return result

def negationIsSafe (value : Int64) : Option Bool := do
  let result := !decide (value = i64Min)
  if result then
    require (le (some i64Min) (sub 0 value))
    require (le (sub 0 value) (some i64Max))
  ensureResult result (some (value ≠ i64Min))
  require (implies (some result)
    (andThen (le (some i64Min) (sub 0 value)) (le (sub 0 value) (some i64Max))))
  return result

/-- The guards of a division, a remainder and a shift compute nothing. -/
def plainGuard (guard : Bool) : Option Bool := do
  ensureResult guard (some guard)
  return guard

def guarded (guard : Option Bool) (value : Option Int64) (ok : Bool) : Option (Int64 × Bool) :=
  guard.bind fun safe => if safe then value.map (·, ok) else some (0, false)

def foldConstBinaryValues (left : Int64) (operator : TokenKind) (right : Int64) (ok : Bool) :
    Option (Int64 × Bool) :=
  match operator with
  | .eqEq => some (flag (left = right), ok)
  | .bangEq => some (flag (left ≠ right), ok)
  | .lt => some (flag (left < right), ok)
  | .gt => some (flag (right < left), ok)
  | .ltEq => some (flag (left ≤ right), ok)
  | .gtEq => some (flag (right ≤ left), ok)
  | .and => some (flag (left ≠ 0 ∧ right ≠ 0), ok)
  | .or => some (flag (left ≠ 0 ∨ right ≠ 0), ok)
  | .plus => guarded (addIsSafe left right) (add left right) ok
  | .minus => guarded (subtractIsSafe left right) (sub left right) ok
  | .star => guarded (multiplyIsSafe left right) (mul left right) ok
  | .slash =>
    guarded (plainGuard (BackendConstArithmetic.divisionIsSafe left right)) (div left right) ok
  | .percent =>
    guarded (plainGuard (BackendConstArithmetic.remainderIsSafe left right)) (rem left right) ok
  | .caret => some (left ^^^ right, ok)
  | .pipe => some (left ||| right, ok)
  | .ampersand => some (left &&& right, ok)
  | .lShift =>
    guarded (plainGuard (BackendConstArithmetic.shiftCountIsSafe right)) (shiftLeft left right) ok
  | .rShift =>
    guarded (plainGuard (BackendConstArithmetic.shiftCountIsSafe right)) (shiftRight left right) ok
  | _ => some (0, false)

def foldConstUnaryValue (operator : TokenKind) (operandValue : Int64) (ok : Bool) :
    Option (Int64 × Bool) :=
  match operator with
  | .minus => guarded (negationIsSafe operandValue) (sub 0 operandValue) ok
  | .plus => some (operandValue, ok)
  | .tilde => some (~~~operandValue, ok)
  | _ => some (0, false)

def foldConstAtom (value : Option Int64) (ok : Bool) : Int64 × Bool :=
  match value with
  | some value => (value, ok)
  | none => (0, false)

/-- The value that the folder returns and the flag that it leaves; nothing where it traps. -/
def foldConstExpr (env : ConstEnv) : ConstExpr → Bool → Option (Int64 × Bool)
  | .intLit value, ok => some (value, ok)
  | .boolLit value, ok => some (flag (value = true), ok)
  | .charLit code, ok => some (code.toUInt64.toInt64, ok)
  | .ident name, ok => some (foldConstAtom (foldConstRow (env none name)) ok)
  | .scope module name, ok => some (foldConstAtom (foldConstRow (env (some module) name)) ok)
  | .paren inner, ok => foldConstExpr env inner ok
  | .unary operator operand, ok => do
    let (operandValue, ok) ← foldConstExpr env operand ok
    foldConstUnaryValue operator operandValue ok
  | .cast object _, ok | .floatCast object, ok => foldConstExpr env object ok
  | .binary left operator right, ok => do
    let (leftValue, ok) ← foldConstExpr env left ok
    -- The right operand is folded even where the left one has failed.
    let (rightValue, ok) ← foldConstExpr env right ok
    if ok then foldConstBinaryValues leftValue operator rightValue ok else some (0, ok)
  | .other, _ => some (0, false)

end Trapping

/-! ## The guards -/

namespace Trapping

open BackendConstArithmetic (i64Max i64Min toInt_i64Max toInt_i64Min toInt_bounds)
open CheckedInt64

@[simp] theorem i64Min_le (x : Int64) : i64Min ≤ x :=
  Int64.le_iff_toInt_le.2 (by rw [toInt_i64Min]; exact (toInt_bounds x).1)

@[simp] theorem le_i64Max (x : Int64) : x ≤ i64Max :=
  Int64.le_iff_toInt_le.2 (by rw [toInt_i64Max]; exact Int.le_of_lt_add_one (toInt_bounds x).2)

variable {x : Int64}

theorem inward_of_pos (pos : 0 < x) :
    sub i64Max x = some (i64Max - x) ∧ add i64Min x = some (i64Min + x) := by
  have := toInt_bounds x
  rw [Int64.lt_iff_toInt_lt, Int64.toInt_zero] at pos
  exact ⟨sub_of_inRange (by rw [toInt_i64Max]; constructor <;> omega),
    add_of_inRange (by rw [toInt_i64Min]; constructor <;> omega)⟩

theorem inward_of_neg (neg : x < 0) :
    sub i64Min x = some (i64Min - x) ∧ add i64Max x = some (i64Max + x) := by
  have := toInt_bounds x
  rw [Int64.lt_iff_toInt_lt, Int64.toInt_zero] at neg
  exact ⟨sub_of_inRange (by rw [toInt_i64Min]; constructor <;> omega),
    add_of_inRange (by rw [toInt_i64Max]; constructor <;> omega)⟩

theorem sign_cases (x : Int64) :
    x = 0 ∨ ((0 < x) = True ∧ (x < 0) = False ∧ (x = 0) = False) ∨
      ((0 < x) = False ∧ (x < 0) = True ∧ (x = 0) = False) := by
  simp only [Int64.lt_iff_toInt_lt, ← Int64.toInt_inj, Int64.toInt_zero, eq_iff_iff, iff_true,
    iff_false]
  omega

theorem order_cases (x y : Int64) :
    ((x < y) = True ∧ (y ≤ x) = False) ∨ ((x < y) = False ∧ (y ≤ x) = True) := by
  simp only [Int64.lt_iff_toInt_lt, Int64.le_iff_toInt_le, eq_iff_iff, iff_true, iff_false]
  omega

theorem addIsSafe_eq (left right : Int64) :
    addIsSafe left right = some (BackendConstArithmetic.addIsSafe left right) := by
  have sum : BackendConstArithmetic.addIsSafe left right = true →
      add left right = some (left + right) := fun safe =>
    add_of_exact (BackendConstArithmetic.toInt_add_of_safe safe)
  unfold BackendConstArithmetic.addIsSafe at sum ⊢
  unfold addIsSafe
  rcases sign_cases right with rfl | ⟨pos, neg, ne⟩ | ⟨pos, neg, ne⟩
  · simp [ensureResult, le, lt] at sum ⊢
    simp [sum]
  · have limit := (inward_of_pos (of_eq_true pos)).1
    rcases order_cases (i64Max - right) left with ⟨above, le_⟩ | ⟨above, le_⟩ <;>
      simp [ensureResult, le, lt, pos, neg, ne, limit, above, le_] at sum ⊢
    simp [sum]
  · have limit := (inward_of_neg (of_eq_true neg)).1
    rcases order_cases left (i64Min - right) with ⟨under, le_⟩ | ⟨under, le_⟩ <;>
      simp [ensureResult, le, lt, pos, neg, ne, limit, under, le_] at sum ⊢
    simp [sum]

theorem subtractIsSafe_eq (left right : Int64) :
    subtractIsSafe left right = some (BackendConstArithmetic.subtractIsSafe left right) := by
  have difference : BackendConstArithmetic.subtractIsSafe left right = true →
      sub left right = some (left - right) := fun safe =>
    sub_of_exact (BackendConstArithmetic.toInt_sub_of_safe safe)
  unfold BackendConstArithmetic.subtractIsSafe at difference ⊢
  unfold subtractIsSafe
  rcases sign_cases right with rfl | ⟨pos, neg, ne⟩ | ⟨pos, neg, ne⟩
  · simp [ensureResult, le, lt] at difference ⊢
    simp [difference]
  · have limit := (inward_of_pos (of_eq_true pos)).2
    rcases order_cases left (i64Min + right) with ⟨under, le_⟩ | ⟨under, le_⟩ <;>
      simp [ensureResult, le, lt, pos, neg, ne, limit, under, le_] at difference ⊢
    simp [difference]
  · have limit := (inward_of_neg (of_eq_true neg)).2
    rcases order_cases (i64Max + right) left with ⟨above, le_⟩ | ⟨above, le_⟩ <;>
      simp [ensureResult, le, lt, pos, neg, ne, limit, above, le_] at difference ⊢
    simp [difference]

theorem div_i64Max (ne : ¬ x = 0) : div i64Max x = some (i64Max / x) :=
  div_of_exact ne (BackendConstArithmetic.toInt_div_of_ne (.inl (by decide)))

theorem div_i64Min (pos : 0 < x) : div i64Min x = some (i64Min / x) := by
  refine div_of_exact ?_ (BackendConstArithmetic.toInt_div_of_ne (.inr ?_))
  · rintro rfl
    exact absurd pos (by decide)
  · rintro rfl
    exact absurd pos (by decide)

theorem product_sign {left right : Int64}
    (product : (left * right).toInt = left.toInt * right.toInt) :
    (0 < left → 0 < right → 0 ≤ left * right) ∧ (0 < left → right < 0 → left * right ≤ 0) ∧
      (left < 0 → 0 < right → left * right ≤ 0) ∧ (left < 0 → right < 0 → 0 ≤ left * right) := by
  simp only [Int64.lt_iff_toInt_lt, Int64.le_iff_toInt_le, Int64.toInt_zero, product]
  refine ⟨fun l r => ?_, fun l r => ?_, fun l r => ?_, fun l r => ?_⟩
  · exact Int.le_of_lt (Int.mul_pos l r)
  · exact Int.le_of_lt (Int.mul_neg_of_pos_of_neg l r)
  · exact Int.le_of_lt (Int.mul_neg_of_neg_of_pos l r)
  · exact Int.le_of_lt (Int.mul_pos_of_neg_of_neg l r)

@[simp] theorem mul_zero_left (x : Int64) : mul 0 x = some 0 :=
  mul_eq_some_iff.2 (by simp)

@[simp] theorem mul_zero_right (x : Int64) : mul x 0 = some 0 :=
  mul_eq_some_iff.2 (by simp)

theorem multiplyIsSafe_eq (left right : Int64) :
    multiplyIsSafe left right = some (BackendConstArithmetic.multiplyIsSafe left right) := by
  have product : BackendConstArithmetic.multiplyIsSafe left right = true →
      (left * right).toInt = left.toInt * right.toInt := BackendConstArithmetic.toInt_mul_of_safe
  unfold BackendConstArithmetic.multiplyIsSafe at product ⊢
  unfold multiplyIsSafe multiplyTest
  rcases sign_cases left with rfl | ⟨posL, negL, neL⟩ | ⟨posL, negL, neL⟩
  · simp [ensureResult, eq]
  · rcases sign_cases right with rfl | ⟨posR, negR, neR⟩ | ⟨posR, negR, neR⟩
    · simp [ensureResult, eq]
    · have limit := div_i64Max (of_eq_false neR)
      rcases order_cases (i64Max / right) left with ⟨above, le_⟩ | ⟨above, le_⟩ <;>
        simp only [posL, negL, neL, posR, negR, neR, above, or_self, if_true, if_false,
          forall_const] at product ⊢
      · simp [ensureResult, le, lt, limit, above, le_]
      · have sign := (product_sign product).1 (of_eq_true posL) (of_eq_true posR)
        simp [ensureResult, le, lt, limit, above, le_, mul_of_exact product, sign]
    · have limit := div_i64Min (of_eq_true posL)
      rcases order_cases right (i64Min / left) with ⟨under, le_⟩ | ⟨under, le_⟩ <;>
        simp only [posL, negL, neL, posR, negR, neR, under, or_self, if_true, if_false,
          forall_const] at product ⊢
      · simp [ensureResult, le, lt, limit, under, le_]
      · have sign := (product_sign product).2.1 (of_eq_true posL) (of_eq_true negR)
        simp [ensureResult, le, lt, limit, under, le_, mul_of_exact product, sign]
  · rcases sign_cases right with rfl | ⟨posR, negR, neR⟩ | ⟨posR, negR, neR⟩
    · simp [ensureResult, eq]
    · have limit := div_i64Min (of_eq_true posR)
      rcases order_cases left (i64Min / right) with ⟨under, le_⟩ | ⟨under, le_⟩ <;>
        simp only [posL, negL, neL, posR, negR, neR, under, or_self, if_true, if_false,
          forall_const] at product ⊢
      · simp [ensureResult, le, lt, limit, under, le_]
      · have sign := (product_sign product).2.2.1 (of_eq_true negL) (of_eq_true posR)
        simp [ensureResult, le, lt, limit, under, le_, mul_of_exact product, sign]
    · have limit := div_i64Max (of_eq_false neR)
      rcases order_cases left (i64Max / right) with ⟨under, le_⟩ | ⟨under, le_⟩ <;>
        simp only [posL, negL, neL, posR, negR, neR, under, or_self, if_true, if_false,
          forall_const] at product ⊢
      · simp [ensureResult, le, lt, limit, under, le_]
      · have sign := (product_sign product).2.2.2 (of_eq_true negL) (of_eq_true negR)
        simp [ensureResult, le, lt, limit, under, le_, mul_of_exact product, sign]

theorem div_of_safe {left right : Int64}
    (safe : BackendConstArithmetic.divisionIsSafe left right = true) :
    div left right = some (left / right) := by
  refine div_of_exact ?_ (BackendConstArithmetic.toInt_div_of_safe safe)
  rw [BackendConstArithmetic.divisionIsSafe, decide_eq_true_eq] at safe
  exact safe.1

theorem negationIsSafe_eq (value : Int64) :
    negationIsSafe value = some (BackendConstArithmetic.negationIsSafe value) := by
  have negated : BackendConstArithmetic.negationIsSafe value = true →
      sub 0 value = some (0 - value) := fun safe =>
    sub_of_exact (by
      rw [BackendConstArithmetic.toInt_neg_of_safe safe, Int64.toInt_zero, Int.zero_sub])
  unfold BackendConstArithmetic.negationIsSafe at negated ⊢
  unfold negationIsSafe
  by_cases least : value = i64Min
  · simp [ensureResult, least]
  · simp [least] at negated
    simp [ensureResult, le, least, negated]

@[simp] theorem plainGuard_eq (guard : Bool) : plainGuard guard = some guard := by
  simp [plainGuard, ensureResult]

end Trapping

/-! ## The value of an expression -/

open CheckedInt64 (InRange)

def inRange (v : Int) : Option Int :=
  if InRange v then some v else none

/-- A sum, a difference, a product or a quotient has to be in range, a remainder needs its quotient,
a shift a count below 64; a shift to the left drops the bits that leave the word.  Other operators
have no value. -/
def checkedBinary (operator : TokenKind) (left right : Int) : Option Int :=
  match operator with
  | .plus | .minus | .star => inRange (exactBinary operator left right)
  | .slash => if right = 0 then none else inRange (left.tdiv right)
  | .percent =>
    if right = 0 then none else (inRange (left.tdiv right)).map fun _ => left.tmod right
  | .lShift | .rShift =>
    if 0 ≤ right ∧ right < 64 then some (exactBinary operator left right) else none
  | .not | .tilde | .other => none
  | operator => some (exactBinary operator left right)

def checkedUnary (operator : TokenKind) (operand : Int) : Option Int :=
  match operator with
  | .minus => inRange (-operand)
  | .plus => some operand
  | .tilde => some (-operand - 1)
  | _ => none

/-- The value of an expression that is computed from the leaves up, if it is defined at every
node. -/
def checkedValue (env : ConstEnv) : ConstExpr → Option Int
  | .intLit value => some value.toInt
  | .boolLit value => some (bit (value = true))
  | .charLit code => some (code.toNat : Int)
  | .ident name => (foldConstRow (env none name)).map Int64.toInt
  | .scope module name => (foldConstRow (env (some module) name)).map Int64.toInt
  | .paren inner => checkedValue env inner
  | .unary operator operand => (checkedValue env operand).bind (checkedUnary operator)
  | .cast object _ | .floatCast object => checkedValue env object
  | .binary left operator right =>
    (checkedValue env left).bind fun l => (checkedValue env right).bind (checkedBinary operator l)
  | .other => none

/-! ## The guards accept what is in range -/

section Guards

open BackendConstArithmetic CheckedInt64

variable {left right : Int64}

theorem addIsSafe_iff : addIsSafe left right = true ↔ InRange (left.toInt + right.toInt) := by
  constructor
  · intro safe
    rw [← toInt_add_of_safe safe]
    exact inRange_toInt _
  · rintro ⟨low, high⟩
    have boundsR := toInt_bounds right
    simp only [addIsSafe, Int64.lt_iff_toInt_lt, Int64.toInt_sub, toInt_i64Max, toInt_i64Min,
      Int64.toInt_zero]
    rw [if_neg, if_neg]
    · rintro ⟨neg, under⟩
      rw [bmod_word (by omega) (by omega)] at under
      omega
    · rintro ⟨pos, above⟩
      rw [bmod_word (by omega) (by omega)] at above
      omega

theorem subtractIsSafe_iff :
    subtractIsSafe left right = true ↔ InRange (left.toInt - right.toInt) := by
  constructor
  · intro safe
    rw [← toInt_sub_of_safe safe]
    exact inRange_toInt _
  · rintro ⟨low, high⟩
    have boundsR := toInt_bounds right
    simp only [subtractIsSafe, Int64.lt_iff_toInt_lt, Int64.toInt_add, toInt_i64Max, toInt_i64Min,
      Int64.toInt_zero]
    rw [if_neg, if_neg]
    · rintro ⟨neg, above⟩
      rw [bmod_word (by omega) (by omega)] at above
      omega
    · rintro ⟨pos, under⟩
      rw [bmod_word (by omega) (by omega)] at under
      omega

theorem multiplyIsSafe_iff :
    multiplyIsSafe left right = true ↔ InRange (left.toInt * right.toInt) := by
  constructor
  · exact product_bounds_of_safe
  · rintro ⟨low, high⟩
    have quotient : (9223372036854775807 : Int).tdiv right.toInt =
        -(9223372036854775807 / -right.toInt) := by
      rw [← Int.tdiv_eq_ediv_of_nonneg (by decide), Int.tdiv_neg, neg_neg]
    unfold multiplyIsSafe
    split
    · rfl
    next nonzero =>
    have neR : right.toInt ≠ 0 := toInt_ne_zero fun h => nonzero (.inr h)
    split
    next posL =>
      have posL' : 0 < left.toInt := by simpa [Int64.lt_iff_toInt_lt] using posL
      split
      next posR =>
        have posR' : 0 < right.toInt := by simpa [Int64.lt_iff_toInt_lt] using posR
        rw [if_neg]
        rw [Int64.lt_iff_toInt_lt, toInt_i64Max_div, Int.tdiv_eq_ediv_of_nonneg (by decide),
          not_lt, Int.le_ediv_iff_mul_le posR']
        omega
      rename_i negR
      rw [if_neg]
      rw [Int64.lt_iff_toInt_lt, toInt_i64Min_div posL, not_lt]
      have : -right.toInt ≤ 9223372036854775808 / left.toInt :=
        (Int.le_ediv_iff_mul_le posL').2 (by linarith)
      omega
    rename_i negL
    split
    next posR =>
      have posR' : 0 < right.toInt := by simpa [Int64.lt_iff_toInt_lt] using posR
      rw [if_neg]
      rw [Int64.lt_iff_toInt_lt, toInt_i64Min_div posR, not_lt]
      have : -left.toInt ≤ 9223372036854775808 / right.toInt :=
        (Int.le_ediv_iff_mul_le posR').2 (by linarith)
      omega
    rename_i negR
    have negR' : 0 < -right.toInt := by
      rw [Int64.lt_iff_toInt_lt, Int64.toInt_zero] at negR
      omega
    rw [if_neg]
    rw [Int64.lt_iff_toInt_lt, toInt_i64Max_div, quotient, not_lt]
    have : -left.toInt ≤ 9223372036854775807 / -right.toInt :=
      (Int.le_ediv_iff_mul_le negR').2 (by linarith)
    omega

theorem negationIsSafe_iff {value : Int64} :
    negationIsSafe value = true ↔ InRange (-value.toInt) := by
  constructor
  · intro safe
    rw [← toInt_neg_of_safe safe]
    exact inRange_toInt _
  · rintro ⟨-, high⟩
    unfold negationIsSafe
    rw [if_neg]
    rintro rfl
    rw [toInt_i64Min] at high
    exact absurd high (by decide)

theorem divisionIsSafe_iff :
    divisionIsSafe left right = true ↔
      right.toInt ≠ 0 ∧ InRange (left.toInt.tdiv right.toInt) := by
  rw [divisionIsSafe, decide_eq_true_eq]
  refine and_congr (not_congr toInt_eq_zero_iff.symm) ⟨fun ne => ?_, fun inside => ?_⟩
  · rw [← toInt_div_of_ne ne]
    exact inRange_toInt _
  · by_contra both
    rw [not_or, not_not, not_not] at both
    obtain ⟨rfl, rfl⟩ := both
    exact absurd inside (by decide)

theorem shiftCountIsSafe_iff {count : Int64} :
    shiftCountIsSafe count = true ↔ 0 ≤ count.toInt ∧ count.toInt < 64 := by
  simp [shiftCountIsSafe, Int64.le_iff_toInt_le, Int64.lt_iff_toInt_lt, i64ShiftWidth]

end Guards

/-! ## The folder computes checked values -/

section Values

open BackendConstArithmetic CheckedInt64

theorem map_guarded {guard : Bool} {p : Prop} [Decidable p] {v : Int64} {n : Int}
    (accepts : guard = true ↔ p) (value : guard = true → v.toInt = n) :
    (if guard then some v else none).map Int64.toInt = if p then some n else none := by
  by_cases safe : guard = true
  · rw [if_pos safe, if_pos (accepts.1 safe), Option.map_some, value safe]
  · rw [if_neg safe, if_neg fun h => safe (accepts.2 h)]
    rfl

theorem foldConstBinaryValues_checked (left : Int64) (operator : TokenKind) (right : Int64) :
    (foldConstBinaryValues left operator right).map Int64.toInt =
      checkedBinary operator left.toInt right.toInt := by
  cases operator with
  | eqEq | bangEq | lt | gt | ltEq | gtEq | and | or | caret | pipe | ampersand =>
    exact congrArg some (foldConstBinaryValues_exact rfl).symm
  | plus => exact map_guarded addIsSafe_iff toInt_add_of_safe
  | minus => exact map_guarded subtractIsSafe_iff toInt_sub_of_safe
  | star => exact map_guarded multiplyIsSafe_iff toInt_mul_of_safe
  | slash =>
    refine (map_guarded divisionIsSafe_iff toInt_div_of_safe).trans ?_
    simp only [checkedBinary, inRange, ite_and, ite_not]
  | percent =>
    refine (map_guarded divisionIsSafe_iff fun _ => Int64.toInt_mod left right).trans ?_
    simp only [checkedBinary, inRange, ite_and, ite_not]
    split
    · rfl
    · split <;> rfl
  | lShift => exact map_guarded shiftCountIsSafe_iff toInt_shiftLeft_of_safe
  | rShift => exact map_guarded shiftCountIsSafe_iff toInt_shiftRight_of_safe
  | not | tilde | other => rfl

theorem foldConstUnaryValue_checked (operator : TokenKind) (operand : Int64) :
    (foldConstUnaryValue operator operand).map Int64.toInt =
      checkedUnary operator operand.toInt := by
  cases operator with
  | minus => exact map_guarded negationIsSafe_iff toInt_neg_of_safe
  | tilde => exact congrArg some (toInt_not operand)
  | plus => rfl
  | _ => rfl

theorem foldConstExpr_value (env : ConstEnv) (e : ConstExpr) :
    (foldConstExpr env e).map Int64.toInt = checkedValue env e := by
  induction e with
  | intLit value => rfl
  | boolLit value => exact congrArg some (toInt_flag _)
  | charLit code => exact congrArg some (toInt_charCode code)
  | ident name => rfl
  | scope module name => rfl
  | paren inner ih => exact ih
  | unary operator operand ih =>
    rw [checkedValue, ← ih, foldConstExpr]
    cases foldConstExpr env operand with
    | none => rfl
    | some value => exact foldConstUnaryValue_checked operator value
  | cast object type ih => exact ih
  | floatCast object ih => exact ih
  | binary left operator right ihl ihr =>
    rw [checkedValue, ← ihl, ← ihr, foldConstExpr]
    cases foldConstExpr env left with
    | none => rfl
    | some l =>
      cases foldConstExpr env right with
      | none => rfl
      | some r => exact foldConstBinaryValues_checked l operator r
  | other => rfl

end Values

/-! ## The folder does not trap -/

namespace Trapping

open BackendConstArithmetic CheckedInt64

theorem guarded_eq {guard : Bool} {value : Option Int64} {result : Int64} (ok : Bool)
    (there : guard = true → value = some result) :
    guarded (some guard) value ok =
      some (foldConstAtom (if guard then some result else none) ok) := by
  cases guard with
  | false => rfl
  | true =>
    rw [there rfl]
    rfl

theorem foldConstBinaryValues_eq (left : Int64) (operator : TokenKind) (right : Int64)
    (ok : Bool) :
    Trapping.foldConstBinaryValues left operator right ok =
      some (foldConstAtom (Backend.foldConstBinaryValues left operator right) ok) := by
  cases operator with
  | plus =>
    simp only [Trapping.foldConstBinaryValues, addIsSafe_eq]
    exact guarded_eq ok fun safe => add_of_exact (toInt_add_of_safe safe)
  | minus =>
    simp only [Trapping.foldConstBinaryValues, subtractIsSafe_eq]
    exact guarded_eq ok fun safe => sub_of_exact (toInt_sub_of_safe safe)
  | star =>
    simp only [Trapping.foldConstBinaryValues, multiplyIsSafe_eq]
    exact guarded_eq ok fun safe => mul_of_exact (toInt_mul_of_safe safe)
  | slash =>
    simp only [Trapping.foldConstBinaryValues, plainGuard_eq]
    exact guarded_eq ok fun safe => div_of_safe safe
  | percent =>
    simp only [Trapping.foldConstBinaryValues, plainGuard_eq]
    refine guarded_eq ok fun safe => ?_
    rw [rem, div_of_safe safe]
    rfl
  | lShift | rShift =>
    simp only [Trapping.foldConstBinaryValues, plainGuard_eq]
    refine guarded_eq ok fun safe => if_pos ?_
    rw [shiftCountIsSafe, decide_eq_true_eq] at safe
    exact safe
  | _ => rfl

theorem foldConstUnaryValue_eq (operator : TokenKind) (operandValue : Int64) (ok : Bool) :
    foldConstUnaryValue operator operandValue ok =
      some (foldConstAtom (Backend.foldConstUnaryValue operator operandValue) ok) := by
  cases operator with
  | minus =>
    simp only [foldConstUnaryValue, negationIsSafe_eq]
    refine guarded_eq ok fun safe => sub_of_exact ?_
    rw [toInt_neg_of_safe safe, Int64.toInt_zero, Int.zero_sub]
  | _ => rfl

theorem foldConstAtom_false (value : Option Int64) :
    foldConstAtom value false = (value.getD 0, false) := by
  cases value <;> rfl

/-- A run returns, leaves the flag up where there is a value, and then returns it. -/
def Folds (value : Option Int64) (ok : Bool) (run : Option (Int64 × Bool)) : Prop :=
  ∃ v, run = some (v, ok && value.isSome) ∧ (ok = true → ∀ w, value = some w → v = w)

theorem folds_atom (value : Option Int64) (ok : Bool) :
    Folds value ok (some (foldConstAtom value ok)) := by
  cases value with
  | none => exact ⟨0, by simp [foldConstAtom], fun _ w no => nomatch no⟩
  | some v => exact ⟨v, by simp [foldConstAtom], fun _ w eq => Option.some.inj eq⟩

theorem folds_of_failed {value : Option Int64} {ok : Bool} (v : Int64)
    (failed : (ok && value.isSome) = false) : Folds value ok (some (v, false)) := by
  refine ⟨v, by rw [failed], ?_⟩
  rintro rfl w rfl
  cases failed

theorem foldConstExpr_folds (env : ConstEnv) (e : ConstExpr) (ok : Bool) :
    Folds (Backend.foldConstExpr env e) ok (foldConstExpr env e ok) := by
  induction e generalizing ok with
  | intLit value => exact folds_atom (some value) ok
  | boolLit value => exact folds_atom (some _) ok
  | charLit code => exact folds_atom (some _) ok
  | ident name => exact folds_atom _ ok
  | scope module name => exact folds_atom _ ok
  | paren inner ih => exact ih ok
  | unary operator operand ih =>
    obtain ⟨v, run, same⟩ := ih ok
    simp only [foldConstExpr, run, Backend.foldConstExpr, Option.bind_eq_bind, Option.bind_some,
      foldConstUnaryValue_eq]
    cases failed : ok && (Backend.foldConstExpr env operand).isSome with
    | false =>
      rw [foldConstAtom_false]
      refine folds_of_failed _ ?_
      cases ok with
      | false => rfl
      | true =>
        rw [Bool.true_and, Option.isSome_eq_false_iff, Option.isNone_iff_eq_none] at failed
        rw [failed]
        rfl
    | true =>
      obtain ⟨rfl, there⟩ := Bool.and_eq_true_iff.1 failed
      obtain ⟨w, folded⟩ := Option.isSome_iff_exists.1 there
      rw [same rfl w folded, folded]
      exact folds_atom _ true
  | cast object type ih => exact ih ok
  | floatCast object ih => exact ih ok
  | binary left operator right ihl ihr =>
    obtain ⟨l, runL, sameL⟩ := ihl ok
    obtain ⟨r, runR, sameR⟩ := ihr (ok && (Backend.foldConstExpr env left).isSome)
    simp only [foldConstExpr, runL, runR, Option.bind_eq_bind, Option.bind_some]
    cases failed : ok && (Backend.foldConstExpr env left).isSome &&
        (Backend.foldConstExpr env right).isSome with
    | false =>
      refine folds_of_failed 0 ?_
      cases ok with
      | false => rfl
      | true =>
        simp only [Backend.foldConstExpr]
        cases valueL : Backend.foldConstExpr env left with
        | none => rfl
        | some w =>
          rw [valueL, Option.isSome_some, Bool.true_and, Bool.true_and,
            Option.isSome_eq_false_iff, Option.isNone_iff_eq_none] at failed
          rw [failed]
          rfl
    | true =>
      obtain ⟨before, thereR⟩ := Bool.and_eq_true_iff.1 failed
      obtain ⟨rfl, thereL⟩ := Bool.and_eq_true_iff.1 before
      obtain ⟨wl, valueL⟩ := Option.isSome_iff_exists.1 thereL
      obtain ⟨wr, valueR⟩ := Option.isSome_iff_exists.1 thereR
      rw [sameL rfl wl valueL, sameR before wr valueR, if_pos rfl, foldConstBinaryValues_eq,
        Backend.foldConstExpr, valueL, valueR]
      exact folds_atom _ true
  | other => exact folds_atom none ok

end Trapping

/-- The folder never traps.  Its flag tells whether the expression has a value in checked signed
64-bit arithmetic, and then the folder returns it. -/
theorem foldConstExpr_checked (env : ConstEnv) (e : ConstExpr) :
    ∃ v, Trapping.foldConstExpr env e true = some (v, (checkedValue env e).isSome) ∧
      ∀ n, checkedValue env e = some n → v.toInt = n := by
  obtain ⟨v, run, same⟩ := Trapping.foldConstExpr_folds env e true
  rw [← foldConstExpr_value]
  refine ⟨v, by simpa using run, fun n value => ?_⟩
  obtain ⟨w, folded, rfl⟩ := Option.map_eq_some_iff.1 value
  rw [same rfl w folded]

end Elisa.Backend
