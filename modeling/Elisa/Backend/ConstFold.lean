import Elisa.Bytes

/-!
# Constant folding and the code it stands for

A constant expression is computed twice.  `foldConstExpr` (`codegen_const_folding_exprs.elisa`)
carries one signed 64-bit integer through the tree and ignores every type on the way; its result is
truncated once, to the type of the place it initialises.  `emitExpression` stands for the
instructions that the backend builds for the same tree: each operand has a type of its own, casts
truncate, and signedness selects the instruction.

Integers of 8 to 64 bits and `bool`, an `i1`, take part, in the default build, where signed `+`, `-`
and `*` trap on overflow.  What the code makes of floating-point operands, which casts bring in, is
a parameter.
-/

namespace Elisa.Backend

/-! ## Checked constant arithmetic -/

namespace BackendConstArithmetic

def i64Max : Int64 := 9223372036854775807

def i64Min : Int64 := 0 - i64Max - 1

def i64ShiftWidth : Int64 := 64

def addIsSafe (left right : Int64) : Bool :=
  if 0 < right ∧ i64Max - right < left then false
  else if right < 0 ∧ left < i64Min - right then false
  else true

def subtractIsSafe (left right : Int64) : Bool :=
  if 0 < right ∧ left < i64Min + right then false
  else if right < 0 ∧ i64Max + right < left then false
  else true

def multiplyIsSafe (left right : Int64) : Bool :=
  if left = 0 ∨ right = 0 then true
  else if 0 < left then
    if 0 < right then
      if i64Max / right < left then false else true
    else if right < i64Min / left then false else true
  else if 0 < right then
    if left < i64Min / right then false else true
  else if left < i64Max / right then false else true

def divisionIsSafe (left right : Int64) : Bool :=
  right ≠ 0 ∧ (left ≠ i64Min ∨ right ≠ -1)

def remainderIsSafe (left right : Int64) : Bool :=
  right ≠ 0 ∧ (left ≠ i64Min ∨ right ≠ -1)

def negationIsSafe (value : Int64) : Bool :=
  if value = i64Min then false else true

def shiftCountIsSafe (count : Int64) : Bool :=
  0 ≤ count ∧ count < i64ShiftWidth

end BackendConstArithmetic

/-! ## Scalar types -/

inductive Width where
  | w8
  | w16
  | w32
  | w64
deriving DecidableEq

def Width.bits : Width → Nat
  | .w8 => 8
  | .w16 => 16
  | .w32 => 32
  | .w64 => 64

/-- The scalar part of `ValueType`: its kind and its bits. -/
inductive ScalarType where
  | signed (width : Width)
  | unsigned (width : Width)
  | bool
deriving DecidableEq

namespace ScalarType

def bits : ScalarType → Nat
  | signed w => w.bits
  | unsigned w => w.bits
  | bool => 1

/-- The value the low bits of `v` have at a type.  This is what `LLVMConstInt`
and a truncating cast keep of it; a `bool` is 0 or 1. -/
def wrap : ScalarType → Int → Int
  | signed w, v => v.bmod (2 ^ w.bits)
  | unsigned w, v => v % (2 ^ w.bits : Nat)
  | bool, v => v % 2

/-- How the integer instructions read an operand.  Every kind but `unsigned`
selects the signed instruction, so a true `bool` is read as `-1`. -/
def read : ScalarType → Int → Int
  | bool, v => v.bmod 2
  | _, v => v

end ScalarType

/-! ## Constant expressions -/

inductive TokenKind where
  | eqEq | bangEq | lt | gt | ltEq | gtEq
  | and | or | not
  | plus | minus | star | slash | percent
  | caret | pipe | ampersand | tilde | lShift | rShift
  | other
deriving DecidableEq

/-- The comparison tokens, those with an `icmp` predicate (`int_predicate_of`). -/
def TokenKind.isComparison : TokenKind → Bool
  | .eqEq | .bangEq | .lt | .gt | .ltEq | .gtEq => true
  | _ => false

/-- An expression as the folder sees it.  A character literal carries its code, a cast `object.T()`
the type that its name resolves to, if that is no floating-point one; `other` is everything the
folder rejects. -/
inductive ConstExpr where
  | intLit (value : Int64)
  | boolLit (value : Bool)
  | charLit (code : UInt8)
  | ident (name : Bytes)
  | scope (module name : Bytes)
  | paren (inner : ConstExpr)
  | unary (operator : TokenKind) (operand : ConstExpr)
  | cast (object : ConstExpr) (type : ScalarType)
  | floatCast (object : ConstExpr)
  | binary (left : ConstExpr) (operator : TokenKind) (right : ConstExpr)
  | other
deriving DecidableEq

structure ConstRow where
  type : ScalarType
  value : Int64
  resolved : Bool
deriving DecidableEq

/-- The row a name stands for, looked up from the current owner or from the
module that qualifies it. -/
abbrev ConstEnv := Option Bytes → Bytes → Option ConstRow

/-! ## The folder -/

open BackendConstArithmetic

def flag (p : Prop) [Decidable p] : Int64 := if p then 1 else 0

def foldConstBinaryValues (leftValue : Int64) (operator : TokenKind) (rightValue : Int64) :
    Option Int64 :=
  match operator with
  | .eqEq => some (flag (leftValue = rightValue))
  | .bangEq => some (flag (leftValue ≠ rightValue))
  | .lt => some (flag (leftValue < rightValue))
  | .gt => some (flag (rightValue < leftValue))
  | .ltEq => some (flag (leftValue ≤ rightValue))
  | .gtEq => some (flag (rightValue ≤ leftValue))
  | .and => some (flag (leftValue ≠ 0 ∧ rightValue ≠ 0))
  | .or => some (flag (leftValue ≠ 0 ∨ rightValue ≠ 0))
  | .plus => if addIsSafe leftValue rightValue then some (leftValue + rightValue) else none
  | .minus => if subtractIsSafe leftValue rightValue then some (leftValue - rightValue) else none
  | .star => if multiplyIsSafe leftValue rightValue then some (leftValue * rightValue) else none
  | .slash => if divisionIsSafe leftValue rightValue then some (leftValue / rightValue) else none
  | .percent => if remainderIsSafe leftValue rightValue then some (leftValue % rightValue) else none
  | .caret => some (leftValue ^^^ rightValue)
  | .pipe => some (leftValue ||| rightValue)
  | .ampersand => some (leftValue &&& rightValue)
  | .lShift => if shiftCountIsSafe rightValue then some (leftValue <<< rightValue) else none
  | .rShift => if shiftCountIsSafe rightValue then some (leftValue >>> rightValue) else none
  | _ => none

def foldConstUnaryValue (operator : TokenKind) (operandValue : Int64) : Option Int64 :=
  match operator with
  | .minus => if negationIsSafe operandValue then some (0 - operandValue) else none
  | .plus => some operandValue
  | .tilde => some (~~~operandValue)
  | _ => none

/-- A named constant folds to its stored value once it is resolved. -/
def foldConstRow : Option ConstRow → Option Int64
  | some row => if row.resolved then some row.value else none
  | none => none

def foldConstExpr (env : ConstEnv) : ConstExpr → Option Int64
  | .intLit value => some value
  | .boolLit value => some (flag (value = true))
  | .charLit code => some code.toUInt64.toInt64
  | .ident name => foldConstRow (env none name)
  | .scope module name => foldConstRow (env (some module) name)
  | .paren inner => foldConstExpr env inner
  | .unary operator operand => do
      let operandValue ← foldConstExpr env operand
      foldConstUnaryValue operator operandValue
  -- The cast is constant-preserving here: its type is not looked at.
  | .cast object _ | .floatCast object => foldConstExpr env object
  | .binary left operator right => do
      let leftValue ← foldConstExpr env left
      let rightValue ← foldConstExpr env right
      foldConstBinaryValues leftValue operator rightValue
  | .other => none

/-! ## Types of subexpressions -/

/-- The expression has a floating-point type. -/
def ConstExpr.isFloat : ConstExpr → Bool
  | .floatCast _ => true
  | .paren inner => inner.isFloat
  | .unary operator operand => operator ≠ .not && operand.isFloat
  | .binary left operator right =>
    !operator.isComparison && operator ≠ .and && operator ≠ .or && (left.isFloat || right.isFloat)
  | _ => false

/-- The integer type an expression has by itself; an integer literal has none. -/
def expressionType (env : ConstEnv) : ConstExpr → Option ScalarType
  | .intLit _ => none
  | .boolLit _ => some .bool
  | .charLit _ => some (.signed .w64)
  | .ident name => (env none name).map ConstRow.type
  | .scope module name => (env (some module) name).map ConstRow.type
  | .paren inner => expressionType env inner
  | .unary operator operand =>
    if operator = .not then some .bool else expressionType env operand
  | .cast _ type => some type
  | .floatCast _ => none
  | .binary left operator right =>
    if operator.isComparison ∨ operator = .and ∨ operator = .or then some .bool
    else expressionType env left <|> expressionType env right
  | .other => none

/-- The type a value will actually have: its own if known, else the context's. -/
def resolveType (env : ConstEnv) (expression : ConstExpr) (expected : ScalarType) : ScalarType :=
  (expressionType env expression).getD expected

/-- The type a binary operator computes at: the left operand's own, else the
right one's, else the context's if that is numeric. -/
def operandType (env : ConstEnv) (left right : ConstExpr) (expected : ScalarType) : ScalarType :=
  (expressionType env left <|> expressionType env right).getD
    (if expected = .bool then .signed .w64 else expected)

/-! ## The emitted code -/

/-- A value brought to a type: any integer is compared with zero to become a
`bool`; otherwise its low bits are kept, and a wider type gets the value itself. -/
def emitConversion : ScalarType → Int → Int
  | .bool, v => if v = 0 then 0 else 1
  | type, v => type.wrap v

/-- The result of signed `+`, `-` and `*`: a value out of range traps. -/
def emitCheckedIntBinary (type : ScalarType) (result : Int) : Option Int :=
  if result.bmod (2 ^ type.bits) = result then some (type.wrap result) else none

/-- Unsigned arithmetic wraps, any other is checked. -/
def emitArithmetic (type : ScalarType) (result : Int) : Option Int :=
  match type with
  | .unsigned w => some ((ScalarType.unsigned w).wrap result)
  | type => emitCheckedIntBinary type result

/-- Division and remainder are undefined on a zero divisor, and where the signed
quotient does not fit. -/
def emitDivision (type : ScalarType) (left right result : Int) : Option Int :=
  if right = 0 then none
  else
    match type with
    | .unsigned w => some ((ScalarType.unsigned w).wrap result)
    | type =>
      if (left.tdiv right).bmod (2 ^ type.bits) = left.tdiv right then some (type.wrap result)
      else none

/-- A shift by the width or more is undefined. -/
def emitShift (type : ScalarType) (count : Int) (result : Nat → Int) : Option Int :=
  let count := (count % (2 ^ type.bits : Nat)).toNat
  if count < type.bits then some (type.wrap (result count)) else none

def bit (p : Prop) [Decidable p] : Int := if p then 1 else 0

def emitBinary (type : ScalarType) (operator : TokenKind) (left right : Int) : Option Int :=
  let l := type.read left
  let r := type.read right
  let bits := BitVec.ofInt type.bits
  match operator with
  | .plus => emitArithmetic type (l + r)
  | .minus => emitArithmetic type (l - r)
  | .star => emitArithmetic type (l * r)
  | .ampersand => some (type.wrap (bits l &&& bits r).toInt)
  | .pipe => some (type.wrap (bits l ||| bits r).toInt)
  | .caret => some (type.wrap (bits l ^^^ bits r).toInt)
  | .lShift => emitShift type r fun count => l * 2 ^ count
  | .slash => emitDivision type l r (l.tdiv r)
  | .percent => emitDivision type l r (l.tmod r)
  | .rShift => emitShift type r fun count => l >>> count
  | .eqEq => some (bit (l = r))
  | .bangEq => some (bit (l ≠ r))
  | .lt => some (bit (l < r))
  | .gt => some (bit (r < l))
  | .ltEq => some (bit (l ≤ r))
  | .gtEq => some (bit (r ≤ l))
  | _ => none

/-- The unary instructions; none of them checks for overflow. -/
def emitUnary (type : ScalarType) (operator : TokenKind) (operand : Int) : Option Int :=
  match operator with
  | .plus => some operand
  | .minus => some (type.wrap (-operand))
  | .tilde => some (type.wrap (-operand - 1))
  | _ => none

/-- A named constant is emitted as its value truncated to its type. -/
def emitConstRow : Option ConstRow → Option Int
  | some row => if row.resolved then some (row.type.wrap row.value.toInt) else none
  | none => none

/-- What is left open: the value of an expression with a floating-point operand. -/
abbrev FloatCode := ScalarType → ConstExpr → Option Int

/-- The value at run time, in the type `resolveType` gives in its context; `none` where the backend
declines it or the code traps.  A character literal is taken at its own type first. -/
def emitExpression (env : ConstEnv) (floats : FloatCode) (expected : ScalarType) :
    ConstExpr → Option Int
  | .intLit value => some (emitConversion expected value.toInt)
  | .boolLit value => some (bit (value = true))
  | .charLit code => some (code.toNat : Int)
  | .ident name => emitConstRow (env none name)
  | .scope module name => emitConstRow (env (some module) name)
  | .paren inner => emitExpression env floats expected inner
  | .floatCast object => floats expected (.floatCast object)
  | .unary operator operand =>
    if operand.isFloat then floats expected (.unary operator operand)
    else if operator = .not then do
      -- `not x` is an exclusive or with 1, on a `bool` operand.
      let value ← emitExpression env floats .bool operand
      if resolveType env operand .bool = .bool then some (bit (value = 0)) else none
    else do
      let type := resolveType env operand expected
      if type = .bool then none
      else
        let value ← emitExpression env floats type operand
        emitUnary type operator value
  | .cast object type =>
    if object.isFloat then floats expected (.cast object type)
    else do
      let value ← emitExpression env floats (.signed .w64) object
      some (emitConversion type value)
  | .binary left operator right =>
    if left.isFloat || right.isFloat then floats expected (.binary left operator right)
    else if operator = .and ∨ operator = .or then
      -- A condition of any other type than `bool` is declined.
      if resolveType env left .bool = .bool ∧ resolveType env right .bool = .bool then do
        let l ← emitExpression env floats .bool left
        if operator = .and then
          if l = 0 then some 0 else emitExpression env floats .bool right
        else
          if l = 0 then emitExpression env floats .bool right else some 1
      else none
    -- Arithmetic on literals where a `bool` is expected is computed as an `i64`,
    -- which a condition rejects.
    else if operator.isComparison ∨
        resolveType env (.binary left operator right) expected =
          operandType env left right expected then do
      let type := operandType env left right expected
      let l ← emitExpression env floats type left
      let r ← emitExpression env floats type right
      emitBinary type operator l (emitConversion type r)
    else none
  | .other => none

end Elisa.Backend
