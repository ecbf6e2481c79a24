import Elisa.Frontend.Ast

/-!
# Which arms can be reached

What the checks of matches read off a match without knowing any types: the conditions and scrutinees
that are literals, the patterns that match a literal or everything, and from these the arms that an
earlier arm leaves no value for (`pattern_reachability.elisa`, `catch_totality.elisa`).
-/

namespace Elisa.Semantic.Progress

open Ast Lexer

/-! ## Catch markers -/

/-- The row a parser leaves at the position of a statement `catch`. -/
structure CatchMarker where
  owner : Bytes
  name : Bytes
  line : Nat
  offset : Nat
  module : Bytes

/-- `RegionEscapeCatchContext` -/
structure CatchContext where
  markers : List CatchMarker
  lexicalModule : Bytes

def CatchContext.empty : CatchContext := ⟨[], []⟩

def CatchContext.markerMatches (context : CatchContext) (position : Pos) : Bool :=
  context.markers.any fun marker =>
    marker.owner = ascii "__catch_match" && marker.name = ascii "__catch_match" &&
      marker.line = position.line && marker.offset = position.offset &&
      marker.module = context.lexicalModule

/-! ## Literals -/

/-- The value of a condition that is a literal, if it is one. -/
def literalBool : Expr → Option Bool
  | .boolLit value => some value
  | .paren inner => literalBool inner
  | .unary .kwNot operand => (literalBool operand).map not
  | .binary left .kwAnd right =>
    match literalBool left with
    | some false => some false
    | some true => literalBool right
    | none => if literalBool right = some false then some false else none
  | .binary left .kwOr right =>
    match literalBool left with
    | some true => some true
    | some false => literalBool right
    | none => if literalBool right = some true then some true else none
  | _ => none

def literalInt : Expr → Option Int
  | .intLit value => some value.toInt
  | .paren inner => literalInt inner
  | .unary .minus (.intLit magnitude) =>
    if 0 ≤ magnitude.toInt then some (0 - magnitude.toInt) else none
  | _ => none

/-- The digits of a decimal, behind the sign.  A digit that leaves 64 bits ends the reading. -/
def decimalDigits (negative : Bool) : Bytes → Int → Bool → Option Int
  | [], value, hasDigit => if hasDigit then some value else none
  | byte :: rest, value, hasDigit =>
    if byte = 95 then decimalDigits negative rest value hasDigit
    else if 48 ≤ byte ∧ byte ≤ 57 then
      let digit : Int := byte.toNat - 48
      if negative then
        if value < -922337203685477580 ∨ (value = -922337203685477580 ∧ 8 < digit) then none
        else decimalDigits negative rest (value * 10 - digit) true
      else
        if 922337203685477580 < value ∨ (value = 922337203685477580 ∧ 7 < digit) then none
        else decimalDigits negative rest (value * 10 + digit) true
    else none

def decimalPatternValue (text : Bytes) : Option Int :=
  let negative := text.head? = some 45
  decimalDigits negative (if negative then text.drop 1 else text) 0 false

/-- An array, a tuple, a set, a dictionary or a text without elements. -/
def emptyIterable : Expr → Bool
  | .array elements | .tuple elements | .setLit elements => elements.isEmpty
  | .dictLit entries => entries.isEmpty
  | .stringLit text => text.isEmpty
  | .paren inner => emptyIterable inner
  | _ => false

/-! ## Patterns -/

/-- What is known about a pattern and a literal. -/
structure PatternMatch where
  known : Bool
  matched : Bool

mutual

/-- Whether a pattern proves that it does or does not match a literal: `literal` says it of
literal patterns. -/
def patternMatches (literal : Bytes → PatternMatch) : Pattern → PatternMatch
  | .wildcard | .binding _ => ⟨true, true⟩
  | .literal text => literal text
  | .or options => optionsMatch literal options ⟨!options.isEmpty, false⟩
  | .asName _ [inner] => patternMatches literal inner
  | _ => ⟨false, false⟩

def optionsMatch (literal : Bytes → PatternMatch) : List Pattern → PatternMatch → PatternMatch
  | [], so_far => so_far
  | option :: rest, so_far =>
    let found := patternMatches literal option
    optionsMatch literal rest ⟨so_far.known && found.known, so_far.matched || found.matched⟩

end

def boolPatternMatches (pattern : Pattern) (value : Bool) : PatternMatch :=
  patternMatches (fun text =>
    if text = ascii "true" then ⟨true, value⟩
    else if text = ascii "false" then ⟨true, !value⟩
    else ⟨false, false⟩) pattern

def intPatternMatches (pattern : Pattern) (value : Int) : PatternMatch :=
  patternMatches (fun text =>
    match decimalPatternValue text with
    | some literal => ⟨true, literal = value⟩
    | none => ⟨false, false⟩) pattern

mutual

def patternIsIrrefutable : Pattern → Bool
  | .wildcard | .binding _ => true
  | .tuple elements => !elements.isEmpty && allIrrefutable elements
  | .asName _ [inner] => patternIsIrrefutable inner
  | .or options => anyIrrefutable options
  | _ => false

def allIrrefutable : List Pattern → Bool
  | [] => true
  | element :: rest => patternIsIrrefutable element && allIrrefutable rest

def anyIrrefutable : List Pattern → Bool
  | [] => false
  | option :: rest => patternIsIrrefutable option || anyIrrefutable rest

end

mutual

/-- The patterns of a catch that match every error: `error name` is one. -/
def catchPatternIsIrrefutable : Pattern → Bool
  | .wildcard => true
  | .typeBind type _ => type = ascii "error"
  | .asName _ [inner] => catchPatternIsIrrefutable inner
  | .or options => anyCatchIrrefutable options
  | _ => false

def anyCatchIrrefutable : List Pattern → Bool
  | [] => false
  | option :: rest => catchPatternIsIrrefutable option || anyCatchIrrefutable rest

end

/-! ## Arms -/

def unconditional (arm : MatchArm) : Bool := arm.guard.isAbsent || literalBool arm.guard = some true

/-- Whether a value is left for an arm of a match on a literal: `matches` says what the patterns
are known to do with it. -/
def literalArmReachable (found : Pattern → PatternMatch) (covers : Pattern → Bool)
    (arms : List MatchArm) (target : Nat) : Bool :=
  !(arms.take target).any (fun prior => unconditional prior &&
      ((found prior.pattern).known && (found prior.pattern).matched || covers prior.pattern)) &&
    match arms[target]? with
    | some arm => !(found arm.pattern).known || (found arm.pattern).matched
    | none => true

def matchArmReachable (scrutinee : Expr) (arms : List MatchArm) (target : Nat) : Bool :=
  match literalBool scrutinee, literalInt scrutinee with
  | none, some value =>
    literalArmReachable (intPatternMatches · value) patternIsIrrefutable arms target
  | some value, _ => literalArmReachable (boolPatternMatches · value) (fun _ => false) arms target
  | none, none => !(arms.take target).any fun prior =>
    unconditional prior && patternIsIrrefutable prior.pattern

def catchArmReachable (arms : List MatchArm) (target : Nat) : Bool :=
  target = 0 || !((arms.take target).drop 1).any fun prior =>
    unconditional prior && catchPatternIsIrrefutable prior.pattern

end Elisa.Semantic.Progress
