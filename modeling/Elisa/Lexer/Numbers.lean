import Elisa.Lexer.Cursor
import Elisa.Lib.Steps

/-!
# Numbers

A number is read by a machine of seven states over classes of characters (`lexer_numbers.elisa`,
`lexer_number_classification.elisa`).  The class of a character depends on what is around it:
whether a dot opens a fraction, an `e` an exponent, a `0` a prefix, and whether a `_` stands between
two digits. The type suffix is looked for in the longest run of up to six alphanumeric characters
behind.
-/

namespace Elisa.Lexer

open Elisa.Lib

/-! ## Classes -/

inductive NumberClass where
  | digit | expMarkValid | expMarkOther | hexAlpha | fractionDot | otherDot | sign | hexPrefix
  | decimalSeparator | hexSeparator | other
  deriving DecidableEq

def classifyChar (character : Char) : NumberClass :=
  if isDigit character then .digit
  else if character = 'e' ∨ character = 'E' then .expMarkOther
  else if isHexDigit character then .hexAlpha
  else if character = '.' then .otherDot
  else if character = '+' ∨ character = '-' then .sign
  else .other

/-- Whether an exponent follows its mark: a digit, or a sign and a digit. -/
def LexerNumberExponent.follows (first second : Char) : Bool :=
  if first = '+' ∨ first = '-' then isDigit second else isDigit first

section Positions

variable (inp : Input) (position : Nat)

def hasFloatSuffixAt : Bool :=
  let a := inp.charAt position
  let b := inp.charAt (position + 1)
  let c := inp.charAt (position + 2)
  let d := inp.charAt (position + 3)
  if a = 'f' ∧ b = '3' then c == '2' && !isIdentifierChar d
  else if a = 'f' ∧ b = '6' then c == '4' && !isIdentifierChar d
  else false

def shouldReadFloatFraction : Bool :=
  let next := inp.charAt (position + 1)
  if inp.charAt position ≠ '.' ∨ next = '.' then false
  else if isDigit next ∨ next = nullChar then true
  else if next = 'e' ∨ next = 'E' then
    LexerNumberExponent.follows (inp.charAt (position + 2)) (inp.charAt (position + 3))
  else if hasFloatSuffixAt inp (position + 1) then true
  else !isIdentifierChar next

def exponentFollows : Bool :=
  LexerNumberExponent.follows (inp.charAt (position + 1)) (inp.charAt (position + 2))

def separatorClass : Option NumberClass :=
  if inp.charAt position = '_' ∧ 0 < position then
    let previous := Char.ofNat (inp.byteAt (position - 1))
    let following := inp.charAt (position + 1)
    if isDigit previous ∧ isDigit following then some .decimalSeparator
    else if isHexDigit previous ∧ isHexDigit following then some .hexSeparator
    else none
  else none

def classifyNumberInput : NumberClass :=
  match separatorClass inp position with
  | some separator => separator
  | none =>
    let c := inp.charAt position
    if c = '0' ∧ (inp.charAt (position + 1) = 'x' ∨ inp.charAt (position + 1) = 'X') then
      .hexPrefix
    else if c = '.' ∧ shouldReadFloatFraction inp position then .fractionDot
    else if (c = 'e' ∨ c = 'E') ∧ exponentFollows inp position then .expMarkValid
    else classifyChar c

end Positions

/-! ## The machine -/

inductive NumberState where
  | lead | whole | hex | fraction | expLead | expDigits | done
  deriving DecidableEq

/-- The cursor, what is known of the kind of the number, and the state of the machine. -/
structure NumberScan extends Cursor where
  numberKind : TokenKind
  state : NumberState

section Machine

variable (inp : Input)

def NumberScan.take (s : NumberScan) (numberKind : TokenKind) (state : NumberState) :
    NumberScan where
  toCursor := s.toCursor.advanceChar inp
  numberKind
  state

def numberStep (s : NumberScan) : Option NumberScan :=
  if s.isEndOfSource inp then none
  else
    match s.state, classifyNumberInput inp s.position with
    | .lead, .hexPrefix => some ((s.take inp .hexLit .hex).take inp .hexLit .hex)
    | .lead, _ => some { s with state := .whole }
    | .whole, .digit | .whole, .hexPrefix | .whole, .decimalSeparator =>
      some (s.take inp s.numberKind .whole)
    | .whole, .fractionDot => some (s.take inp .floatLit .fraction)
    | .whole, .expMarkValid => some (s.take inp .floatLit .expLead)
    | .whole, _ => some { s with state := .done }
    | .hex, .fractionDot | .hex, .otherDot | .hex, .sign | .hex, .other =>
      some { s with state := .done }
    | .hex, _ => some (s.take inp s.numberKind .hex)
    | .fraction, .digit | .fraction, .hexPrefix | .fraction, .decimalSeparator =>
      some (s.take inp s.numberKind .fraction)
    | .fraction, .expMarkValid => some (s.take inp s.numberKind .expLead)
    | .fraction, _ => some { s with state := .done }
    | .expLead, .sign | .expLead, .digit | .expLead, .hexPrefix =>
      some (s.take inp s.numberKind .expDigits)
    | .expLead, _ => some { s with state := .done }
    | .expDigits, .digit | .expDigits, .hexPrefix | .expDigits, .decimalSeparator =>
      some (s.take inp s.numberKind .expDigits)
    | .expDigits, _ => some { s with state := .done }
    | .done, _ => none

def runNumber (c : Cursor) : NumberScan :=
  runSteps (numberStep inp) (inp.stepsFrom c.position)
    { toCursor := c, numberKind := .intLit, state := .lead }

end Machine

/-! ## The suffix -/

def typeSuffixes : List String :=
  ["u", "u8", "u16", "u32", "u64", "usize", "i8", "i16", "i32", "i64", "isize", "f32", "f64"]

def isValidTypeSuffix (suffix : Bytes) : Bool := (typeSuffixes.map ascii).contains suffix

def probeAlphanumeric (inp : Input) (probe : Nat) : Nat :=
  if probe < inp.sourceLength ∧ isAlphanumeric (inp.charAt probe) then probe + 1 else probe

def readTypeSuffixAt (inp : Input) (start : Nat) : Option Bytes :=
  let first := inp.charAt start
  if ¬ (first = 'u' ∨ first = 'i' ∨ first = 'f') then none
  else
    let suffix := inp.view start ((probeAlphanumeric inp)^[5] (start + 1))
    if isValidTypeSuffix suffix then some suffix else none

def suffixNamesFloat (suffix : Option Bytes) : Bool :=
  suffix == some (ascii "f32") || suffix == some (ascii "f64")

def readNumber (inp : Input) (c : Cursor) : Token × Cursor :=
  let scanned := runNumber inp c
  let textEnd := scanned.position
  let suffix := readTypeSuffixAt inp textEnd
  let last := match suffix with
    | some text => scanned.toCursor.skip text.length
    | none => scanned.toCursor
  let kind :=
    if scanned.numberKind = .hexLit then .hexLit
    else if scanned.numberKind = .floatLit ∨ suffixNamesFloat suffix then .floatLit
    else .intLit
  (Token.withSuffix kind c c.position textEnd last.position, last)

end Elisa.Lexer
