import Elisa.Bytes
import Elisa.Lib.Binary64
import Elisa.Lib.CheckedInt64
import Elisa.Lib.DecimalDigits
import Elisa.Lib.Outcome

/-!
# The range of constant float casts

A constant cast of a float literal to an integer type is out of range if the literal, rounded to
binary64 and truncated, is no value of the type.  The compiler compares the text of the literal with
a decimal instead, the midpoint from which on rounding leaves the range
(`const_float_cast_range.elisa`): of two texts the one whose first digit other than zero stands for
the higher power of ten is greater, else the digits decide.  Signed 64-bit arithmetic traps: where
the power of the first digit does not fit, while the exponent does.
-/

namespace Elisa.Semantic.FloatCastRange

open Elisa.Lib Outcome

/-! ## Tables -/

def decimalIsExponentMarker (byte : UInt8) : Bool := byte == 101 || byte == 69

def decimalIsDigit (byte : UInt8) : Bool := decide (48 ≤ byte) && decide (byte ≤ 57)

def decimalExponentSign (byte : UInt8) : Int :=
  if byte = 45 then -1 else if byte = 43 then 1 else 0

/-- The integer types, with those that are as wide as a pointer. -/
inductive IntegerType where
  | i8 | i16 | i32 | i64 | int | isize | u8 | u16 | u32 | u64 | usize | uintptr
  deriving DecidableEq

def IntegerType.name : IntegerType → String
  | .i8 => "i8" | .i16 => "i16" | .i32 => "i32" | .i64 => "i64" | .int => "int" | .isize => "isize"
  | .u8 => "u8" | .u16 => "u16" | .u32 => "u32" | .u64 => "u64" | .usize => "usize"
  | .uintptr => "uintptr"

def integerTypes : List IntegerType :=
  [.i8, .i16, .i32, .i64, .int, .isize, .u8, .u16, .u32, .u64, .usize, .uintptr]

/-- The type that a name stands for. -/
def integerTypeNamed (target : Bytes) : Option IntegerType :=
  integerTypes.find? fun integerType => decide (ascii integerType.name = target)

def signedBoundary (bits : Nat) (negative : Bool) : String :=
  if bits = 8 then
    if negative then "128.9999999999999857891452847979962825775146484375"
    else "127.99999999999999289457264239899814128875732421875"
  else if bits = 16 then
    if negative then "32768.99999999999636202119290828704833984375"
    else "32767.999999999998181010596454143524169921875"
  else if bits = 32 then
    if negative then "2147483648.9999997615814208984375"
    else "2147483647.99999988079071044921875"
  else
    if negative then "9223372036854776832" else "9223372036854775296"

def unsignedBoundary (bits : Nat) (negative : Bool) : String :=
  if negative then "0.999999999999999944488848768742172978818416595458984375"
  else if bits = 8 then "255.9999999999999857891452847979962825775146484375"
  else if bits = 16 then "65535.99999999999636202119290828704833984375"
  else if bits = 32 then "4294967295.9999997615814208984375"
  else "18446744073709550592"

def IntegerType.boundary (integerType : IntegerType) (negative : Bool) (pointerBits : Nat) :
    String :=
  match integerType with
  | .i8 => signedBoundary 8 negative
  | .i16 => signedBoundary 16 negative
  | .i32 => signedBoundary 32 negative
  | .i64 => signedBoundary 64 negative
  | .int | .isize => if pointerBits = 32 then signedBoundary 32 negative
      else signedBoundary 64 negative
  | .u8 => unsignedBoundary 8 negative
  | .u16 => unsignedBoundary 16 negative
  | .u32 => unsignedBoundary 32 negative
  | .u64 => unsignedBoundary 64 negative
  | .usize | .uintptr =>
    if pointerBits = 32 then unsignedBoundary 32 negative else unsignedBoundary 64 negative

/-- The rounding midpoint at the edge of the truncating conversion range; empty for other types. -/
def floatCastRoundingBoundary (target : Bytes) (negative : Bool) (pointerBits : Nat) : Bytes :=
  match integerTypeNamed target with
  | some integerType => ascii (integerType.boundary negative pointerBits)
  | none => []

/-! ## Scans -/

/-- What a scan of a boundary knows. -/
structure LimitScan where
  decimalPosition : Nat
  totalDigits : Nat
  firstNonzero : Nat
  firstNonzeroSource : Nat
  hasNonzero : Bool
  deriving DecidableEq

def scanLimit : Bytes → Nat → LimitScan → LimitScan
  | [], _, s => s
  | byte :: rest, scan, s =>
    if byte = 46 then scanLimit rest (scan + 1) { s with decimalPosition := scan }
    else
      let s := if !s.hasNonzero && byte != 48 then
          { s with hasNonzero := true, firstNonzero := s.totalDigits, firstNonzeroSource := scan }
        else s
      scanLimit rest (scan + 1) { s with totalDigits := s.totalDigits + 1 }

/-- What a scan of a literal knows; it stops at an exponent. -/
structure TextScan where
  exponentPosition : Nat
  afterDecimal : Bool
  wholeDigits : Nat
  totalDigits : Nat
  firstNonzeroDigit : Nat
  firstNonzeroSource : Nat
  hasNonzero : Bool
  deriving DecidableEq

def scanText : Bytes → Nat → TextScan → TextScan
  | [], _, s => s
  | byte :: rest, scan, s =>
    if decimalIsExponentMarker byte then { s with exponentPosition := scan }
    else if byte = 46 then scanText rest (scan + 1) { s with afterDecimal := true }
    else if byte ≠ 95 then
      let s := if !s.afterDecimal then { s with wholeDigits := s.wholeDigits + 1 } else s
      let s := if !s.hasNonzero && byte != 48 then
          { s with
            hasNonzero := true, firstNonzeroDigit := s.totalDigits, firstNonzeroSource := scan }
        else s
      scanText rest (scan + 1) { s with totalDigits := s.totalDigits + 1 }
    else scanText rest (scan + 1) s

def exponentStart (text : Bytes) (exponentPosition : Nat) : Nat × Bool :=
  if exponentPosition < text.length then
    match text[exponentPosition + 1]? with
    | some byte =>
      if decimalExponentSign byte ≠ 0 then
        (exponentPosition + 1 + 1, decide (decimalExponentSign byte < 0))
      else (exponentPosition + 1, false)
    | none => (exponentPosition + 1, false)
  else (exponentPosition, false)

def checked (value : Int) : Outcome Int :=
  if CheckedInt64.InRange value then ok value else fault .overflow

def toI64 (n : Nat) : Int := Int.bmod n (2 ^ 64)

structure ExponentScan where
  magnitude : Int
  overflow : Bool
  digits : Nat
  deriving DecidableEq

/-- The digits of an exponent; a byte that is none ends the comparison. -/
def scanExponent : Bytes → ExponentScan → Outcome ExponentScan
  | [], s => ok s
  | byte :: rest, s =>
    if byte ≠ 95 then do
      require (decimalIsDigit byte)
      let digit : Int := (byte - 48).toNat
      let s := { s with digits := s.digits + 1 }
      if !s.overflow then
        if s.magnitude > 922337203685477580 ∨ (s.magnitude = 922337203685477580 ∧ digit > 7) then
          scanExponent rest { s with overflow := true }
        else
          let scaled ← checked (s.magnitude * 10)
          let magnitude ← checked (scaled + digit)
          scanExponent rest { s with magnitude }
      else scanExponent rest s
    else scanExponent rest s

/-! ## The comparison -/

def nextDigit (separates : UInt8 → Bool) (bytes : Bytes) : UInt8 × Bytes :=
  let bytes := match bytes with
    | byte :: rest => if separates byte then rest else bytes
    | [] => []
  match bytes with
  | digit :: rest => (digit, rest)
  | [] => (48, [])

def separatesText (byte : UInt8) : Bool := byte == 46 || byte == 95

def separatesLimit (byte : UInt8) : Bool := byte == 46

theorem nextDigit_length (separates : UInt8 → Bool) (bytes : Bytes) :
    (nextDigit separates bytes).2.length ≤ bytes.length - 1 := by
  cases bytes with
  | nil => simp [nextDigit]
  | cons byte rest =>
    rw [nextDigit]
    cases h : separates byte with
    | false => simp
    | true => cases rest <;> simp

/-- The digits of the texts from the cursors on, one by one. -/
def compareFrom (source limit : Bytes) : Int :=
  if 0 < source.length ∨ 0 < limit.length then
    let sourceDigit := (nextDigit separatesText source).1
    let limitDigit := (nextDigit separatesLimit limit).1
    if sourceDigit > limitDigit then 1
    else if sourceDigit < limitDigit then -1
    else compareFrom (nextDigit separatesText source).2 (nextDigit separatesLimit limit).2
  else 0
termination_by source.length + limit.length
decreasing_by
  have := nextDigit_length separatesText source
  have := nextDigit_length separatesLimit limit
  omega

/-- The position of the decimal point behind the exponent; one that is too large counts as
greater. -/
def scaledPosition (negative : Bool) (wholeDigits magnitude : Int) : Outcome Int :=
  if negative then checked (wholeDigits - magnitude)
  else do
    let room ← checked (9223372036854775807 - wholeDigits)
    require (decide (magnitude ≤ room))
    checked (wholeDigits + magnitude)

def compareOrders (text limit : Bytes) (t : TextScan) (l : LimitScan) (decimalPosition : Int) :
    Outcome (Int × Bool) := do
  let inputOrder ← checked (decimalPosition - toI64 t.firstNonzeroDigit)
  let limitOrder ← checked (toI64 l.decimalPosition - toI64 l.firstNonzero)
  if inputOrder > limitOrder then ok (1, false)
  else if inputOrder < limitOrder then ok (-1, false)
  else ok (compareFrom ((text.take t.exponentPosition).drop t.firstNonzeroSource)
    (limit.drop l.firstNonzeroSource), false)

/-- The comparison once both texts have a digit that is not zero. -/
def compareScaled (text limit : Bytes) (t : TextScan) (l : LimitScan) : Outcome (Int × Bool) := do
  let start := exponentStart text t.exponentPosition
  let e ← scanExponent (text.drop start.1) ⟨0, false, 0⟩
  if t.exponentPosition < text.length ∧ e.digits = 0 then ok (1, false)
  else if e.overflow && start.2 then ok (-1, false)
  else if e.overflow then ok (1, false)
  else do
    let decimalPosition ← scaledPosition start.2 (toI64 t.wholeDigits) e.magnitude
    compareOrders text limit t l decimalPosition

/-- What is given up counts as greater. -/
def orGreater (result : Outcome (Int × Bool)) : Outcome (Int × Bool) :=
  match result with
  | invalid => ok (1, false)
  | result => result

/-- The comparison of a literal with a boundary, and whether the literal is zero. -/
def decimalValueCompare (text limit : Bytes) : Outcome (Int × Bool) :=
  let l := scanLimit limit 0 ⟨limit.length, 0, 0, 0, false⟩
  let t := scanText text 0 ⟨text.length, false, 0, 0, 0, 0, false⟩
  if !t.hasNonzero then ok (-1, true)
  else if !l.hasNonzero then ok (1, false)
  else orGreater (compareScaled text limit t l)

def isSigned64 (target : Bytes) (pointerBits : Nat) : Bool :=
  target == ascii "i64" ||
    ((target == ascii "int" || target == ascii "isize") && pointerBits == 64)

def castOutOfRange (target : Bytes) (negative : Bool) (text : Bytes) (pointerBits : Nat) :
    Outcome Bool :=
  if text = [] then ok false
  else
    let boundary := floatCastRoundingBoundary target negative pointerBits
    if boundary = [] then ok false
    else do
      let magnitude ← decimalValueCompare text boundary
      if negative && isSigned64 target pointerBits then return decide (magnitude.1 > 0)
      return decide (magnitude.1 ≥ 0)

end Elisa.Semantic.FloatCastRange
