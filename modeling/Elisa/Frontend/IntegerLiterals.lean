import Elisa.Lexer.NumberTexts
import Mathlib.Data.Nat.Digits.Defs

/-!
# The values of integer literals

`parse_int_literal_value` (`parser_integer_literal.elisa`) reads the text of an integer literal into
64 bits, and stays at the greatest value once it is exceeded.  Separators are skipped, and a byte
that is no digit ends the reading with 0.  On the texts that the lexer reads as integer literals it
never ends so (`parseIntLiteralFrom_eq`).
-/

namespace Elisa.Frontend

open Lexer List

/-! ## Reading -/

def literalDigit (isHex : Bool) (byte : UInt8) : Option Nat :=
  if 48 ≤ byte ∧ byte ≤ 57 then some (byte.toNat - 48)
  else if isHex ∧ 97 ≤ byte ∧ byte ≤ 102 then some (byte.toNat - 97 + 10)
  else if isHex ∧ 65 ≤ byte ∧ byte ≤ 70 then some (byte.toNat - 65 + 10)
  else none

def literalBase (isHex : Bool) : Nat := if isHex then 16 else 10

def literalMaximum : Nat := 18446744073709551615

def saturatingDigit (isHex : Bool) (value digit : Nat) : Nat :=
  if (literalMaximum - digit) / literalBase isHex < value then literalMaximum
  else value * literalBase isHex + digit

/-- One round of the loop, which a malformed byte ends. -/
def parseIntLiteralStep (isHex : Bool) (value : Nat) (byte : UInt8) : Option Nat :=
  if byte = 95 then some value else (literalDigit isHex byte).map (saturatingDigit isHex value)

def parseIntLiteralFrom (isHex : Bool) : Bytes → Nat → Option Nat
  | [], value => some value
  | byte :: rest, value =>
    (parseIntLiteralStep isHex value byte).bind fun next => parseIntLiteralFrom isHex rest next

def startsHex (text : Bytes) : Bool :=
  text.length ≥ 2 ∧ text[0]? = some 48 ∧ (text[1]? = some 120 ∨ text[1]? = some 88)

def parseIntLiteral (text : Bytes) : Option Nat :=
  parseIntLiteralFrom (startsHex text) (if startsHex text then text.drop 2 else text) 0

def parseIntLiteralValue (text : Bytes) : Int64 := Int64.ofNat ((parseIntLiteral text).getD 0)

/-! ## The value of a text -/

def numeralFrom (isHex : Bool) (value : Nat) (text : Bytes) : Nat :=
  text.foldl (fun value byte =>
    match literalDigit isHex byte with
    | some digit => value * literalBase isHex + digit
    | none => value) value

def isLiteralByte (isHex : Bool) (byte : UInt8) : Bool :=
  byte = 95 || (literalDigit isHex byte).isSome

variable {isHex : Bool} {text : Bytes}

theorem literalDigit_lt {byte : UInt8} {digit : Nat} (h : literalDigit isHex byte = some digit) :
    digit < literalBase isHex := by
  unfold literalDigit at h
  split at h
  next decimal =>
    obtain rfl := Option.some.inj h
    have := UInt8.le_iff_toNat_le.mp decimal.2
    cases isHex with
    | true => simp [literalBase] at *; omega
    | false => simp [literalBase] at *; omega
  split at h
  next lower =>
    obtain rfl := Option.some.inj h
    have := UInt8.le_iff_toNat_le.mp lower.2.2
    rw [lower.1]
    simp [literalBase] at *
    omega
  split at h
  next upper =>
    obtain rfl := Option.some.inj h
    have := UInt8.le_iff_toNat_le.mp upper.2.2
    rw [upper.1]
    simp [literalBase] at *
    omega
  next => cases h

theorem literalDigit_separator : literalDigit isHex 95 = none := by
  cases isHex <;> decide

theorem saturatingDigit_min {digit : Nat} (value : Nat) (small : digit < literalBase isHex) :
    saturatingDigit isHex (min value literalMaximum) digit =
      min (value * literalBase isHex + digit) literalMaximum := by
  have positive : 0 < literalBase isHex := Nat.lt_of_le_of_lt (Nat.zero_le _) small
  have bound : digit ≤ literalMaximum := by
    have : literalBase isHex ≤ 16 := by cases isHex <;> decide
    exact Nat.le_trans (Nat.le_of_lt small) (Nat.le_trans this (by decide))
  have saturates (v : Nat) : (literalMaximum - digit) / literalBase isHex < v ↔
      literalMaximum < v * literalBase isHex + digit := by
    rw [Nat.div_lt_iff_lt_mul positive]
    omega
  rw [saturatingDigit, if_congr (saturates _) rfl rfl]
  rcases Nat.le_total value literalMaximum with le | ge
  · rw [Nat.min_eq_left le]
    split
    next past => rw [Nat.min_eq_right (Nat.le_of_lt past)]
    next fits => rw [Nat.min_eq_left (Nat.not_lt.mp fits)]
  -- From the maximum on, only the maximum itself is left.
  have larger : literalMaximum ≤ value * literalBase isHex + digit :=
    Nat.le_trans ge (Nat.le_trans (Nat.le_mul_of_pos_right value positive) (Nat.le_add_right _ _))
  have least : literalMaximum ≤ literalMaximum * literalBase isHex + digit :=
    Nat.le_trans (Nat.le_mul_of_pos_right _ positive) (Nat.le_add_right _ _)
  rw [Nat.min_eq_right ge, Nat.min_eq_right larger]
  split
  next => rfl
  next fits => exact Nat.le_antisymm (Nat.not_lt.mp fits) least

theorem parseIntLiteralFrom_eq (value : Nat)
    (literal : ∀ byte ∈ text, isLiteralByte isHex byte = true) :
    parseIntLiteralFrom isHex text (min value literalMaximum) =
      some (min (numeralFrom isHex value text) literalMaximum) := by
  induction text generalizing value with
  | nil => rfl
  | cons byte rest ih =>
    rw [parseIntLiteralFrom, parseIntLiteralStep, numeralFrom, foldl_cons]
    have later := fun b mem => literal b (mem_cons_of_mem _ mem)
    split
    next separator =>
      rw [separator, literalDigit_separator]
      exact ih value later
    rename_i other
    have here := literal byte mem_cons_self
    rw [isLiteralByte, decide_eq_false other, Bool.false_or, Option.isSome_iff_exists] at here
    obtain ⟨digit, eq⟩ := here
    rw [eq, Option.map_some, Option.bind_some, saturatingDigit_min value (literalDigit_lt eq)]
    exact ih _ later

/-! ## The texts that the lexer reads -/

theorem isDigit_iff (character : Char) :
    isDigit character = true ↔ 48 ≤ character.toNat ∧ character.toNat ≤ 57 := by
  rw [isDigit, decide_eq_true_eq]
  exact Iff.rfl

theorem isHexDigit_iff (character : Char) :
    isHexDigit character = true ↔ (48 ≤ character.toNat ∧ character.toNat ≤ 57) ∨
      (97 ≤ character.toNat ∧ character.toNat ≤ 102) ∨
      (65 ≤ character.toNat ∧ character.toNat ≤ 70) := by
  rw [isHexDigit, Bool.or_eq_true, Bool.or_eq_true, isDigit_iff, decide_eq_true_eq,
    decide_eq_true_eq, or_assoc]
  exact Iff.rfl

theorem toNat_charAt_ofText {i : Nat} {byte : UInt8} (here : text[i]? = some byte) :
    ((Input.ofText text).charAt i).toNat = byte.toNat := by
  obtain ⟨inside, eq⟩ := List.getElem?_eq_some_iff.mp here
  rw [toNat_charAt (show i < (Input.ofText text).sourceLength from inside), Input.byteAt,
    Input.ofText]
  simp [here]

theorem isLiteralByte_of_decimal {i : Nat} {byte : UInt8} (here : text[i]? = some byte)
    (place : DecimalPlace (.ofText text) i) : isLiteralByte false byte = true := by
  have code := toNat_charAt_ofText here
  rcases place.2 with digit | separator
  · rw [isDigit_iff, code] at digit
    have range : 48 ≤ byte ∧ byte ≤ 57 := by
      simp only [UInt8.le_iff_toNat_le]
      exact digit
    simp [isLiteralByte, literalDigit, range]
  · rw [underscore_of_separator (by rw [separator]; rfl)] at code
    have underscore : byte = 95 := UInt8.toNat_inj.mp code.symm
    simp [isLiteralByte, underscore]

theorem isLiteralByte_of_hex {i : Nat} {byte : UInt8} (here : text[i]? = some byte)
    (place : HexPlace (.ofText text) i) : isLiteralByte true byte = true := by
  have code := toNat_charAt_ofText here
  rcases place.2 with digit | separator
  · rw [isHexDigit_iff, code] at digit
    have range : (48 ≤ byte ∧ byte ≤ 57) ∨ (97 ≤ byte ∧ byte ≤ 102) ∨ (65 ≤ byte ∧ byte ≤ 70) := by
      simp only [UInt8.le_iff_toNat_le]
      exact digit
    rcases range with decimal | lower | upper
    · simp [isLiteralByte, literalDigit, decimal]
    · rw [isLiteralByte, literalDigit]
      split_ifs <;> simp_all
    · rw [isLiteralByte, literalDigit]
      split_ifs <;> simp_all
  · rw [underscore_of_separator separator] at code
    have underscore : byte = 95 := UInt8.toNat_inj.mp code.symm
    simp [isLiteralByte, underscore]

theorem charAt_ofText_iff {i : Nat} {byte : UInt8} {character : Char}
    (code : character.toNat = byte.toNat) (some : character ≠ nullChar) :
    (Input.ofText text).charAt i = character ↔ text[i]? = .some byte := by
  constructor
  · intro eq
    have inside : i < (Input.ofText text).sourceLength := Input.lt_of_charAt_ne (eq ▸ some)
    have here : text[i]? = .some text[i] := getElem?_eq_getElem inside
    have same := toNat_charAt_ofText here
    rw [eq, code] at same
    rw [here, UInt8.toNat_inj.mp same.symm]
  · intro here
    exact Char.toNat_inj.mp ((toNat_charAt_ofText here).trans code.symm)

theorem startsHex_iff : startsHex text = true ↔ HexPrefixAt (.ofText text) 0 := by
  have zero : (Input.ofText text).charAt 0 = '0' ↔ text[0]? = some 48 :=
    charAt_ofText_iff rfl (by decide)
  have small : (Input.ofText text).charAt 1 = 'x' ↔ text[1]? = some 120 :=
    charAt_ofText_iff rfl (by decide)
  have capital : (Input.ofText text).charAt 1 = 'X' ↔ text[1]? = some 88 :=
    charAt_ofText_iff rfl (by decide)
  rw [startsHex, decide_eq_true_eq, HexPrefixAt, zero, small, capital]
  refine and_iff_right_of_imp fun present => ?_
  rcases present.2 with second | second
  · have := (List.getElem?_eq_some_iff.mp second).1
    omega
  · have := (List.getElem?_eq_some_iff.mp second).1
    omega

theorem isLiteralByte_of_hexText (hex : HexText text) :
    ∀ byte ∈ text.drop 2, isLiteralByte true byte = true := by
  intro byte mem
  obtain ⟨i, here⟩ := mem_iff_getElem?.mp mem
  rw [getElem?_drop] at here
  obtain ⟨inside, -⟩ := List.getElem?_eq_some_iff.mp here
  exact isLiteralByte_of_hex here (hex.2.2 (2 + i) (Nat.le_add_right _ _) inside)

/-- The number that a text spells, separators skipped. -/
def literalNumeral (text : Bytes) : Nat :=
  numeralFrom (startsHex text) 0 (if startsHex text then text.drop 2 else text)

theorem parseIntLiteral_eq (literal : DecimalText text ∨ HexText text) :
    parseIntLiteral text = some (min (literalNumeral text) literalMaximum) := by
  rw [parseIntLiteral, literalNumeral]
  rcases literal with ⟨-, decimal, run⟩ | ⟨hex, run⟩
  · rw [← startsHex_iff, Bool.not_eq_true] at decimal
    simp only [decimal, Bool.false_eq_true, if_false]
    refine parseIntLiteralFrom_eq 0 fun byte mem => ?_
    obtain ⟨i, here⟩ := mem_iff_getElem?.mp mem
    obtain ⟨inside, -⟩ := List.getElem?_eq_some_iff.mp here
    exact isLiteralByte_of_decimal here (run.2 i (Nat.zero_le _) inside)
  · have marked := startsHex_iff.mpr hex
    simp only [marked, if_true]
    exact parseIntLiteralFrom_eq 0 (isLiteralByte_of_hexText ⟨hex, run⟩)

/-! ## Decimal numerals -/

def decimalBytes (number : Nat) : Bytes :=
  (Nat.digits 10 number).map fun digit => UInt8.ofNat (48 + digit)

theorem isDigit_of_range {start i : Nat} (digits : ∀ byte ∈ text.drop start, 48 ≤ byte ∧ byte ≤ 57)
    (le : start ≤ i) (inside : i < text.length) :
    isDigit ((Input.ofText text).charAt i) = true := by
  have here : text[i]? = some text[i] := getElem?_eq_getElem inside
  have mem : text[i] ∈ text.drop start := by
    refine mem_iff_getElem?.mpr ⟨i - start, ?_⟩
    rw [getElem?_drop, Nat.add_sub_cancel' le, here]
  rw [isDigit_iff, toNat_charAt_ofText here]
  exact ⟨UInt8.le_iff_toNat_le.mp (digits _ mem).1, UInt8.le_iff_toNat_le.mp (digits _ mem).2⟩

theorem decimalRun_of_digits {start : Nat} (some : start < text.length)
    (digits : ∀ byte ∈ text.drop start, 48 ≤ byte ∧ byte ≤ 57) :
    ¬ HexPrefixAt (.ofText text) start ∧ Run (DecimalPlace (.ofText text)) start text.length := by
  have digit {i : Nat} := @isDigit_of_range text start i digits
  refine ⟨fun hex => ?_, Nat.le_of_lt some, fun i le inside => ⟨inside, .inl (digit le inside)⟩⟩
  have marked := digit (Nat.le_succ start) hex.lt
  rcases hex.2 with mark | mark
  · rw [mark] at marked
    exact absurd marked (by decide)
  · rw [mark] at marked
    exact absurd marked (by decide)

theorem decimalText_of_digits (some : text ≠ []) (digits : ∀ byte ∈ text, 48 ≤ byte ∧ byte ≤ 57) :
    DecimalText text :=
  ⟨some, decimalRun_of_digits (length_pos_of_ne_nil some) digits⟩

theorem literalDigit_decimal : ∀ digit < 10,
    literalDigit false (UInt8.ofNat (48 + digit)) = some digit := by
  decide

theorem decimalBytes_range {number : Nat} {byte : UInt8} (mem : byte ∈ decimalBytes number) :
    48 ≤ byte ∧ byte ≤ 57 := by
  obtain ⟨digit, here, rfl⟩ := mem_map.mp mem
  have all : ∀ digit < 10, 48 ≤ UInt8.ofNat (48 + digit) ∧ UInt8.ofNat (48 + digit) ≤ 57 := by
    decide
  exact all digit (Nat.digits_lt_base (by decide) here)

theorem numeralFrom_reverse (digits : List Nat) (small : ∀ digit ∈ digits, digit < 10) :
    numeralFrom false 0 (digits.map fun digit => UInt8.ofNat (48 + digit)).reverse =
      Nat.ofDigits 10 digits := by
  induction digits with
  | nil => rfl
  | cons digit rest ih =>
    have before := ih fun d mem => small d (mem_cons_of_mem _ mem)
    rw [numeralFrom] at before
    rw [map_cons, reverse_cons, numeralFrom, foldl_append, before, foldl_cons,
      foldl_nil, literalDigit_decimal digit (small digit mem_cons_self),
      Nat.ofDigits_cons, literalBase]
    simp only [Bool.false_eq_true, if_false]
    omega

theorem numeralFrom_decimal (number : Nat) :
    numeralFrom false 0 (decimalBytes number).reverse = number := by
  rw [decimalBytes, numeralFrom_reverse _ fun digit mem => Nat.digits_lt_base (by decide) mem,
    Nat.ofDigits_digits]

end Elisa.Frontend
