import Elisa.Easm.Text
import Elisa.Lib.CheckedInt64

/-!
# Decimal numbers

The numbers of a contract are written by `easmAppendI64` (`easm_verify_provenance.elisa`) and read
by `parseSigned` (`easm_checked_decimal.elisa`), which goes down from zero for a negative number and
accepts exactly the spellings of the numbers of 64 bits (`parseSigned_iff`), within the range on the
way (`parseSignedChecked_eq`).  The writer negates a negative number first, and traps at the
smallest one (`easmAppendI64_reads_back_iff`).
-/

namespace Elisa.Easm

open Lib.CheckedInt64

/-! ## Writing -/

/-- A number behind a text; nothing where the negation traps. -/
def easmAppendI64 (out : Bytes) (value : Int) : Option Bytes :=
  if value < 0 then
    if InRange (0 - value) then easmAppendI64 (out ++ [45]) (0 - value) else none
  else
    (if value ≥ 10 then easmAppendI64 out (value / 10) else some out).map
      (· ++ [(48 + value % 10).toNat.toUInt8])
termination_by value.natAbs + (-value).toNat

/-! ## Reading with traps -/

def checked (value : Int) : Option Int := if InRange value then some value else none

def appendPositiveDigitChecked (value digit : Int) : Option (Option Int) :=
  if value < 0 then some none
  else if value > i64Max / 10 ∨ value = i64Max / 10 ∧ digit > i64Max % 10 then some none
  else do
    let tens ← checked (value * 10)
    (checked (tens + digit)).map some

def appendNegativeDigitChecked (value digit : Int) : Option (Option Int) :=
  if value > 0 then some none
  else if value < i64Min.tdiv 10 ∨ value = i64Min.tdiv 10 ∧ digit > 0 - i64Min.tmod 10 then
    some none
  else do
    let tens ← checked (value * 10)
    (checked (tens - digit)).map some

def parseDigitsChecked (negative : Bool) : Int → Bytes → Option (Option Int)
  | value, [] => some (some value)
  | value, byte :: rest =>
    if byte < 48 ∨ byte > 57 then some none
    else
      let digit : Int := (byte - 48).toNat
      (if negative then appendNegativeDigitChecked value digit
        else appendPositiveDigitChecked value digit).bind fun
        | none => some none
        | some value => parseDigitsChecked negative value rest

/-- `parseSigned` with the traps of its steps. -/
def parseSignedChecked : Bytes → Option (Option Int)
  | [] => some none
  | byte :: rest =>
    if byte = 45 then
      if rest = [] then some none else parseDigitsChecked true 0 rest
    else parseDigitsChecked false 0 (byte :: rest)

/-! ## Spellings -/

/-- The number that digits stand for, behind one that is read already. -/
def magnitude : Nat → Bytes → Nat
  | value, [] => value
  | value, byte :: rest => magnitude (value * 10 + (byte - 48).toNat) rest

def IsDigit (byte : UInt8) : Prop := 48 ≤ byte ∧ byte ≤ 57

instance (byte : UInt8) : Decidable (IsDigit byte) := instDecidableAnd

/-- An optional minus, and one digit or more. -/
def Spells (text : Bytes) (value : Int) : Prop :=
  InRange value ∧ ∃ digits, digits ≠ [] ∧ (∀ byte ∈ digits, IsDigit byte) ∧
    (text = digits ∧ value = magnitude 0 digits ∨
      text = 45 :: digits ∧ value = -magnitude 0 digits)

theorem isDigit_iff {byte : UInt8} : IsDigit byte ↔ ¬ (byte < 48 ∨ byte > 57) := by
  rw [IsDigit, not_or, UInt8.not_lt, UInt8.not_lt]

theorem IsDigit.sub_le {byte : UInt8} (digit : IsDigit byte) : (byte - 48).toNat ≤ 9 := by
  obtain ⟨low, high⟩ := digit
  rw [UInt8.toNat_sub_of_le _ _ low]
  have : byte.toNat ≤ 57 := high
  simp only [UInt8.reduceToNat]
  omega

theorem le_magnitude (digits : Bytes) (value : Nat) : value ≤ magnitude value digits := by
  induction digits generalizing value with
  | nil => exact Nat.le_refl _
  | cons byte rest ih => exact Nat.le_trans (by omega) (ih _)

theorem magnitude_append (digits : Bytes) (byte : UInt8) (value : Nat) :
    magnitude value (digits ++ [byte]) = magnitude value digits * 10 + (byte - 48).toNat := by
  induction digits generalizing value with
  | nil => rfl
  | cons first rest ih => exact ih _

/-! ## Reading -/

def limit (negative : Bool) : Nat := if negative then 9223372036854775808 else 9223372036854775807

def signed (negative : Bool) (magnitude : Nat) : Int := if negative then -magnitude else magnitude

theorem inRange_signed {negative : Bool} {n : Nat} :
    InRange (signed negative n) ↔ n ≤ limit negative := by
  cases negative with
  | true => simp only [limit, signed, InRange, if_true]; omega
  | false => simp only [limit, signed, InRange, Bool.false_eq_true, if_false]; omega

section Digit

variable {negative : Bool} {n d : Nat} (fits : n ≤ limit negative) (digit : d ≤ 9)

include fits digit

theorem appendDigit_eq :
    (if negative then appendNegativeDigit (signed negative n) d
      else appendPositiveDigit (signed negative n) d) =
      if n * 10 + d ≤ limit negative then some (signed negative (n * 10 + d)) else none := by
  cases negative with
  | true =>
    simp only [limit, signed, if_true] at *
    have quotient : i64Min.tdiv 10 = -922337203685477580 := by decide
    have rest : 0 - i64Min.tmod 10 = 8 := by decide
    rw [appendNegativeDigit, if_neg (by omega), quotient, rest]
    split
    next over_ => rw [if_neg (by omega)]
    next inside =>
      rw [if_pos (by omega)]
      congr 1
      omega
  | false =>
    simp only [limit, signed, Bool.false_eq_true, if_false] at *
    have quotient : i64Max / 10 = 922337203685477580 := by decide
    have rest : i64Max % 10 = 7 := by decide
    rw [appendPositiveDigit, if_neg (by omega), quotient, rest]
    split
    next over_ => rw [if_neg (by omega)]
    next inside =>
      rw [if_pos (by omega)]
      congr 1

theorem appendDigitChecked_eq :
    (if negative then appendNegativeDigitChecked (signed negative n) d
      else appendPositiveDigitChecked (signed negative n) d) =
      some (if negative then appendNegativeDigit (signed negative n) d
        else appendPositiveDigit (signed negative n) d) := by
  cases negative with
  | true =>
    simp only [limit, signed, if_true] at *
    have quotient : i64Min.tdiv 10 = -922337203685477580 := by decide
    have rest : 0 - i64Min.tmod 10 = 8 := by decide
    have down : ¬ (-n : Int) > 0 := by omega
    rw [appendNegativeDigitChecked, appendNegativeDigit, if_neg down, if_neg down, quotient, rest]
    split
    next => rfl
    next inside =>
      rw [checked, if_pos (by unfold InRange; omega), Option.bind_eq_bind, Option.bind_some,
        checked, if_pos (by unfold InRange; omega), Option.map_some]
  | false =>
    simp only [limit, signed, Bool.false_eq_true, if_false] at *
    have quotient : i64Max / 10 = 922337203685477580 := by decide
    have rest : i64Max % 10 = 7 := by decide
    have up : ¬ (n : Int) < 0 := by omega
    rw [appendPositiveDigitChecked, appendPositiveDigit, if_neg up, if_neg up, quotient, rest]
    split
    next => rfl
    next inside =>
      rw [checked, if_pos (by unfold InRange; omega), Option.bind_eq_bind, Option.bind_some,
        checked, if_pos (by unfold InRange; omega), Option.map_some]

end Digit

variable {negative : Bool}

theorem parseDigits_iff {text : Bytes} {n : Nat} {value : Int} (fits : n ≤ limit negative) :
    parseDigits negative (signed negative n) text = some value ↔
      (∀ byte ∈ text, IsDigit byte) ∧ magnitude n text ≤ limit negative ∧
        value = signed negative (magnitude n text) := by
  induction text generalizing n with
  | nil => simp [parseDigits, magnitude, fits, eq_comm]
  | cons byte rest ih =>
    rw [parseDigits, magnitude, List.forall_mem_cons]
    by_cases digit : IsDigit byte
    · rw [if_neg (isDigit_iff.mp digit)]
      simp only [appendDigit_eq fits digit.sub_le]
      split
      next small => simp [ih small, digit]
      next large =>
        have := le_magnitude rest (n * 10 + (byte - 48).toNat)
        simp only [Option.bind_none, reduceCtorEq, false_iff]
        omega
    · rw [if_pos (not_not.mp (mt isDigit_iff.mpr digit))]
      simp [digit]

theorem parseDigitsChecked_eq (text : Bytes) {n : Nat} (fits : n ≤ limit negative) :
    parseDigitsChecked negative (signed negative n) text =
      some (parseDigits negative (signed negative n) text) := by
  induction text generalizing n with
  | nil => rfl
  | cons byte rest ih =>
    rw [parseDigitsChecked, parseDigits]
    split
    next => rfl
    next digit =>
      have small := (isDigit_iff.mpr digit).sub_le
      simp only [appendDigitChecked_eq fits small, appendDigit_eq fits small]
      split
      next inside => exact ih inside
      next => rfl

theorem parseSignedChecked_eq (text : Bytes) :
    parseSignedChecked text = some (parseSigned text) := by
  cases text with
  | nil => rfl
  | cons byte rest =>
    rw [parseSignedChecked, parseSigned]
    split
    next =>
      split
      next => rfl
      next => exact parseDigitsChecked_eq rest (Nat.zero_le (limit true))
    next => exact parseDigitsChecked_eq _ (Nat.zero_le (limit false))

theorem parseSigned_iff (text : Bytes) (value : Int) :
    parseSigned text = some value ↔ Spells text value := by
  have reads (negative : Bool) (digits : Bytes) : parseDigits negative 0 digits = some value ↔
      (∀ byte ∈ digits, IsDigit byte) ∧ InRange value ∧
        value = signed negative (magnitude 0 digits) := by
    have zero : (0 : Int) = signed negative 0 := by cases negative <;> rfl
    rw [zero, parseDigits_iff (Nat.zero_le _)]
    refine and_congr_right fun _ => ⟨fun h => ⟨?_, h.2⟩, fun h => ⟨?_, h.2⟩⟩
    · exact h.2 ▸ inRange_signed.mpr h.1
    · exact inRange_signed.mp (h.2 ▸ h.1)
  cases text with
  | nil =>
    simp [parseSigned, Spells]
  | cons byte rest =>
    rw [parseSigned]
    split
    next minus =>
      subst minus
      split
      next none_ =>
        subst none_
        refine iff_of_false nofun ?_
        rintro ⟨-, digits, some_, all, ⟨rfl, -⟩ | ⟨same, -⟩⟩
        · exact absurd (all 45 (.head _)) (by decide)
        · exact some_ (List.cons.inj same).2.symm
      next some_ =>
        rw [reads]
        constructor
        · rintro ⟨all, fits, rfl⟩
          exact ⟨fits, rest, some_, all, .inr ⟨rfl, rfl⟩⟩
        · rintro ⟨fits, digits, -, all, ⟨rfl, -⟩ | ⟨same, rfl⟩⟩
          · exact absurd (all 45 (.head _)) (by decide)
          · obtain rfl := (List.cons.inj same).2
            exact ⟨all, fits, rfl⟩
    next plain =>
      rw [reads]
      constructor
      · rintro ⟨all, fits, rfl⟩
        exact ⟨fits, _, List.cons_ne_nil _ _, all, .inl ⟨rfl, rfl⟩⟩
      · rintro ⟨fits, digits, -, all, ⟨rfl, rfl⟩ | ⟨same, -⟩⟩
        · exact ⟨all, fits, rfl⟩
        · exact absurd (List.cons.inj same).1 plain

/-! ## Reading back -/

theorem easmAppendI64_natural (n : Nat) (out : Bytes) : ∃ digits, digits ≠ [] ∧
    (∀ byte ∈ digits, IsDigit byte) ∧ magnitude 0 digits = n ∧
      easmAppendI64 out n = some (out ++ digits) := by
  induction n using Nat.strongRecOn generalizing out with
  | ind n ih =>
    have byte : ∀ d < 10, IsDigit (48 + (d : Nat) : Int).toNat.toUInt8 ∧
        ((48 + (d : Nat) : Int).toNat.toUInt8 - 48).toNat = d := by decide
    obtain ⟨last, worth⟩ := byte (n % 10) (Nat.mod_lt _ (by decide))
    rw [show ((n % 10 : Nat) : Int) = n % 10 by omega] at last worth
    rw [easmAppendI64, if_neg (by omega)]
    split
    next large =>
      obtain ⟨digits, -, all, value, written⟩ := ih (n / 10) (by omega) out
      refine ⟨digits ++ [(48 + (n : Int) % 10).toNat.toUInt8], by simp, ?_, ?_, ?_⟩
      · exact List.forall_mem_append.mpr ⟨all, by simpa using last⟩
      · rw [magnitude_append, value]
        omega
      · rw [show (n : Int) / 10 = (n / 10 : Nat) by omega, written, Option.map_some,
          List.append_assoc]
    next small =>
      refine ⟨[(48 + (n : Int) % 10).toNat.toUInt8], List.cons_ne_nil _ _, ?_, ?_, rfl⟩
      · simpa using last
      · simp only [magnitude]
        omega

/-- Every number but the smallest one is written, and read back from what is written; the reader
accepts the spellings of numbers in range only, and never traps. -/
theorem easmAppendI64_reads_back_iff (value : Int64) (out read : Bytes) :
    ((∃ text, easmAppendI64 out value.toInt = some (out ++ text) ∧
      parseSigned text = some value.toInt) ↔ value ≠ Int64.minValue) ∧
    parseSignedChecked read = some (parseSigned read) ∧
      ∀ number, parseSigned read = some number ↔ Spells read number := by
  refine ⟨⟨?_, fun other => ?_⟩, parseSignedChecked_eq read, parseSigned_iff read⟩
  · rintro ⟨text, written, -⟩ rfl
    rw [easmAppendI64] at written
    cases written
  have range := inRange_toInt value
  rcases Int.lt_or_le value.toInt 0 with negative | natural
  · have inside : InRange (0 - value.toInt) := by
      have : value.toInt ≠ -9223372036854775808 := fun same => other (Int64.toInt_inj.mp same)
      unfold InRange at *
      omega
    obtain ⟨digits, some_, all, worth, written⟩ :=
      easmAppendI64_natural value.toInt.natAbs (out ++ [45])
    refine ⟨45 :: digits, ?_, ?_⟩
    · rw [easmAppendI64, if_pos negative, if_pos inside,
        show 0 - value.toInt = value.toInt.natAbs by omega, written, List.append_assoc]
      rfl
    · exact (parseSigned_iff _ _).mpr ⟨range, digits, some_, all, .inr ⟨rfl, by omega⟩⟩
  · obtain ⟨digits, some_, all, worth, written⟩ := easmAppendI64_natural value.toInt.natAbs out
    rw [show (value.toInt.natAbs : Int) = value.toInt by omega] at written
    exact ⟨digits, written, (parseSigned_iff _ _).mpr
      ⟨range, digits, some_, all, .inl ⟨rfl, by omega⟩⟩⟩

theorem smallest_not_written :
    ¬ ∃ text, easmAppendI64 [] Int64.minValue.toInt = some text ∧
      parseSigned text = some Int64.minValue.toInt := by
  rintro ⟨text, written, -⟩
  rw [easmAppendI64] at written
  cases written

end Elisa.Easm
