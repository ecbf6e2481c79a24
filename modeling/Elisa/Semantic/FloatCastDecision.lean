import Elisa.Semantic.FloatCastComparison
import Mathlib.Tactic.FinCases

/-!
# The decision

A cast of a literal is out of range if the nearest binary64 value, truncated, is no value of the
type (`CastOutside`).  That is so from a midpoint on: below the power of two where the positive
values end, and above the last negative value (`castOutside_iff`).  The boundaries are these
midpoints (`boundary_value`), so the decision is exact where the comparison does not trap
(`castOutOfRange_exact`).
-/

namespace Elisa.Semantic.FloatCastRange

open Elisa.Lib Outcome

/-! ## Types -/

def IntegerType.signed : IntegerType → Bool
  | .i8 | .i16 | .i32 | .i64 | .int | .isize => true
  | .u8 | .u16 | .u32 | .u64 | .usize | .uintptr => false

def IntegerType.bits (pointerBits : Nat) : IntegerType → Nat
  | .i8 | .u8 => 8
  | .i16 | .u16 => 16
  | .i32 | .u32 => 32
  | .i64 | .u64 => 64
  | .int | .isize | .usize | .uintptr => pointerBits

def IntegerType.Holds (integerType : IntegerType) (pointerBits : Nat) (value : ℤ) : Prop :=
  if integerType.signed then
    -2 ^ (integerType.bits pointerBits - 1) ≤ value ∧ value < 2 ^ (integerType.bits pointerBits - 1)
  else 0 ≤ value ∧ value < 2 ^ integerType.bits pointerBits

def truncate (value : ℚ) : ℤ := if 0 ≤ value then ⌊value⌋ else ⌈value⌉

/-- The nearest value, truncated, is no value of the type; it is none either if it is not finite. -/
def CastOutside (integerType : IntegerType) (pointerBits : Nat) (value : ℚ) : Prop :=
  ∀ rounded, nearestBinary64 value = some rounded →
    ¬ integerType.Holds pointerBits (truncate rounded)

def signedValue (negative : Bool) (value : ℚ) : ℚ := if negative then -value else value

section Types

variable {integerType : IntegerType} {pointerBits : Nat} {x r : ℚ}

theorem truncate_nonneg (h : 0 ≤ r) : truncate r = ⌊r⌋ := if_pos h

theorem truncate_neg (h : 0 ≤ r) : truncate (-r) = -⌊r⌋ := by
  rcases eq_or_lt_of_le h with rfl | hpos
  · simp [truncate]
  · rw [truncate, if_neg (by linarith), Int.ceil_neg]

theorem IntegerType.bits_cases (h : pointerBits = 32 ∨ pointerBits = 64) :
    integerType.bits pointerBits = 8 ∨ integerType.bits pointerBits = 16 ∨
      integerType.bits pointerBits = 32 ∨ integerType.bits pointerBits = 64 := by
  cases integerType <;> simp [IntegerType.bits, h]

/-- Where the values of a type end, in each direction. -/
def IntegerType.limit (integerType : IntegerType) (pointerBits : Nat) (negative : Bool) : ℤ :=
  if negative then
    if integerType.signed then 2 ^ (integerType.bits pointerBits - 1) + 1 else 1
  else if integerType.signed then 2 ^ (integerType.bits pointerBits - 1)
  else 2 ^ integerType.bits pointerBits

theorem IntegerType.not_holds_iff {negative : Bool} (h : 0 ≤ r) :
    ¬ integerType.Holds pointerBits (truncate (signedValue negative r)) ↔
      integerType.limit pointerBits negative ≤ r := by
  have hfloor : (0 : ℤ) ≤ ⌊r⌋ := Int.floor_nonneg.mpr h
  have hpow (k : Nat) : (0 : ℤ) < 2 ^ k := by positivity
  have hhalf := hpow (integerType.bits pointerBits - 1)
  have hfull := hpow (integerType.bits pointerBits)
  rw [← Int.le_floor, IntegerType.Holds, IntegerType.limit]
  cases negative with
  | true =>
    rw [signedValue, if_pos rfl, truncate_neg h, if_pos rfl]
    cases integerType.signed with
    | true =>
      rw [if_pos rfl, if_pos rfl]
      omega
    | false =>
      rw [if_neg Bool.false_ne_true, if_neg Bool.false_ne_true]
      omega
  | false =>
    rw [signedValue, if_neg Bool.false_ne_true, truncate_nonneg h, if_neg Bool.false_ne_true]
    cases integerType.signed with
    | true =>
      rw [if_pos rfl, if_pos rfl]
      omega
    | false =>
      rw [if_neg Bool.false_ne_true, if_neg Bool.false_ne_true]
      omega

theorem roundBinary64_signed (negative : Bool) (x : ℚ) :
    roundBinary64 (signedValue negative x) = signedValue negative (roundBinary64 x) := by
  cases negative with
  | true => exact roundBinary64_neg x
  | false => rfl

theorem IntegerType.limit_le (pointer : pointerBits = 32 ∨ pointerBits = 64) (negative : Bool) :
    integerType.limit pointerBits negative ≤ 2 ^ 64 := by
  rw [IntegerType.limit]
  rcases integerType.bits_cases pointer with h | h | h | h <;> rw [h] <;> cases negative <;>
    cases integerType.signed <;> decide

theorem IntegerType.limit_finite (pointer : pointerBits = 32 ∨ pointerBits = 64) (negative : Bool) :
    (integerType.limit pointerBits negative : ℚ) ≤ 2 ^ 1024 := by
  have hcast : (integerType.limit pointerBits negative : ℚ) ≤ 2 ^ 64 := by
    exact_mod_cast integerType.limit_le pointer negative
  exact le_trans hcast (pow_le_pow_right₀ (by norm_num) (by norm_num))

theorem castOutside_iff (pointer : pointerBits = 32 ∨ pointerBits = 64) (negative : Bool)
    (h : 0 ≤ x) : CastOutside integerType pointerBits (signedValue negative x) ↔
      integerType.limit pointerBits negative ≤ roundBinary64 x := by
  have hround := roundBinary64_nonneg h
  have habs : |roundBinary64 (signedValue negative x)| = roundBinary64 x := by
    rw [roundBinary64_signed]
    cases negative with
    | true => exact (abs_neg _).trans (abs_of_nonneg hround)
    | false => exact abs_of_nonneg hround
  rcases lt_or_ge (roundBinary64 x) (2 ^ 1024) with hlt | hge
  · have hsome : nearestBinary64 (signedValue negative x) =
        some (signedValue negative (roundBinary64 x)) := by
      rw [nearestBinary64, habs, roundBinary64_signed]
      exact if_pos hlt
    rw [← IntegerType.not_holds_iff hround]
    constructor
    · intro houtside
      exact houtside _ hsome
    · rintro hout rounded h
      rw [hsome, Option.some.injEq] at h
      rw [← h]
      exact hout
  · have hnone : nearestBinary64 (signedValue negative x) = none := by
      rw [nearestBinary64, habs]
      exact if_neg hge.not_gt
    have houtside : CastOutside integerType pointerBits (signedValue negative x) := by
      intro rounded h
      rw [hnone] at h
      cases h
    exact iff_of_true houtside (le_trans (IntegerType.limit_finite pointer negative) hge)

end Types

/-! ## Boundaries -/

instance (limit : Bytes) : Decidable (IsBoundary limit) :=
  haveI : Decidable (∀ byte ∈ limit, isSeparator byte ∨ 48 ≤ byte ∧ byte ≤ 57) :=
    List.decidableBAll ..
  haveI : Decidable (∀ byte ∈ limit, byte ≠ 95) := List.decidableBAll ..
  decidable_of_iff
    ((∀ byte ∈ limit, isSeparator byte ∨ 48 ≤ byte ∧ byte ≤ 57) ∧ (∀ byte ∈ limit, byte ≠ 95) ∧
      limit.count 46 ≤ 1 ∧ (digitsOf limit).any nonzeroDigit ∧ limit.length < 2 ^ 62)
    ⟨fun ⟨written, plain, point, nonzero, short⟩ => ⟨⟨written, plain, point⟩, nonzero, short⟩,
      fun ⟨⟨written, plain, point⟩, nonzero, short⟩ => ⟨written, plain, point, nonzero, short⟩⟩

/-- The boundaries of the positive numbers are the midpoints below a power of two, those of the
negative numbers the midpoints below the integer behind it, and the last one is the midpoint
above it. -/
theorem boundary_values : ∀ bits ∈ [8, 16, 32, 64],
    (∀ negative, IsBoundary (ascii (signedBoundary bits negative)) ∧
      IsBoundary (ascii (unsignedBoundary bits negative))) ∧
    decimalValue (ascii (signedBoundary bits false)) =
      2 ^ (bits - 1) - 2 ^ (bits - 1) / 2 ^ 54 ∧
    decimalValue (ascii (signedBoundary bits true)) =
      (if bits = 64 then 2 ^ 63 + 2 ^ 63 / 2 ^ 53
      else 2 ^ (bits - 1) + 1 - 2 ^ (bits - 1) / 2 ^ 53) ∧
    decimalValue (ascii (unsignedBoundary bits false)) = 2 ^ bits - 2 ^ bits / 2 ^ 54 ∧
    decimalValue (ascii (unsignedBoundary bits true)) = 2 ^ 0 - 2 ^ 0 / 2 ^ 54 := by
  intro bits hbits
  rw [Bool.forall_bool]
  fin_cases hbits <;>
    simp only [signedBoundary, unsignedBoundary, reduceIte, Nat.reduceEqDiff,
      Bool.false_eq_true] <;>
    iterate 4 rw [ascii_ofList]
  all_goals decide +kernel

/-! ## Casts -/

section Casts

variable {integerType : IntegerType} {pointerBits : Nat}

theorem integerTypeNamed_name (integerType : IntegerType) :
    integerTypeNamed (ascii integerType.name) = some integerType := by
  cases integerType <;> decide

theorem IntegerType.boundary_eq (pointer : pointerBits = 32 ∨ pointerBits = 64) (negative : Bool) :
    integerType.boundary negative pointerBits =
      if integerType.signed then signedBoundary (integerType.bits pointerBits) negative
      else unsignedBoundary (integerType.bits pointerBits) negative := by
  rcases pointer with rfl | rfl <;> cases integerType <;> rfl

theorem isSigned64_iff (pointer : pointerBits = 32 ∨ pointerBits = 64) :
    isSigned64 (ascii integerType.name) pointerBits =
      (integerType.signed && decide (integerType.bits pointerBits = 64)) := by
  rcases pointer with rfl | rfl <;> cases integerType <;> decide

theorem IntegerType.isBoundary (pointer : pointerBits = 32 ∨ pointerBits = 64) (negative : Bool) :
    IsBoundary (ascii (integerType.boundary negative pointerBits)) := by
  have hbits : integerType.bits pointerBits ∈ [8, 16, 32, 64] := by
    rcases integerType.bits_cases pointer with h | h | h | h <;> simp [h]
  rw [IntegerType.boundary_eq pointer]
  split
  · exact ((boundary_values _ hbits).1 negative).1
  · exact ((boundary_values _ hbits).1 negative).2

section Midpoints

variable {x : ℚ} {bits : Nat}

theorem signed_positive_iff (h : 0 ≤ x) (hbits : bits ∈ [8, 16, 32, 64]) :
    ((2 ^ (bits - 1) : ℤ) : ℚ) ≤ roundBinary64 x ↔
      decimalValue (ascii (signedBoundary bits false)) ≤ x := by
  rw [(boundary_values bits hbits).2.1, ← pow_le_roundBinary64_iff h]
  push_cast
  rfl

theorem unsigned_positive_iff (h : 0 ≤ x) (hbits : bits ∈ [8, 16, 32, 64]) :
    ((2 ^ bits : ℤ) : ℚ) ≤ roundBinary64 x ↔
      decimalValue (ascii (unsignedBoundary bits false)) ≤ x := by
  rw [(boundary_values bits hbits).2.2.2.1, ← pow_le_roundBinary64_iff h]
  push_cast
  rfl

theorem signed_negative_iff (h : 0 ≤ x) (hbits : bits ∈ [8, 16, 32]) :
    ((2 ^ (bits - 1) + 1 : ℤ) : ℚ) ≤ roundBinary64 x ↔
      decimalValue (ascii (signedBoundary bits true)) ≤ x := by
  have hsmall : bits - 1 < 52 ∧ bits ≠ 64 ∧ bits ∈ [8, 16, 32, 64] := by
    fin_cases hbits <;> decide
  rw [(boundary_values bits hsmall.2.2).2.2.1, if_neg hsmall.2.1,
    ← succ_pow_le_roundBinary64_iff h hsmall.1]
  push_cast
  rfl

theorem signed_negative_64_iff (h : 0 ≤ x) :
    ((2 ^ (64 - 1) + 1 : ℤ) : ℚ) ≤ roundBinary64 x ↔
      decimalValue (ascii (signedBoundary 64 true)) < x := by
  rw [(boundary_values 64 (by decide)).2.2.1, if_pos rfl,
    ← succ_pow_le_roundBinary64_iff_lt h (by norm_num)]
  norm_num

theorem unsigned_negative_iff (h : 0 ≤ x) (bits : Nat) :
    ((1 : ℤ) : ℚ) ≤ roundBinary64 x ↔ decimalValue (ascii (unsignedBoundary bits true)) ≤ x := by
  rw [show unsignedBoundary bits true = unsignedBoundary 8 true from rfl,
    (boundary_values 8 (by decide)).2.2.2.2, ← pow_le_roundBinary64_iff h, pow_zero, Int.cast_one]

end Midpoints

theorem IntegerType.limit_le_iff {x : ℚ} (pointer : pointerBits = 32 ∨ pointerBits = 64)
    (negative : Bool) (h : 0 ≤ x) :
    integerType.limit pointerBits negative ≤ roundBinary64 x ↔
      if negative && isSigned64 (ascii integerType.name) pointerBits then
        decimalValue (ascii (integerType.boundary negative pointerBits)) < x
      else decimalValue (ascii (integerType.boundary negative pointerBits)) ≤ x := by
  have hbits : integerType.bits pointerBits ∈ [8, 16, 32, 64] := by
    rcases integerType.bits_cases pointer with h | h | h | h <;> simp [h]
  rw [isSigned64_iff pointer, IntegerType.boundary_eq pointer, IntegerType.limit]
  generalize integerType.bits pointerBits = bits at hbits
  cases integerType.signed with
  | true =>
    cases negative with
    | true =>
      rcases eq_or_ne bits 64 with rfl | hne
      · exact signed_negative_64_iff h
      · have hsmall : bits ∈ [8, 16, 32] := by
          simpa [hne] using hbits
        rw [decide_eq_false hne]
        exact signed_negative_iff h hsmall
    | false => exact signed_positive_iff h hbits
  | false =>
    cases negative with
    | true => exact unsigned_negative_iff h bits
    | false => exact unsigned_positive_iff h hbits

variable (integerType) (negative : Bool) (literal : FloatLiteral)

theorem IntegerType.boundary_ne_nil (pointer : pointerBits = 32 ∨ pointerBits = 64) :
    ascii (integerType.boundary negative pointerBits) ≠ [] := by
  intro hnil
  have hnonzero := (integerType.isBoundary pointer negative).nonzero
  rw [hnil] at hnonzero
  cases hnonzero

theorem FloatLiteral.text_ne_nil : literal.text ≠ [] := List.cons_ne_nil _ _

theorem castOutOfRange_eq (pointer : pointerBits = 32 ∨ pointerBits = 64) :
    castOutOfRange (ascii integerType.name) negative literal.text pointerBits = do
      let magnitude ← decimalValueCompare literal.text
        (ascii (integerType.boundary negative pointerBits))
      if negative && isSigned64 (ascii integerType.name) pointerBits then
        return decide (magnitude.1 > 0)
      return decide (magnitude.1 ≥ 0) := by
  rw [castOutOfRange, if_neg literal.text_ne_nil, floatCastRoundingBoundary,
    integerTypeNamed_name]
  exact if_neg (integerType.boundary_ne_nil negative pointer)

/-- The decision and the comparison it takes. -/
structure ExactDecision (integerType : IntegerType) (negative : Bool) (literal : FloatLiteral)
    (pointerBits : Nat) : Prop where
  /-- The cast is refused where it goes out of range. -/
  decision : ∃ outOfRange,
    castOutOfRange (ascii integerType.name) negative literal.text pointerBits = ok outOfRange ∧
      (outOfRange = true ↔
        CastOutside integerType pointerBits (signedValue negative literal.value))
  /-- The comparison is that of the values. -/
  comparison : ∃ zero,
    decimalValueCompare literal.text (ascii (integerType.boundary negative pointerBits)) =
      ok ((SignType.sign (literal.value -
        decimalValue (ascii (integerType.boundary negative pointerBits))) : Int), zero)

theorem sign_pos_iff (x : ℚ) : (SignType.sign x : Int) > 0 ↔ 0 < x := by
  rcases lt_trichotomy x 0 with h | rfl | h
  · simp [sign_neg h, h.le]
  · simp
  · simp [sign_pos h, h]

theorem sign_nonneg_iff (x : ℚ) : (SignType.sign x : Int) ≥ 0 ↔ 0 ≤ x := by
  rcases lt_trichotomy x 0 with h | rfl | h
  · simp [sign_neg h, h]
  · simp
  · simp [sign_pos h, h.le]

/-- The decision is exact if and only if the power of the first digit does not leave the signed
64-bit numbers while the exponent is one of them.  The texts of tokens are shorter than `2 ^ 32`. -/
theorem castOutOfRange_exact (pointer : pointerBits = 32 ∨ pointerBits = 64)
    (short : literal.text.length < 2 ^ 62) :
    ExactDecision integerType negative literal pointerBits ↔ ¬ literal.Underflows := by
  have hcompare := decimalValueCompare_spec literal (integerType.isBoundary pointer negative) short
  have hcast := castOutOfRange_eq integerType negative literal pointer
  constructor
  · rintro ⟨-, zero, hok⟩ hunderflows
    rw [hcompare, if_pos hunderflows] at hok
    cases hok
  · intro hunderflows
    rw [if_neg hunderflows] at hcompare
    refine ⟨?_, _, hcompare⟩
    rw [hcast, hcompare, ok_bind, castOutside_iff pointer negative literal.value_nonneg,
      IntegerType.limit_le_iff pointer negative literal.value_nonneg]
    split
    · exact ⟨_, rfl, by rw [decide_eq_true_iff, sign_pos_iff, sub_pos]⟩
    · exact ⟨_, rfl, by rw [decide_eq_true_iff, sign_nonneg_iff, sub_nonneg]⟩

def insideLiteral : FloatLiteral :=
  { whole := ⟨1, [(true, 2), (false, 8)]⟩, fraction := some (some ⟨5, []⟩),
    exponent := some ⟨false, none, ⟨0, []⟩⟩ }

theorem castOutOfRange_exact_inside : ExactDecision .i8 true insideLiteral 64 :=
  (castOutOfRange_exact .i8 true insideLiteral (.inr rfl) (by decide)).mpr (by decide)

def underflowLiteral : FloatLiteral :=
  { whole := ⟨0, []⟩, fraction := some (some ⟨0, [(false, 0), (false, 1)]⟩),
    exponent := some ⟨false, some true,
      ⟨9, [(false, 2), (false, 2), (false, 3), (false, 3), (false, 7), (false, 2), (false, 0),
        (false, 3), (false, 6), (false, 8), (false, 5), (false, 4), (false, 7), (false, 7),
        (false, 5), (false, 8), (false, 0), (false, 7)]⟩⟩ }

/-- Its power leaves the signed numbers, and the comparison traps. -/
theorem castOutOfRange_underflow : underflowLiteral.text = ascii "0.001e-9223372036854775807" ∧
    castOutOfRange (ascii "i8") false underflowLiteral.text 64 = fault .overflow ∧
      ¬ ExactDecision .i8 false underflowLiteral 64 := by
  obtain ⟨written, htrap⟩ : underflowLiteral.text = ascii "0.001e-9223372036854775807" ∧
      castOutOfRange (ascii "i8") false underflowLiteral.text 64 = fault .overflow := by
    decide +kernel
  refine ⟨written, htrap, ?_⟩
  rintro ⟨⟨outOfRange, hok, -⟩, -⟩
  rw [show ascii IntegerType.i8.name = ascii "i8" from rfl, htrap] at hok
  cases hok

end Casts

end Elisa.Semantic.FloatCastRange
