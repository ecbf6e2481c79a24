import Elisa.Semantic.FloatCastDigits

/-!
# The comparison of a literal with a boundary

A number is its digits from the first one other than zero on, scaled by its order (`Scaled`).  The
scans find both in a text, and the comparison is one of the orders, and of the digits where these
are the same (`FloatLiteral.compareOrders_eq`).  An exponent that is no signed 64-bit number decides
alone. `decimalValueCompare_spec`: the comparison traps if the power of the first digit leaves the
signed 64-bit numbers while the exponent does not, and is that of the values otherwise.
-/

namespace Elisa.Semantic.FloatCastRange

open Elisa.Lib Outcome List FloatLiteral

/-! ## The texts of literals -/

section Runs

theorem digitByte_bounds (digit : Fin 10) : 48 ≤ digitByte digit ∧ digitByte digit ≤ 57 := by
  revert digit
  decide

theorem digitByte_toNat (digit : Fin 10) : (digitByte digit - 48).toNat = digit := by
  revert digit
  decide

theorem isSeparator_digitByte (digit : Fin 10) : isSeparator (digitByte digit) = false :=
  isSeparator_digit (digitByte_bounds digit).1 (digitByte_bounds digit).2

theorem written_digitByte {digit : Fin 10} {rest : Bytes} (h : Written rest) :
    Written (digitByte digit :: rest) := by
  intro byte hbyte
  rcases mem_cons.mp hbyte with rfl | hrest
  · exact .inr (digitByte_bounds digit)
  · exact h byte hrest

theorem written_separator {byte : UInt8} {rest : Bytes} (hsep : isSeparator byte = true)
    (h : Written rest) : Written (byte :: rest) := by
  intro b hb
  rcases mem_cons.mp hb with rfl | hrest
  · exact .inl hsep
  · exact h b hrest

theorem spaced_digitByte {digit : Fin 10} {rest : Bytes} (h : Spaced rest) :
    Spaced (digitByte digit :: rest) := by
  cases rest with
  | nil => trivial
  | cons byte rest =>
    refine ⟨?_, h⟩
    rintro ⟨hdigit, -⟩
    rw [isSeparator_digitByte] at hdigit
    cases hdigit

theorem digitsOf_digitByte (digit : Fin 10) (rest : Bytes) :
    digitsOf (digitByte digit :: rest) = (digit : Nat) :: digitsOf rest := by
  rw [digitsOf_digit (isSeparator_digitByte digit), digitByte_toNat]

/-- A text in front of which a run can stand. -/
structure Follows (rest : Bytes) : Prop where
  written : Written rest
  spaced : Spaced rest

theorem follows_restText (digit : Fin 10) (digits : List (Bool × Fin 10)) {rest : Bytes}
    (h : Follows rest) : Follows (digitByte digit :: (restText digits ++ rest)) := by
  induction digits generalizing digit with
  | nil => exact ⟨written_digitByte h.written, spaced_digitByte h.spaced⟩
  | cons next digits ih =>
    obtain ⟨separated, next⟩ := next
    have ih := ih next
    cases separated with
    | false => exact ⟨written_digitByte ih.written, spaced_digitByte ih.spaced⟩
    | true =>
      have hspaced : Spaced (95 :: digitByte next :: (restText digits ++ rest)) := by
        refine ⟨?_, ih.spaced⟩
        rintro ⟨-, hdigit⟩
        rw [isSeparator_digitByte] at hdigit
        cases hdigit
      exact ⟨written_digitByte (written_separator rfl ih.written), spaced_digitByte hspaced⟩

theorem DigitRun.follows (run : DigitRun) {rest : Bytes} (h : Follows rest) :
    Follows (run.text ++ rest) :=
  follows_restText run.first run.rest h

theorem follows_nil : Follows [] := ⟨fun _ h => (not_mem_nil h).elim, trivial⟩

theorem DigitRun.follows_self (run : DigitRun) : Follows run.text := by
  rw [← append_nil run.text]
  exact run.follows follows_nil

theorem digitsOf_restText (digits : List (Bool × Fin 10)) :
    digitsOf (restText digits) = digits.map fun digit => (digit.2 : Nat) := by
  induction digits with
  | nil => rfl
  | cons next digits ih =>
    obtain ⟨separated, next⟩ := next
    cases separated with
    | false => exact (digitsOf_digitByte next _).trans (congrArg _ ih)
    | true => exact (digitsOf_digitByte next _).trans (congrArg _ ih)

@[simp] theorem DigitRun.digitsOf_text (run : DigitRun) : digitsOf run.text = run.digits := by
  rw [DigitRun.text, digitsOf_digitByte, digitsOf_restText]
  rfl

theorem restText_ne_point (digits : List (Bool × Fin 10)) :
    ∀ byte ∈ restText digits, byte ≠ 46 := by
  intro byte hbyte
  obtain ⟨⟨separated, digit⟩, -, hread⟩ := mem_flatMap.mp hbyte
  have hdigit : digitByte digit ≠ 46 :=
    digit_ne (digitByte_bounds digit).1 (digitByte_bounds digit).2 (by decide)
  cases separated with
  | false =>
    rw [mem_singleton.mp hread]
    exact hdigit
  | true =>
    rcases mem_cons.mp hread with rfl | hread
    · decide
    · rw [mem_singleton.mp hread]
      exact hdigit

theorem DigitRun.text_ne_point (run : DigitRun) : ∀ byte ∈ run.text, byte ≠ 46 := by
  intro byte hbyte
  rcases mem_cons.mp hbyte with rfl | hrest
  · exact digit_ne (digitByte_bounds run.first).1 (digitByte_bounds run.first).2 (by decide)
  · exact restText_ne_point run.rest byte hrest

end Runs

section Literals

variable (literal : FloatLiteral)

/-- What stands behind the digits before the point. -/
def FloatLiteral.fractionText : Bytes :=
  match literal.fraction with
  | none => []
  | some none => [46]
  | some (some run) => 46 :: run.text

theorem FloatLiteral.mantissa_eq : literal.mantissa = literal.whole.text ++ literal.fractionText :=
  rfl

theorem FloatLiteral.follows_fractionText : Follows literal.fractionText := by
  rw [fractionText]
  rcases literal.fraction with _ | _ | run
  · exact follows_nil
  · exact ⟨written_separator rfl follows_nil.written, trivial⟩
  · refine ⟨written_separator rfl run.follows_self.written, ?_, run.follows_self.spaced⟩
    rintro ⟨-, hdigit⟩
    rw [isSeparator_digitByte] at hdigit
    cases hdigit

theorem FloatLiteral.follows_mantissa : Follows literal.mantissa :=
  literal.whole.follows literal.follows_fractionText

theorem FloatLiteral.digitsOf_fractionText :
    digitsOf literal.fractionText = literal.fractionDigits := by
  rw [fractionText, fractionDigits]
  rcases literal.fraction with _ | _ | run
  · rfl
  · rfl
  · rw [digitsOf_separator rfl, DigitRun.digitsOf_text]
    rfl

theorem FloatLiteral.digitsOf_mantissa : digitsOf literal.mantissa = literal.digits := by
  rw [mantissa_eq, digitsOf_append, DigitRun.digitsOf_text,
    digitsOf_fractionText]
  rfl

theorem FloatLiteral.areDigits : AreDigits literal.digits := by
  rw [← literal.digitsOf_mantissa]
  exact areDigits_digitsOf literal.follows_mantissa.written

theorem FloatLiteral.takeWhile_mantissa :
    literal.mantissa.takeWhile (· != 46) = literal.whole.text := by
  have hwhole : ∀ byte ∈ literal.whole.text, (byte != 46) = true := fun byte hbyte =>
    bne_iff_ne.mpr (literal.whole.text_ne_point byte hbyte)
  have hfraction : literal.fractionText.takeWhile (· != 46) = [] := by
    rw [fractionText]
    rcases literal.fraction with _ | _ | run
    · rfl
    · rfl
    · rfl
  rw [mantissa_eq, takeWhile_append_of_pos hwhole, hfraction, append_nil]

theorem FloatLiteral.ends : Ends literal.exponentText := by
  intro byte hbyte
  rw [exponentText] at hbyte
  cases h : literal.exponent with
  | none =>
    rw [h] at hbyte
    cases hbyte
  | some exponent =>
    rw [h] at hbyte
    cases hcapital : exponent.capital with
    | false =>
      simp only [Option.map_some, Option.getD_some, Exponent.text, hcapital] at hbyte
      cases hbyte
      rfl
    | true =>
      simp only [Option.map_some, Option.getD_some, Exponent.text, hcapital] at hbyte
      cases hbyte
      rfl

def FloatLiteral.textScan : TextScan :=
  scanText literal.text 0 ⟨literal.text.length, false, 0, 0, 0, 0, false⟩

theorem FloatLiteral.textScan_exponentPosition :
    literal.textScan.exponentPosition = literal.mantissa.length := by
  rw [textScan, FloatLiteral.text,
    scanText_exponentPosition literal.follows_mantissa.written literal.ends]
  split
  next h => rw [h, append_nil]
  next => exact Nat.zero_add _

theorem FloatLiteral.textScan_wholeDigits :
    literal.textScan.wholeDigits = literal.whole.digits.length := by
  rw [textScan, FloatLiteral.text,
    scanText_wholeDigits literal.follows_mantissa.written literal.ends, takeWhile_mantissa,
    DigitRun.digitsOf_text]
  exact Nat.zero_add _

def FloatLiteral.nonzero : Bool := literal.digits.any nonzeroDigit

def FloatLiteral.first : Nat := literal.digits.findIdx nonzeroDigit

theorem FloatLiteral.textScan_hasNonzero : literal.textScan.hasNonzero = literal.nonzero := by
  rw [textScan, FloatLiteral.text,
    scanText_hasNonzero literal.follows_mantissa.written literal.ends 0 rfl,
    digitsOf_mantissa]
  rfl

theorem FloatLiteral.textScan_first (h : literal.nonzero) :
    literal.textScan.firstNonzeroDigit = literal.first ∧
      literal.textScan.firstNonzeroSource = literal.mantissa.findIdx isNonzero := by
  have hnonzero : (digitsOf literal.mantissa).any nonzeroDigit := by
    rw [digitsOf_mantissa]
    exact h
  have hfirst := scanText_first literal.follows_mantissa.written literal.ends 0
    (s := ⟨literal.text.length, false, 0, 0, 0, 0, false⟩) rfl hnonzero
  rw [Nat.zero_add, Nat.zero_add, digitsOf_mantissa] at hfirst
  exact hfirst

/-! ## Exponents -/

def FloatLiteral.exponentDigits : List Nat :=
  (literal.exponent.map fun exponent => exponent.digits.digits).getD []

def FloatLiteral.exponentNegative : Bool := (literal.exponent.map Exponent.negative).getD false

theorem FloatLiteral.exponentValue_eq : literal.exponentValue =
    if literal.exponentNegative then -(numeral literal.exponentDigits : ℤ)
    else numeral literal.exponentDigits := by
  rw [exponentValue, exponentNegative, exponentDigits]
  cases literal.exponent with
  | none => rfl
  | some exponent => rfl

theorem FloatLiteral.exponentStart_eq :
    (exponentStart literal.text literal.mantissa.length).2 = literal.exponentNegative ∧
      literal.text.drop (exponentStart literal.text literal.mantissa.length).1 =
        ((literal.exponent.map fun exponent => exponent.digits.text).getD []) := by
  rw [FloatLiteral.text, exponentText, exponentNegative]
  cases h : literal.exponent with
  | none => simp [exponentStart]
  | some exponent =>
    obtain ⟨capital, sign, digits⟩ := exponent
    have hdigit : decimalExponentSign (digitByte digits.first) = 0 := by
      have h45 := digit_ne (digitByte_bounds digits.first).1 (digitByte_bounds digits.first).2
        (k := 45) (by decide)
      have h43 := digit_ne (digitByte_bounds digits.first).1 (digitByte_bounds digits.first).2
        (k := 43) (by decide)
      rw [decimalExponentSign, if_neg h45, if_neg h43]
    rcases sign with _ | _ | _
    · simp [exponentStart, Exponent.text, Exponent.negative, DigitRun.text, hdigit]
    · simp [exponentStart, Exponent.text, Exponent.negative, decimalExponentSign, Nat.add_assoc]
    · simp [exponentStart, Exponent.text, Exponent.negative, decimalExponentSign, Nat.add_assoc]

def numeralFrom (n : Nat) (digits : List Nat) : Nat :=
  digits.foldl (fun n digit => n * 10 + digit) n

theorem le_numeralFrom (digits : List Nat) (n : Nat) : n ≤ numeralFrom n digits := by
  induction digits generalizing n with
  | nil => exact le_refl n
  | cons digit digits ih => exact le_trans (by omega) (ih (n * 10 + digit))

structure Scanned (digits count : Nat) (value : Nat) (e : ExponentScan) : Prop where
  count : e.digits = digits + count
  overflow : e.overflow = decide (2 ^ 63 ≤ value)
  magnitude : value < 2 ^ 63 → e.magnitude = value

theorem scanExponent_overflow {bytes : Bytes} (written : Written bytes)
    (plain : ∀ byte ∈ bytes, byte ≠ 46) {s : ExponentScan} (h : s.overflow = true) :
    ∃ e, scanExponent bytes s = ok e ∧ e.overflow = true ∧
      e.digits = s.digits + (digitsOf bytes).length := by
  obtain ⟨magnitude, overflow, digits⟩ := s
  cases h
  induction written using Written.byBytes generalizing digits with
  | nil written => exact ⟨_, rfl, rfl, rfl⟩
  | point rest written ih => exact absurd rfl (plain 46 mem_cons_self)
  | underscore rest written ih =>
    exact ih (fun b hb => plain b (mem_cons_of_mem _ hb)) digits
  | digit byte rest written low high ih =>
    obtain ⟨e, hrun, hover, hdigits⟩ :=
      ih (fun b hb => plain b (mem_cons_of_mem _ hb)) (digits + 1)
    refine ⟨e, ?_, hover, ?_⟩
    · rw [scanExponent, if_pos (digit_ne low high (by decide))]
      simp only [decimalIsDigit, low, high, decide_true, Bool.and_self, require_true, ok_bind,
        Bool.not_true, Bool.false_eq_true, if_false]
      exact hrun
    · rw [hdigits, digitsOf_digit (isSeparator_digit low high), length_cons]
      exact Nat.add_right_comm ..

theorem scanExponent_spec {bytes : Bytes} (written : Written bytes)
    (plain : ∀ byte ∈ bytes, byte ≠ 46) (n digits : Nat) (small : n < 2 ^ 63) :
    ∃ e, scanExponent bytes ⟨n, false, digits⟩ = ok e ∧
      Scanned digits (digitsOf bytes).length (numeralFrom n (digitsOf bytes)) e := by
  induction written using Written.byBytes generalizing n digits with
  | nil written =>
    refine ⟨⟨n, false, digits⟩, rfl, rfl, ?_, fun _ => rfl⟩
    exact (decide_eq_false (not_le.mpr small)).symm
  | point rest written ih => exact absurd rfl (plain 46 mem_cons_self)
  | underscore rest written ih =>
    exact ih (fun b hb => plain b (mem_cons_of_mem _ hb)) n digits small
  | digit byte rest written low high ih =>
    have hplain : ∀ b ∈ rest, b ≠ 46 := fun b hb => plain b (mem_cons_of_mem _ hb)
    have hbounds := digit_bounds low high
    have hread := toNat_digit low
    rw [scanExponent, if_pos (digit_ne low high (by decide))]
    rw [digitsOf_digit (isSeparator_digit low high), length_cons]
    simp only [decimalIsDigit, low, high, decide_true, Bool.and_self, require_true, ok_bind,
      Bool.not_false, if_true]
    generalize hdigit : (byte - 48).toNat = digit at hread ⊢
    split
    next hlarge =>
      -- The next number is out of range, and so are all that follow.
      obtain ⟨e, hrun, hover, hdigits⟩ := scanExponent_overflow written.tail hplain
        (s := ⟨n, true, digits + 1⟩) rfl
      have hlow : 2 ^ 63 ≤ n * 10 + digit := by omega
      have hge : 2 ^ 63 ≤ numeralFrom n (digit :: digitsOf rest) :=
        le_trans hlow (le_numeralFrom (digitsOf rest) (n * 10 + digit))
      refine ⟨e, hrun, ?_, ?_, ?_⟩
      · rw [hdigits]
        exact Nat.add_right_comm ..
      · rw [hover, decide_eq_true hge]
      · intro hlt
        omega
    rename_i hfits
    have hsmall : n * 10 + digit < 2 ^ 63 := by omega
    have hscaled : checked ((n : Int) * 10) = ok ((n : Int) * 10) := by
      rw [checked, if_pos]
      rw [CheckedInt64.InRange]
      omega
    have hsum : checked ((n : Int) * 10 + digit) = ok ((n * 10 + digit : Nat) : Int) := by
      rw [checked, if_pos]
      · push_cast
        rfl
      · rw [CheckedInt64.InRange]
        omega
    obtain ⟨e, hrun, hcount, hover, hmagnitude⟩ := ih hplain (n * 10 + digit) (digits + 1) hsmall
    rw [hscaled, ok_bind, hsum, ok_bind]
    refine ⟨e, hrun, ?_, hover, hmagnitude⟩
    rw [hcount]
    omega

end Literals

/-! ## Values -/

section Values

variable {digits : List Nat}

theorem drop_first (h : digits.any nonzeroDigit) : ∃ digit rest,
    digits.drop (digits.findIdx nonzeroDigit) = digit :: rest ∧ 0 < digit := by
  have hlt : digits.findIdx nonzeroDigit < digits.length := findIdx_lt_length.mpr
    (any_eq_true.mp h)
  refine ⟨_, _, drop_eq_getElem_cons hlt, ?_⟩
  have := findIdx_getElem (w := hlt)
  exact Nat.pos_of_ne_zero (by simpa using this)

theorem zeros_before_first (digits : List Nat) :
    ∀ digit ∈ digits.take (digits.findIdx nonzeroDigit), digit = 0 := by
  intro digit hdigit
  obtain ⟨i, hi, rfl⟩ := mem_iff_getElem.mp hdigit
  rw [length_take] at hi
  rw [getElem_take]
  simpa using not_of_lt_findIdx (lt_min_iff.mp hi).1

theorem numeral_scaled (digits : List Nat) (power : ℤ) :
    (numeral digits : ℚ) * 10 ^ power =
      fractionValue (digits.drop (digits.findIdx nonzeroDigit)) *
        10 ^ (power + digits.length - digits.findIdx nonzeroDigit) := by
  have hten : (10 : ℚ) ≠ 0 := by norm_num
  rw [numeral_eq, ← fractionValue_drop_zeros (zeros_before_first digits) findIdx_le_length,
    mul_assoc, mul_assoc, ← zpow_natCast, ← zpow_natCast, ← zpow_add₀ hten, ← zpow_add₀ hten]
  congr 2
  ring

theorem numeral_pos (h : digits.any nonzeroDigit) : 0 < numeral digits := by
  obtain ⟨digit, rest, hdrop, hpos⟩ := drop_first h
  have hscaled := numeral_scaled digits 0
  rw [zpow_zero, mul_one, hdrop] at hscaled
  have htenth : 1 / 10 ≤ fractionValue (digit :: rest) := fractionValue_ge hpos
  have hpower : (0 : ℚ) < 10 ^ ((0 : ℤ) + digits.length - digits.findIdx nonzeroDigit) :=
    zpow_pos (by norm_num) _
  have hcast : (0 : ℚ) < numeral digits := by
    rw [hscaled]
    exact mul_pos (by linarith) hpower
  exact_mod_cast hcast

theorem numeral_eq_zero (h : digits.any nonzeroDigit = false) : numeral digits = 0 := by
  rw [any_eq_false] at h
  rw [numeral]
  induction digits with
  | nil => rfl
  | cons digit digits ih =>
    have hzero : digit = 0 := by simpa using h digit mem_cons_self
    rw [foldl_cons, hzero]
    exact ih fun d hd => h d (mem_cons_of_mem _ hd)

end Values

/-! ## The comparison -/

structure Scaled (value : ℚ) (digits : List Nat) (order : ℤ) : Prop where
  areDigits : AreDigits digits
  head : ∃ digit rest, digits = digit :: rest ∧ 0 < digit
  value_eq : value = fractionValue digits * 10 ^ order

section Scaled

variable {a b : ℚ} {as bs : List Nat} {m n : ℤ}

theorem Scaled.sign_of_lt (ha : Scaled a as m) (hb : Scaled b bs n) (h : m < n) :
    (SignType.sign (a - b) : Int) = -1 := by
  obtain ⟨digit, rest, hbs, hpos⟩ := hb.head
  have hlt : fractionValue as * 10 ^ m < fractionValue (digit :: rest) * 10 ^ n :=
    scaled_lt_of_order ha.areDigits hpos h
  rw [← hbs, ← hb.value_eq, ← ha.value_eq] at hlt
  rw [sign_neg (sub_neg.mpr hlt)]
  rfl

theorem Scaled.sign_of_gt (ha : Scaled a as m) (hb : Scaled b bs n) (h : n < m) :
    (SignType.sign (a - b) : Int) = 1 := by
  rw [← neg_sub, Left.sign_neg, SignType.coe_neg, hb.sign_of_lt ha h, neg_neg]

theorem Scaled.sign_of_eq (ha : Scaled a as m) (hb : Scaled b bs n) (h : m = n) :
    (SignType.sign (a - b) : Int) = compareDigits as bs := by
  have hpower : (0 : ℚ) < 10 ^ n := zpow_pos (by norm_num) n
  rw [compareDigits_eq ha.areDigits hb.areDigits, ha.value_eq, hb.value_eq, h, ← sub_mul, sign_mul,
    sign_pos hpower, mul_one]

end Scaled

theorem FloatLiteral.scaled (literal : FloatLiteral) (h : literal.nonzero) :
    Scaled literal.value (literal.digits.drop literal.first) literal.order := by
  refine ⟨literal.areDigits.drop _, drop_first h, ?_⟩
  rw [FloatLiteral.value, numeral_scaled]
  congr 2
  rw [FloatLiteral.order, FloatLiteral.digits, length_append]
  push_cast
  ring

structure IsBoundary (limit : Bytes) : Prop extends IsDecimal limit where
  nonzero : (digitsOf limit).any nonzeroDigit
  short : limit.length < 2 ^ 62

/-- The power of ten above the first digit that is not zero. -/
def limitOrder (limit : Bytes) : ℤ :=
  (digitsOf (limit.takeWhile (· != 46))).length - (digitsOf limit).findIdx nonzeroDigit

section Boundary

variable {limit : Bytes}

theorem IsBoundary.scaled (h : IsBoundary limit) :
    Scaled (decimalValue limit) ((digitsOf limit).drop ((digitsOf limit).findIdx nonzeroDigit))
      (limitOrder limit) := by
  refine ⟨(areDigits_digitsOf h.written).drop _, drop_first h.nonzero, ?_⟩
  have hsplit : (digitsOf limit).length = (digitsOf (limit.takeWhile (· != 46))).length +
      (digitsOf (limit.dropWhile (· != 46))).length := by
    rw [← length_append, ← digitsOf_append, takeWhile_append_dropWhile]
  rw [decimalValue, div_eq_mul_inv, ← zpow_natCast, ← zpow_neg, numeral_scaled]
  congr 2
  rw [limitOrder, hsplit]
  push_cast
  ring

def limitScan (limit : Bytes) : LimitScan := scanLimit limit 0 ⟨limit.length, 0, 0, 0, false⟩

theorem IsBoundary.limitScan_decimalPosition (h : IsBoundary limit) :
    (limitScan limit).decimalPosition = (digitsOf (limit.takeWhile (· != 46))).length := by
  rw [limitScan, scanLimit_decimalPosition h.written h.plain h.point 0 (Nat.zero_add _).symm,
    Nat.zero_add]

theorem IsBoundary.limitScan_first (h : IsBoundary limit) :
    (limitScan limit).hasNonzero = true ∧
      (limitScan limit).firstNonzero = (digitsOf limit).findIdx nonzeroDigit ∧
        (limitScan limit).firstNonzeroSource = limit.findIdx isNonzero := by
  have hfirst :=
    scanLimit_first h.written h.plain 0 (s := ⟨limit.length, 0, 0, 0, false⟩) rfl h.nonzero
  rw [Nat.zero_add, Nat.zero_add] at hfirst
  exact hfirst

theorem length_digitsOf_le (bytes : Bytes) : (digitsOf bytes).length ≤ bytes.length :=
  length_filterMap_le _ _

theorem IsBoundary.position_le (h : IsBoundary limit) :
    (digitsOf (limit.takeWhile (· != 46))).length < 2 ^ 62 :=
  lt_of_le_of_lt (le_trans (length_digitsOf_le _) ( takeWhile_prefix _).length_le) h.short

theorem IsBoundary.first_le (h : IsBoundary limit) :
    (digitsOf limit).findIdx nonzeroDigit < 2 ^ 62 :=
  lt_of_le_of_lt (le_trans findIdx_le_length (length_digitsOf_le _)) h.short

end Boundary

theorem toI64_small {n : Nat} (h : n < 2 ^ 62) : toI64 n = n :=
  CheckedInt64.bmod_of_inRange ⟨by omega, by omega⟩

theorem checked_of_inRange {value : Int} (low : -9223372036854775808 ≤ value)
    (high : value < 9223372036854775808) : checked value = ok value := if_pos ⟨low, high⟩

section Comparison

variable (literal : FloatLiteral) {limit : Bytes}

theorem FloatLiteral.length_digits_le : literal.digits.length ≤ literal.text.length := by
  rw [← literal.digitsOf_mantissa, FloatLiteral.text, length_append]
  exact le_trans (length_digitsOf_le _) (Nat.le_add_right _ _)

theorem FloatLiteral.length_whole_le : literal.whole.digits.length ≤ literal.text.length := by
  refine le_trans ?_ literal.length_digits_le
  rw [FloatLiteral.digits, length_append]
  exact Nat.le_add_right _ _

theorem FloatLiteral.order_eq : literal.order =
    literal.whole.digits.length + literal.exponentValue - literal.first := rfl

def FloatLiteral.compare (limit : Bytes) : Int := SignType.sign (literal.value - decimalValue limit)

theorem FloatLiteral.source_take :
    (literal.text.take literal.mantissa.length).drop (literal.mantissa.findIdx isNonzero) =
      literal.mantissa.drop (literal.mantissa.findIdx isNonzero) := by
  rw [FloatLiteral.text, take_left']
  rfl

theorem FloatLiteral.compareFrom_first (boundary : IsBoundary limit) :
    compareFrom
      ((literal.text.take literal.mantissa.length).drop (literal.mantissa.findIdx isNonzero))
        (limit.drop (limit.findIdx isNonzero)) =
      compareDigits (literal.digits.drop literal.first)
        ((digitsOf limit).drop ((digitsOf limit).findIdx nonzeroDigit)) := by
  have hmantissa := literal.follows_mantissa
  rw [source_take, compareFrom_eq (hmantissa.written.drop _) (hmantissa.spaced.drop _)
    (boundary.written.drop _) (boundary.spaced.drop _)
    (fun byte hbyte => boundary.plain byte (mem_of_mem_drop hbyte)),
    digitsOf_drop_first hmantissa.written, digitsOf_drop_first boundary.written,
    digitsOf_mantissa]
  rfl

theorem FloatLiteral.compareOrders_eq (boundary : IsBoundary limit)
    (short : literal.text.length < 2 ^ 62) (nonzero : literal.nonzero) {position : Int}
    (hposition : literal.order = position - literal.first) (high : position < 9223372036854775808) :
    compareOrders literal.text limit literal.textScan (limitScan limit) position =
      if literal.order < -9223372036854775808 then fault .overflow
      else ok (literal.compare limit, false) := by
  have hfirst : literal.first < 2 ^ 62 :=
    lt_of_le_of_lt (le_trans findIdx_le_length literal.length_digits_le) short
  have hpoint := boundary.position_le
  have hlimit := boundary.first_le
  have hlimitOrder : checked ((digitsOf (limit.takeWhile (· != 46))).length -
      ((digitsOf limit).findIdx nonzeroDigit : Int)) = ok (limitOrder limit) :=
    checked_of_inRange (by omega) (by omega)
  rw [compareOrders, (literal.textScan_first nonzero).1,
    (literal.textScan_first nonzero).2, literal.textScan_exponentPosition,
    boundary.limitScan_decimalPosition, boundary.limitScan_first.2.1, boundary.limitScan_first.2.2,
    toI64_small hfirst, toI64_small hpoint, toI64_small hlimit, ← hposition, hlimitOrder]
  have hliteral := literal.scaled nonzero
  split
  next hlow =>
    have hout : checked literal.order = fault .overflow :=
      if_neg fun h => absurd h.1 (not_le.mpr hlow)
    rw [hout]
    rfl
  rename_i hlow
  rw [checked_of_inRange (not_lt.mp hlow) (by omega), ok_bind, ok_bind]
  rcases lt_trichotomy literal.order (limitOrder limit) with hlt | heq | hgt
  · rw [if_neg hlt.not_gt, if_pos hlt, FloatLiteral.compare,
      hliteral.sign_of_lt boundary.scaled hlt]
  · rw [if_neg heq.not_gt, if_neg heq.not_lt, FloatLiteral.compare,
      hliteral.sign_of_eq boundary.scaled heq, literal.compareFrom_first boundary]
  · rw [if_pos hgt, FloatLiteral.compare, hliteral.sign_of_gt boundary.scaled hgt]

theorem limitOrder_bounds (boundary : IsBoundary limit) :
    -4611686018427387904 < limitOrder limit ∧ limitOrder limit < 4611686018427387904 := by
  have hpoint := boundary.position_le
  have hlimit := boundary.first_le
  rw [limitOrder]
  omega

theorem FloatLiteral.compareScaled_fits (boundary : IsBoundary limit)
    (short : literal.text.length < 2 ^ 62) (nonzero : literal.nonzero)
    (fits : numeral literal.exponentDigits < 2 ^ 63) :
    orGreater (do
        let decimalPosition ← scaledPosition literal.exponentNegative
          (toI64 literal.textScan.wholeDigits) (numeral literal.exponentDigits)
        compareOrders literal.text limit literal.textScan (limitScan limit) decimalPosition) =
      if literal.order < -9223372036854775808 then fault .overflow
      else ok (literal.compare limit, false) := by
  have hwhole := lt_of_le_of_lt literal.length_whole_le short
  have hfirst : literal.first < 2 ^ 62 :=
    lt_of_le_of_lt (le_trans findIdx_le_length literal.length_digits_le) short
  have hbounds := limitOrder_bounds boundary
  have horder := literal.order_eq
  rw [literal.exponentValue_eq] at horder
  rw [literal.textScan_wholeDigits, toI64_small hwhole]
  cases hnegative : literal.exponentNegative with
  | true =>
    rw [hnegative, if_pos rfl] at horder
    rw [scaledPosition, if_pos rfl, checked_of_inRange (by omega) (by omega), ok_bind,
      literal.compareOrders_eq boundary short nonzero (by omega) (by omega)]
    split
    next => rfl
    next => rfl
  | false =>
    rw [hnegative, if_neg Bool.false_ne_true] at horder
    rw [scaledPosition, if_neg Bool.false_ne_true,
      checked_of_inRange (by omega) (by omega), ok_bind]
    cases hroom : decide ((numeral literal.exponentDigits : Int) ≤
        9223372036854775807 - literal.whole.digits.length) with
    | true =>
      have hle := of_decide_eq_true hroom
      rw [require_true, ok_bind, checked_of_inRange (by omega) (by omega), ok_bind,
        literal.compareOrders_eq boundary short nonzero (by omega) (by omega)]
      split
      next => rfl
      next => rfl
    | false =>
      have hgt := of_decide_eq_false hroom
      rw [require_false, invalid_bind, invalid_bind, orGreater, if_neg (by omega),
        FloatLiteral.compare,
        (literal.scaled nonzero).sign_of_gt boundary.scaled (by omega)]

theorem FloatLiteral.scanExponent_eq : ∃ e,
    scanExponent ((literal.exponent.map fun exponent => exponent.digits.text).getD [])
      ⟨0, false, 0⟩ =
      ok e ∧ Scanned 0 literal.exponentDigits.length (numeral literal.exponentDigits) e := by
  rw [exponentDigits]
  cases literal.exponent with
  | none => exact ⟨_, rfl, rfl, rfl, fun _ => rfl⟩
  | some exponent =>
    obtain ⟨e, hrun, hscanned⟩ := scanExponent_spec exponent.digits.follows_self.written
      exponent.digits.text_ne_point 0 0 (by norm_num)
    rw [DigitRun.digitsOf_text] at hscanned
    exact ⟨e, hrun, hscanned⟩

theorem FloatLiteral.exponentDigits_pos (h : literal.mantissa.length < literal.text.length) :
    literal.exponentDigits.length ≠ 0 := by
  rw [FloatLiteral.text, exponentText] at h
  rw [exponentDigits]
  cases hexponent : literal.exponent with
  | none =>
    rw [hexponent] at h
    simp at h
  | some exponent => exact Nat.succ_ne_zero _

theorem FloatLiteral.compareScaled_eq (boundary : IsBoundary limit)
    (short : literal.text.length < 2 ^ 62) (nonzero : literal.nonzero) :
    orGreater (compareScaled literal.text limit literal.textScan (limitScan limit)) =
      if literal.Underflows then fault .overflow else ok (literal.compare limit, false) := by
  obtain ⟨e, hrun, hcount, hoverflow, hmagnitude⟩ := literal.scanExponent_eq
  obtain ⟨hnegative, hdrop⟩ := literal.exponentStart_eq
  have hdigits : ¬ (literal.mantissa.length < literal.text.length ∧ e.digits = 0) := by
    rintro ⟨hlt, hzero⟩
    have := literal.exponentDigits_pos hlt
    omega
  have hbounds := limitOrder_bounds boundary
  have hwhole := lt_of_le_of_lt literal.length_whole_le short
  have hfirst : literal.first < 2 ^ 62 :=
    lt_of_le_of_lt (le_trans findIdx_le_length literal.length_digits_le) short
  have horder := literal.order_eq
  have hexponent := literal.exponentValue_eq
  have hliteral := literal.scaled nonzero
  rw [compareScaled, literal.textScan_exponentPosition, hdrop, hrun, ok_bind, if_neg hdigits,
    hoverflow, hnegative]
  rcases lt_or_ge (numeral literal.exponentDigits) (2 ^ 63) with hfits | hlarge
  · -- The exponent is a signed number.
    have hunderflows : literal.Underflows ↔ literal.order < -9223372036854775808 := by
      constructor
      · exact fun h => h.2.2
      · intro h
        refine ⟨nonzero, ?_, h⟩
        rw [hexponent]
        split <;> omega
    rw [decide_eq_false (not_le.mpr hfits), Bool.false_and, if_neg Bool.false_ne_true,
      if_neg Bool.false_ne_true, hmagnitude hfits,
      literal.compareScaled_fits boundary short nonzero hfits]
    simp only [hunderflows]
  · rw [decide_eq_true hlarge, Bool.true_and]
    cases h : literal.exponentNegative with
    | true =>
      rw [h, if_pos rfl] at hexponent
      have hunderflows : ¬ literal.Underflows := fun h => absurd h.2.1 (by omega)
      rw [if_pos rfl, if_neg hunderflows, FloatLiteral.compare,
        hliteral.sign_of_lt boundary.scaled (by omega)]
      rfl
    | false =>
      rw [h, if_neg Bool.false_ne_true] at hexponent
      have hunderflows : ¬ literal.Underflows := fun h => absurd h.2.2 (by omega)
      rw [if_neg Bool.false_ne_true, if_pos rfl, if_neg hunderflows, FloatLiteral.compare,
        hliteral.sign_of_gt boundary.scaled (by omega)]
      rfl

theorem FloatLiteral.value_pos (h : literal.nonzero) : 0 < literal.value := by
  have : (0 : ℚ) < numeral literal.digits := by exact_mod_cast numeral_pos h
  exact mul_pos this (zpow_pos (by norm_num) _)

theorem FloatLiteral.value_eq_zero (h : literal.nonzero = false) : literal.value = 0 := by
  rw [FloatLiteral.value, numeral_eq_zero h, Nat.cast_zero, zero_mul]

theorem FloatLiteral.value_nonneg : 0 ≤ literal.value := by
  cases h : literal.nonzero with
  | true => exact (literal.value_pos h).le
  | false => exact (literal.value_eq_zero h).ge

theorem IsBoundary.decimalValue_pos (boundary : IsBoundary limit) : 0 < decimalValue limit := by
  have : (0 : ℚ) < numeral (digitsOf limit) := by exact_mod_cast numeral_pos boundary.nonzero
  exact div_pos this (by positivity)

/-- The comparison of a literal with a boundary traps if the power of the first digit is below the
signed numbers, while the exponent is one of them.  Otherwise it is that of the values. -/
theorem decimalValueCompare_spec (boundary : IsBoundary limit)
    (short : literal.text.length < 2 ^ 62) :
    decimalValueCompare literal.text limit =
      if literal.Underflows then fault .overflow
      else ok ((SignType.sign (literal.value - decimalValue limit) : Int),
        decide (literal.value = 0)) := by
  have hscans : decimalValueCompare literal.text limit =
      if !literal.textScan.hasNonzero then ok (-1, true)
      else if !(limitScan limit).hasNonzero then ok (1, false)
      else orGreater (compareScaled literal.text limit literal.textScan (limitScan limit)) := rfl
  rw [hscans, literal.textScan_hasNonzero, boundary.limitScan_first.1]
  cases h : literal.nonzero with
  | true =>
    rw [if_neg (by decide), if_neg (by decide), literal.compareScaled_eq boundary short h,
      decide_eq_false (literal.value_pos h).ne']
    rfl
  | false =>
    have hunderflows : ¬ literal.Underflows := by
      rintro ⟨hany, -⟩
      rw [show literal.digits.any (fun digit => digit != 0) = false from h] at hany
      cases hany
    rw [if_pos (by decide), if_neg hunderflows, literal.value_eq_zero h, zero_sub,
      Left.sign_neg, sign_pos boundary.decimalValue_pos]
    rfl

end Comparison

end Elisa.Semantic.FloatCastRange
