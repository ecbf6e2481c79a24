import Elisa.Semantic.FloatCastRange
import Mathlib.Data.List.TakeWhile

/-!
# The digits of float literals

The literals of the lexer are runs of digits, with a `_` between two digits at most, a point with
digits behind it, and an exponent with a sign (`FloatLiteral`).  What the scans find out is said by
the digits (`digitsOf`): how many stand before the point, and which is the first that is not zero
(`scanText_wholeDigits`, `scanText_first`).  The loop over the texts compares these digits
(`compareFrom_eq`).
-/

namespace Elisa.Semantic.FloatCastRange

open Elisa.Lib Outcome List

/-! ## Literals -/

def digitByte (digit : Fin 10) : UInt8 := UInt8.ofNat (48 + digit)

structure DigitRun where
  first : Fin 10
  rest : List (Bool × Fin 10)
  deriving DecidableEq

def restText (rest : List (Bool × Fin 10)) : Bytes :=
  rest.flatMap fun (separated, digit) =>
    if separated then [95, digitByte digit] else [digitByte digit]

def DigitRun.text (run : DigitRun) : Bytes := digitByte run.first :: restText run.rest

def DigitRun.digits (run : DigitRun) : List Nat := run.first :: run.rest.map fun digit => digit.2

structure Exponent where
  capital : Bool
  /-- The sign; `-` if it is `true`. -/
  sign : Option Bool
  digits : DigitRun
  deriving DecidableEq

def Exponent.negative (exponent : Exponent) : Bool := exponent.sign == some true

def Exponent.text (exponent : Exponent) : Bytes :=
  let sign : Bytes := match exponent.sign with
    | none => []
    | some true => [45]
    | some false => [43]
  (if exponent.capital then 69 else 101) :: (sign ++ exponent.digits.text)

/-- A decimal float literal: the digits before the point, what stands behind a point if there is
one, and the exponent. -/
structure FloatLiteral where
  whole : DigitRun
  fraction : Option (Option DigitRun)
  exponent : Option Exponent
  deriving DecidableEq

def FloatLiteral.mantissa (literal : FloatLiteral) : Bytes :=
  literal.whole.text ++ match literal.fraction with
    | none => []
    | some none => [46]
    | some (some run) => 46 :: run.text

def FloatLiteral.exponentText (literal : FloatLiteral) : Bytes :=
  (literal.exponent.map Exponent.text).getD []

def FloatLiteral.text (literal : FloatLiteral) : Bytes := literal.mantissa ++ literal.exponentText

def FloatLiteral.fractionDigits (literal : FloatLiteral) : List Nat :=
  ((literal.fraction.bind id).map DigitRun.digits).getD []

def FloatLiteral.digits (literal : FloatLiteral) : List Nat :=
  literal.whole.digits ++ literal.fractionDigits

def FloatLiteral.exponentValue (literal : FloatLiteral) : ℤ :=
  match literal.exponent with
  | none => 0
  | some exponent =>
    if exponent.negative then -(numeral exponent.digits.digits : ℤ)
    else numeral exponent.digits.digits

def FloatLiteral.value (literal : FloatLiteral) : ℚ :=
  numeral literal.digits * 10 ^ (literal.exponentValue - literal.fractionDigits.length)

/-- The power of ten above the first digit that is not zero. -/
def FloatLiteral.order (literal : FloatLiteral) : ℤ :=
  literal.whole.digits.length + literal.exponentValue -
    (literal.digits.findIdx fun digit => digit != 0)

/-- The exponent is a signed 64-bit number, but the power of the first digit is below them. -/
def FloatLiteral.Underflows (literal : FloatLiteral) : Prop :=
  (literal.digits.any fun digit => digit != 0) ∧ -9223372036854775808 < literal.exponentValue ∧
    literal.order < -9223372036854775808

instance (literal : FloatLiteral) : Decidable literal.Underflows :=
  inferInstanceAs (Decidable (_ ∧ _ ∧ _))

/-! ## The digits of a text -/

def isSeparator (byte : UInt8) : Bool := byte == 46 || byte == 95

def digitsOf (bytes : Bytes) : List Nat :=
  bytes.filterMap fun byte => if isSeparator byte then none else some (byte - 48).toNat

def Written (bytes : Bytes) : Prop := ∀ byte ∈ bytes, isSeparator byte ∨ 48 ≤ byte ∧ byte ≤ 57

/-- No two separators stand side by side. -/
def Spaced : Bytes → Prop
  | a :: b :: rest => ¬ (isSeparator a ∧ isSeparator b) ∧ Spaced (b :: rest)
  | _ => True

section Digits

variable {byte : UInt8} {bytes : Bytes}

theorem Written.tail (h : Written (byte :: bytes)) : Written bytes :=
  fun b hb => h b (mem_cons_of_mem _ hb)

theorem Written.head (h : Written (byte :: bytes)) (digit : isSeparator byte = false) :
    48 ≤ byte ∧ byte ≤ 57 := by
  have := h byte mem_cons_self
  rw [digit] at this
  simpa using this

/-- A text is written byte by byte. -/
@[elab_as_elim] theorem Written.byBytes {motive : (bytes : Bytes) → Written bytes → Prop}
    (nil : ∀ written, motive [] written)
    (point : ∀ rest (written : Written (46 :: rest)), motive rest written.tail →
      motive (46 :: rest) written)
    (underscore : ∀ rest (written : Written (95 :: rest)), motive rest written.tail →
      motive (95 :: rest) written)
    (digit : ∀ byte rest (written : Written (byte :: rest)), 48 ≤ byte → byte ≤ 57 →
      motive rest written.tail → motive (byte :: rest) written)
    {bytes : Bytes} (written : Written bytes) : motive bytes written := by
  induction bytes with
  | nil => exact nil written
  | cons byte rest ih =>
    rcases written byte mem_cons_self with hsep | hdigit
    · rw [isSeparator, Bool.or_eq_true, beq_iff_eq, beq_iff_eq] at hsep
      rcases hsep with rfl | rfl
      · exact point rest written (ih written.tail)
      · exact underscore rest written (ih written.tail)
    · exact digit byte rest written hdigit.1 hdigit.2 (ih written.tail)

theorem Spaced.tail (h : Spaced (byte :: bytes)) : Spaced bytes := by
  cases bytes with
  | nil => trivial
  | cons b rest => exact h.2

theorem Written.drop (h : Written bytes) (count : Nat) : Written (bytes.drop count) :=
  fun b hb => h b (mem_of_mem_drop hb)

theorem Spaced.drop (h : Spaced bytes) (count : Nat) : Spaced (bytes.drop count) := by
  induction count generalizing bytes with
  | zero => exact h
  | succ count ih =>
    cases bytes with
    | nil => trivial
    | cons byte rest => exact ih h.tail

@[simp] theorem digitsOf_nil : digitsOf [] = [] := rfl

@[simp] theorem digitsOf_separator (h : isSeparator byte = true) :
    digitsOf (byte :: bytes) = digitsOf bytes := by
  simp [digitsOf, h]

@[simp] theorem digitsOf_digit (h : isSeparator byte = false) :
    digitsOf (byte :: bytes) = (byte - 48).toNat :: digitsOf bytes := by
  simp [digitsOf, h]

theorem digitsOf_append (left right : Bytes) :
    digitsOf (left ++ right) = digitsOf left ++ digitsOf right :=
  filterMap_append ..

theorem toNat_digit (low : 48 ≤ byte) : (byte - 48).toNat = byte.toNat - 48 := by
  have := UInt8.le_iff_toNat_le.mp low
  rw [UInt8.toNat_sub_of_le _ _ low]
  rfl

theorem areDigits_digitsOf (h : Written bytes) : AreDigits (digitsOf bytes) := by
  intro digit hdigit
  obtain ⟨byte, hbyte, hread⟩ := mem_filterMap.mp hdigit
  split at hread
  next => cases hread
  rename_i hsep
  obtain ⟨low, high⟩ := (h byte hbyte).resolve_left hsep
  have := UInt8.le_iff_toNat_le.mp low
  have hle := UInt8.le_iff_toNat_le.mp high
  rw [Option.some.injEq, toNat_digit low] at hread
  have h57 : (57 : UInt8).toNat = 57 := rfl
  omega

/-! ## The loop over both texts -/

/-- The next digit is the first one of the text, and the rest are those that are left. -/
structure Next (bytes : Bytes) (next : UInt8 × Bytes) : Prop where
  written : Written next.2
  spaced : Spaced next.2
  sub : ∀ byte ∈ next.2, byte ∈ bytes
  low : 48 ≤ next.1
  digit : (next.1 - 48).toNat = (digitsOf bytes).headD 0
  rest : digitsOf next.2 = (digitsOf bytes).tail

theorem nextDigit_spec {separates : UInt8 → Bool} (written : Written bytes) (spaced : Spaced bytes)
    (separators : ∀ byte ∈ bytes, separates byte = isSeparator byte) :
    Next bytes (nextDigit separates bytes) := by
  cases bytes with
  | nil =>
    refine ⟨written, spaced, fun _ h => h, UInt8.le_refl 48, ?_, rfl⟩
    simp [nextDigit]
  | cons byte rest =>
    have hsep := separators byte mem_cons_self
    cases hbyte : isSeparator byte with
    | false =>
      have hnext : nextDigit separates (byte :: rest) = (byte, rest) := by
        simp [nextDigit, hsep, hbyte]
      rw [hnext]
      refine ⟨written.tail, spaced.tail, fun _ h => mem_cons_of_mem _ h,
        (written.head hbyte).1, ?_, ?_⟩
      · rw [digitsOf_digit hbyte, headD_cons]
      · rw [digitsOf_digit hbyte, tail_cons]
    | true =>
      cases rest with
      | nil =>
        have hnext : nextDigit separates [byte] = (48, []) := by
          simp [nextDigit, hsep, hbyte]
        rw [hnext]
        refine ⟨written.tail, spaced.tail, fun _ h => (not_mem_nil h).elim,
          UInt8.le_refl 48, ?_, ?_⟩
        · rw [digitsOf_separator hbyte]
          rfl
        · rw [digitsOf_separator hbyte]
          rfl
      | cons digit rest =>
        have hdigit : isSeparator digit = false := by
          have := spaced.1
          rw [hbyte] at this
          simpa using this
        have hnext : nextDigit separates (byte :: digit :: rest) = (digit, rest) := by
          simp [nextDigit, hsep, hbyte]
        rw [hnext]
        refine ⟨written.tail.tail, spaced.tail.tail,
          fun _ h => mem_cons_of_mem _ (mem_cons_of_mem _ h),
          (written.tail.head hdigit).1, ?_, ?_⟩
        · rw [digitsOf_separator hbyte, digitsOf_digit hdigit, headD_cons]
        · rw [digitsOf_separator hbyte, digitsOf_digit hdigit, tail_cons]

theorem lt_digit {a b : UInt8} (ha : 48 ≤ a) (hb : 48 ≤ b) :
    (a - 48).toNat < (b - 48).toNat ↔ a < b := by
  have := UInt8.le_iff_toNat_le.mp ha
  have := UInt8.le_iff_toNat_le.mp hb
  have h48 : (48 : UInt8).toNat = 48 := rfl
  rw [toNat_digit ha, toNat_digit hb, UInt8.lt_iff_toNat_lt]
  omega

theorem compareFrom_eq {source limit : Bytes} (hsource : Written source) (ssource : Spaced source)
    (hlimit : Written limit) (slimit : Spaced limit) (plain : ∀ byte ∈ limit, byte ≠ 95) :
    compareFrom source limit = compareDigits (digitsOf source) (digitsOf limit) := by
  have next {source limit : Bytes} (hsource : Written source) (ssource : Spaced source)
      (hlimit : Written limit) (slimit : Spaced limit) (plain : ∀ byte ∈ limit, byte ≠ 95) :
      Next source (nextDigit separatesText source) ∧
        Next limit (nextDigit separatesLimit limit) := by
    refine ⟨nextDigit_spec hsource ssource fun _ _ => rfl, nextDigit_spec hlimit slimit ?_⟩
    intro byte hbyte
    simp [separatesLimit, isSeparator, plain byte hbyte]
  fun_induction compareFrom source limit with
  | case1 source limit rest sourceDigit limitDigit h =>
    obtain ⟨hs, hl⟩ := next hsource ssource hlimit slimit plain
    rw [compareDigits_next, ← hs.digit, ← hl.digit, if_pos ((lt_digit hl.low hs.low).mpr h)]
  | case2 source limit rest sourceDigit limitDigit h h' =>
    obtain ⟨hs, hl⟩ := next hsource ssource hlimit slimit plain
    rw [compareDigits_next, ← hs.digit, ← hl.digit,
      if_neg (fun hlt => h ((lt_digit hl.low hs.low).mp hlt)),
      if_pos ((lt_digit hs.low hl.low).mpr h')]
  | case3 source limit rest sourceDigit limitDigit h h' ih =>
    obtain ⟨hs, hl⟩ := next hsource ssource hlimit slimit plain
    rw [compareDigits_next, ← hs.digit, ← hl.digit,
      if_neg (fun hlt => h ((lt_digit hl.low hs.low).mp hlt)),
      if_neg (fun hlt => h' ((lt_digit hs.low hl.low).mp hlt)), ← hs.rest, ← hl.rest]
    exact ih hs.written hs.spaced hl.written hl.spaced fun byte hbyte =>
      plain byte (hl.sub byte hbyte)
  | case4 source limit rest =>
    have hnil : source = [] ∧ limit = [] := by
      rw [← length_eq_zero_iff, ← length_eq_zero_iff]
      omega
    rw [hnil.1, hnil.2, digitsOf_nil, compareDigits]

end Digits

/-! ## The first digit that is not zero -/

/-- What both scans know of it: the digits that were passed, and which one it is and where. -/
structure Firsts where
  digits : Nat
  digit : Nat
  source : Nat
  found : Bool

def Firsts.next (f : Firsts) (byte : UInt8) (at_ : Nat) : Firsts :=
  if isSeparator byte then f
  else
    { digits := f.digits + 1
      digit := if !f.found && byte != 48 then f.digits else f.digit
      source := if !f.found && byte != 48 then at_ else f.source
      found := f.found || byte != 48 }

def Firsts.scan (f : Firsts) : Bytes → Nat → Firsts
  | [], _ => f
  | byte :: rest, at_ => (f.next byte at_).scan rest (at_ + 1)

def isNonzero (byte : UInt8) : Bool := !isSeparator byte && byte != 48

abbrev nonzeroDigit (digit : Nat) : Bool := digit != 0

section Firsts

variable {byte : UInt8} {f : Firsts}

theorem nonzeroDigit_digit : nonzeroDigit (byte - 48).toNat = (byte != 48) := by
  rw [Bool.eq_iff_iff, nonzeroDigit, bne_iff_ne, bne_iff_ne, not_iff_not,
    show (0 : Nat) = (0 : UInt8).toNat from rfl, UInt8.toNat_inj, UInt8.sub_eq_iff_eq_add,
    UInt8.zero_add]

theorem isNonzero_digit (digit : isSeparator byte = false) :
    isNonzero byte = nonzeroDigit (byte - 48).toNat := by
  rw [isNonzero, digit, nonzeroDigit_digit]
  rfl

theorem Firsts.scan_found (bytes : Bytes) (at_ : Nat) (found : f.found = true) :
    (f.scan bytes at_).digit = f.digit ∧ (f.scan bytes at_).source = f.source ∧
      (f.scan bytes at_).found = true := by
  induction bytes generalizing at_ f with
  | nil => exact ⟨rfl, rfl, found⟩
  | cons byte rest ih =>
    cases digit : isSeparator byte with
    | true =>
      rw [scan, next, digit]
      exact ih (at_ + 1) found
    | false =>
      have kept := ih (at_ + 1) (f := f.next byte at_) (by simp [next, digit, found])
      rw [scan]
      simpa [next, digit, found] using kept

theorem Firsts.scan_first (bytes : Bytes) (at_ : Nat) (before : f.found = false) :
    (f.scan bytes at_).found = (digitsOf bytes).any nonzeroDigit ∧
      ((digitsOf bytes).any nonzeroDigit →
        (f.scan bytes at_).digit = f.digits + (digitsOf bytes).findIdx nonzeroDigit ∧
          (f.scan bytes at_).source = at_ + bytes.findIdx isNonzero) := by
  induction bytes generalizing at_ f with
  | nil => exact ⟨before, nofun⟩
  | cons byte rest ih =>
    rw [findIdx_cons, scan]
    cases digit : isSeparator byte with
    | true =>
      obtain ⟨found, first⟩ := ih (at_ + 1) before
      rw [digitsOf_separator digit, next, digit]
      refine ⟨found, fun some_nonzero => ⟨(first some_nonzero).1, ?_⟩⟩
      rw [if_pos rfl, (first some_nonzero).2, isNonzero, digit]
      exact Nat.add_right_comm ..
    | false =>
      rw [digitsOf_digit digit, any_cons, findIdx_cons, isNonzero_digit digit, nonzeroDigit_digit]
      cases nonzero : byte != 48 with
      | false =>
        have step : f.next byte at_ = { f with digits := f.digits + 1 } := by
          simp [next, digit, before, nonzero]
        obtain ⟨found, first⟩ := ih (at_ + 1) (f := { f with digits := f.digits + 1 }) before
        rw [step]
        refine ⟨found, fun some_nonzero => ?_⟩
        rw [(first some_nonzero).1, (first some_nonzero).2]
        exact ⟨Nat.add_right_comm .., Nat.add_right_comm ..⟩
      | true =>
        have step : f.next byte at_ = ⟨f.digits + 1, f.digits, at_, true⟩ := by
          simp [next, digit, before, nonzero]
        obtain ⟨first, source, found⟩ :=
          Firsts.scan_found rest (at_ + 1) (f := f.next byte at_) (by rw [step])
        rw [step] at first source found ⊢
        exact ⟨found, fun _ => ⟨first, source⟩⟩

end Firsts

/-! ## The scan of a literal -/

def TextScan.firsts (s : TextScan) : Firsts :=
  ⟨s.totalDigits, s.firstNonzeroDigit, s.firstNonzeroSource, s.hasNonzero⟩

def TextScan.digit (s : TextScan) (byte : UInt8) (scan : Nat) : TextScan :=
  { s with
    wholeDigits := if s.afterDecimal then s.wholeDigits else s.wholeDigits + 1
    hasNonzero := s.hasNonzero || byte != 48
    firstNonzeroDigit := if !s.hasNonzero && byte != 48 then s.totalDigits else s.firstNonzeroDigit
    firstNonzeroSource := if !s.hasNonzero && byte != 48 then scan else s.firstNonzeroSource
    totalDigits := s.totalDigits + 1 }

section Scan

variable {byte : UInt8} {bytes ending : Bytes}

theorem digit_bounds (low : 48 ≤ byte) (high : byte ≤ 57) : 48 ≤ byte.toNat ∧ byte.toNat ≤ 57 :=
  ⟨UInt8.le_iff_toNat_le.mp low, UInt8.le_iff_toNat_le.mp high⟩

theorem digit_ne (low : 48 ≤ byte) (high : byte ≤ 57) {k : UInt8}
    (h : k.toNat < 48 ∨ 57 < k.toNat) : byte ≠ k := by
  rintro rfl
  have := digit_bounds low high
  omega

theorem isSeparator_digit (low : 48 ≤ byte) (high : byte ≤ 57) : isSeparator byte = false := by
  simp [isSeparator, digit_ne low high (k := 46) (by decide),
    digit_ne low high (k := 95) (by decide)]

theorem scanText_point (rest : Bytes) (scan : Nat) (s : TextScan) :
    scanText (46 :: rest) scan s = scanText rest (scan + 1) { s with afterDecimal := true } := rfl

theorem scanText_underscore (rest : Bytes) (scan : Nat) (s : TextScan) :
    scanText (95 :: rest) scan s = scanText rest (scan + 1) s := rfl

theorem scanText_digit (low : 48 ≤ byte) (high : byte ≤ 57) (rest : Bytes) (scan : Nat)
    (s : TextScan) : scanText (byte :: rest) scan s =
      scanText rest (scan + 1) (s.digit byte scan) := by
  have h101 := digit_ne low high (k := 101) (by decide)
  have h69 := digit_ne low high (k := 69) (by decide)
  have hmarker : decimalIsExponentMarker byte = false := by
    simp [decimalIsExponentMarker, h101, h69]
  rw [scanText, hmarker, if_neg Bool.false_ne_true, if_neg (digit_ne low high (by decide)),
    if_pos (digit_ne low high (by decide)), TextScan.digit]
  obtain ⟨_, after, _, _, _, _, found⟩ := s
  cases after with
  | false => cases found <;> cases byte != 48 <;> rfl
  | true => cases found <;> cases byte != 48 <;> rfl

def Ends (ending : Bytes) : Prop := ∀ byte ∈ ending.head?, decimalIsExponentMarker byte

theorem scanText_ending (h : Ends ending) (scan : Nat) (s : TextScan) :
    scanText ending scan s =
      if ending = [] then s else { s with exponentPosition := scan } := by
  cases ending with
  | nil => rfl
  | cons byte rest => rw [scanText, if_pos (h byte rfl), if_neg (cons_ne_nil _ _)]

theorem scanText_exponentPosition (written : Written bytes) (ends : Ends ending) (scan : Nat)
    (s : TextScan) : (scanText (bytes ++ ending) scan s).exponentPosition =
      if ending = [] then s.exponentPosition else scan + bytes.length := by
  induction written using Written.byBytes generalizing scan s with
  | nil written =>
    rw [nil_append, scanText_ending ends]
    split <;> rfl
  | point rest written ih =>
    rw [cons_append, scanText_point, ih, length_cons, Nat.add_right_comm]
    rfl
  | underscore rest written ih =>
    rw [cons_append, scanText_underscore, ih, length_cons, Nat.add_right_comm]
    rfl
  | digit byte rest written low high ih =>
    rw [cons_append, scanText_digit low high, ih, length_cons, Nat.add_right_comm]
    rfl

variable {s : TextScan}

section Scans

variable (written : Written bytes) (ends : Ends ending) (scan : Nat)
include written ends scan

theorem scanText_wholeDigits (s : TextScan) :
    (scanText (bytes ++ ending) scan s).wholeDigits = s.wholeDigits +
      if s.afterDecimal then 0 else (digitsOf (bytes.takeWhile (· != 46))).length := by
  induction written using Written.byBytes generalizing scan s with
  | nil written =>
    rw [nil_append, scanText_ending ends]
    split <;> simp [digitsOf]
  | point rest written ih =>
    rw [cons_append, scanText_point, ih]
    simp [digitsOf]
  | underscore rest written ih =>
    rw [cons_append, scanText_underscore, ih]
    rfl
  | digit byte rest written low high ih =>
    have hpoint : (byte != 46) = true := bne_iff_ne.mpr (digit_ne low high (by decide))
    rw [cons_append, scanText_digit low high, ih, takeWhile_cons, if_pos hpoint,
      digitsOf_digit (isSeparator_digit low high), length_cons]
    obtain ⟨_, after, _, _, _, _, _⟩ := s
    cases after with
    | true => rfl
    | false => exact Nat.add_right_comm _ _ _

theorem scanText_firsts (s : TextScan) :
    (scanText (bytes ++ ending) scan s).firsts = s.firsts.scan bytes scan := by
  induction written using Written.byBytes generalizing scan s with
  | nil written =>
    rw [nil_append, scanText_ending ends]
    split <;> rfl
  | point rest written ih =>
    rw [cons_append, scanText_point, ih]
    rfl
  | underscore rest written ih =>
    rw [cons_append, scanText_underscore, ih]
    rfl
  | digit byte rest written low high ih =>
    rw [cons_append, scanText_digit low high, ih, Firsts.scan, Firsts.next,
      isSeparator_digit low high]
    rfl

theorem scanText_hasNonzero (before : s.hasNonzero = false) :
    (scanText (bytes ++ ending) scan s).hasNonzero = (digitsOf bytes).any nonzeroDigit :=
  (congrArg Firsts.found (scanText_firsts written ends scan s)).trans
    (Firsts.scan_first bytes scan before).1

theorem scanText_first (before : s.hasNonzero = false)
    (some_nonzero : (digitsOf bytes).any nonzeroDigit) :
    (scanText (bytes ++ ending) scan s).firstNonzeroDigit =
        s.totalDigits + (digitsOf bytes).findIdx nonzeroDigit ∧
      (scanText (bytes ++ ending) scan s).firstNonzeroSource = scan + bytes.findIdx isNonzero := by
  have first := (Firsts.scan_first bytes scan (f := s.firsts) before).2 some_nonzero
  rwa [← scanText_firsts written ends] at first

end Scans

theorem digitsOf_drop_first (written : Written bytes) :
    digitsOf (bytes.drop (bytes.findIdx isNonzero)) =
      (digitsOf bytes).drop ((digitsOf bytes).findIdx nonzeroDigit) := by
  induction written using Written.byBytes with
  | nil written => rfl
  | point rest written ih =>
    rw [findIdx_cons]
    exact ih
  | underscore rest written ih =>
    rw [findIdx_cons]
    exact ih
  | digit byte rest written low high ih =>
    rw [digitsOf_digit (isSeparator_digit low high), findIdx_cons, findIdx_cons,
      isNonzero_digit (isSeparator_digit low high)]
    cases h : nonzeroDigit (byte - 48).toNat with
    | false => exact ih
    | true => exact digitsOf_digit (isSeparator_digit low high)

end Scan

/-! ## The scan of a boundary -/

def LimitScan.firsts (s : LimitScan) : Firsts :=
  ⟨s.totalDigits, s.firstNonzero, s.firstNonzeroSource, s.hasNonzero⟩

def LimitScan.digit (s : LimitScan) (byte : UInt8) (scan : Nat) : LimitScan :=
  { s with
    hasNonzero := s.hasNonzero || byte != 48
    firstNonzero := if !s.hasNonzero && byte != 48 then s.totalDigits else s.firstNonzero
    firstNonzeroSource := if !s.hasNonzero && byte != 48 then scan else s.firstNonzeroSource
    totalDigits := s.totalDigits + 1 }

/-- A decimal: digits, with one point at most. -/
structure IsDecimal (bytes : Bytes) : Prop where
  written : Written bytes
  plain : ∀ byte ∈ bytes, byte ≠ 95
  point : bytes.count 46 ≤ 1

def decimalValue (bytes : Bytes) : ℚ :=
  numeral (digitsOf bytes) / 10 ^ (digitsOf (bytes.dropWhile (· != 46))).length

section Limit

variable {byte : UInt8} {bytes : Bytes}

theorem scanLimit_point (rest : Bytes) (scan : Nat) (s : LimitScan) :
    scanLimit (46 :: rest) scan s = scanLimit rest (scan + 1) { s with decimalPosition := scan } :=
  rfl

theorem scanLimit_digit (low : 48 ≤ byte) (high : byte ≤ 57) (rest : Bytes) (scan : Nat)
    (s : LimitScan) :
    scanLimit (byte :: rest) scan s = scanLimit rest (scan + 1) (s.digit byte scan) := by
  rw [scanLimit, if_neg (digit_ne low high (by decide)), LimitScan.digit]
  obtain ⟨_, _, _, _, found⟩ := s
  cases found <;> cases byte != 48 <;> rfl

variable {s : LimitScan}

section Plain

variable (written : Written bytes) (plain : ∀ byte ∈ bytes, byte ≠ 95)
include written plain

theorem scanLimit_firsts (scan : Nat) (s : LimitScan) :
    (scanLimit bytes scan s).firsts = s.firsts.scan bytes scan := by
  induction written using Written.byBytes generalizing scan s with
  | nil written => rfl
  | point rest written ih =>
    rw [scanLimit_point, ih fun b hb => plain b (mem_cons_of_mem _ hb)]
    rfl
  | underscore rest written ih => exact absurd rfl (plain 95 mem_cons_self)
  | digit byte rest written low high ih =>
    rw [scanLimit_digit low high, ih fun b hb => plain b (mem_cons_of_mem _ hb), Firsts.scan,
      Firsts.next, isSeparator_digit low high]
    rfl

theorem scanLimit_first (scan : Nat) (before : s.hasNonzero = false)
    (some_nonzero : (digitsOf bytes).any nonzeroDigit) :
    (scanLimit bytes scan s).hasNonzero = true ∧
      (scanLimit bytes scan s).firstNonzero =
          s.totalDigits + (digitsOf bytes).findIdx nonzeroDigit ∧
        (scanLimit bytes scan s).firstNonzeroSource = scan + bytes.findIdx isNonzero := by
  obtain ⟨found, first⟩ := Firsts.scan_first bytes scan (f := s.firsts) before
  rw [← scanLimit_firsts written plain] at found first
  exact ⟨found.trans some_nonzero, first some_nonzero⟩

theorem scanLimit_decimalPosition_none (none : bytes.count 46 = 0) (scan : Nat) (s : LimitScan) :
    (scanLimit bytes scan s).decimalPosition = s.decimalPosition := by
  induction written using Written.byBytes generalizing scan s with
  | nil written => rfl
  | point rest written ih => rw [count_cons_self] at none; cases none
  | underscore rest written ih => exact absurd rfl (plain 95 mem_cons_self)
  | digit byte rest written low high ih =>
    rw [count_cons_of_ne (digit_ne low high (by decide))] at none
    rw [scanLimit_digit low high, ih (fun b hb => plain b (mem_cons_of_mem _ hb)) none]
    rfl

theorem scanLimit_decimalPosition (point : bytes.count 46 ≤ 1) (scan : Nat)
    (ahead : s.decimalPosition = scan + bytes.length) :
    (scanLimit bytes scan s).decimalPosition =
      scan + (digitsOf (bytes.takeWhile (· != 46))).length := by
  induction written using Written.byBytes generalizing scan s with
  | nil written => exact ahead
  | point rest written ih =>
    rw [count_cons_self] at point
    rw [scanLimit_point, scanLimit_decimalPosition_none written.tail
      (fun b hb => plain b (mem_cons_of_mem _ hb)) (by omega)]
    rfl
  | underscore rest written ih => exact absurd rfl (plain 95 mem_cons_self)
  | digit byte rest written low high ih =>
    have hpoint : (byte != 46) = true := bne_iff_ne.mpr (digit_ne low high (by decide))
    rw [count_cons_of_ne (digit_ne low high (by decide))] at point
    rw [scanLimit_digit low high,
      ih (fun b hb => plain b (mem_cons_of_mem _ hb)) point, takeWhile_cons,
      if_pos hpoint, digitsOf_digit (isSeparator_digit low high), length_cons,
      Nat.add_right_comm]
    · rfl
    · rw [length_cons] at ahead
      rw [Nat.add_right_comm]
      exact ahead

end Plain

theorem IsDecimal.spaced (h : IsDecimal bytes) : Spaced bytes := by
  obtain ⟨written, plain, point⟩ := h
  induction written using Written.byBytes with
  | nil written => trivial
  | point rest written ih =>
    rw [count_cons_self] at point
    have hrest := ih (fun b hb => plain b (mem_cons_of_mem _ hb)) (by omega)
    cases rest with
    | nil => trivial
    | cons b rest =>
      refine ⟨?_, hrest⟩
      rintro ⟨-, hb⟩
      have h95 : b ≠ 95 := plain b (by simp)
      have h46 : b = 46 := by simpa [isSeparator, h95] using hb
      rw [h46, count_cons_self] at point
      omega
  | underscore rest written ih => exact absurd rfl (plain 95 mem_cons_self)
  | digit byte rest written low high ih =>
    rw [count_cons_of_ne (digit_ne low high (by decide))] at point
    have hrest := ih (fun b hb => plain b (mem_cons_of_mem _ hb)) point
    cases rest with
    | nil => trivial
    | cons b rest =>
      refine ⟨?_, hrest⟩
      rintro ⟨hdigit, -⟩
      rw [isSeparator_digit low high] at hdigit
      cases hdigit

end Limit

end Elisa.Semantic.FloatCastRange
