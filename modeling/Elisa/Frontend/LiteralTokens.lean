import Elisa.Frontend.IntegerLiterals
import Elisa.Lexer.NumberTokens

/-!
# Integer literals from the source to their values

`read_number` takes the longest text at the cursor that spells an integer, and behind it a type
suffix if the letters and digits there are one.  `parse_int_literal_value` gives the number that it
spells, or the greatest one of 64 bits.  A prefix without any digit is 0.
-/

namespace Elisa.Frontend

open Lexer Lexer.Cursor

/-! ## The grammar -/

section Grammar

variable (inp : Input)

def DigitsAt (digit : Char → Bool) (start stop : Nat) : Prop :=
  start < stop ∧ stop ≤ inp.sourceLength ∧ ∀ i, start ≤ i → i < stop →
    digit (inp.charAt i) = true ∨
      inp.charAt i = '_' ∧ start < i ∧ i + 1 < stop ∧
        digit (inp.charAt (i - 1)) = true ∧ digit (inp.charAt (i + 1)) = true

/-- An integer in base 10, or a prefix and an integer in base 16 or nothing. -/
def IntegerAt (start stop : Nat) : Prop :=
  DigitsAt inp isDigit start stop ∨
    HexPrefixAt inp start ∧ (stop = start + 2 ∨ DigitsAt inp isHexDigit (start + 2) stop)

def SuffixAt (start : Nat) (suffix : Bytes) : Prop :=
  isValidTypeSuffix suffix = true ∧ inp.view start (start + suffix.length) = suffix ∧
    isAlphanumeric (inp.charAt (start + suffix.length)) = false

end Grammar

variable {inp : Input} {c : Cursor} {start stop : Nat}

/-! ## Digits and places -/

theorem charAt_pred {i : Nat} (more : i < inp.sourceLength) :
    inp.charAt (i - 1) = Char.ofNat (inp.byteAt (i - 1)) := by
  rw [Input.charAt, if_pos (by omega)]

theorem separator_decimal {i : Nat} (more : i < inp.sourceLength) :
    separatorClass inp i = some .decimalSeparator ↔ inp.charAt i = '_' ∧ 0 < i ∧
      isDigit (inp.charAt (i - 1)) = true ∧ isDigit (inp.charAt (i + 1)) = true := by
  rw [separatorClass, charAt_pred more]
  constructor
  · intro separator
    split at separator
    next underscore =>
      simp only at separator
      split at separator
      next digits => exact ⟨underscore.1, underscore.2, digits⟩
      split at separator
      · cases separator
      · cases separator
    next => cases separator
  · rintro ⟨underscore, inner, digits⟩
    rw [if_pos ⟨underscore, inner⟩]
    exact if_pos digits

theorem separator_hex {i : Nat} (more : i < inp.sourceLength) :
    (separatorClass inp i).isSome = true ↔ inp.charAt i = '_' ∧ 0 < i ∧
      isHexDigit (inp.charAt (i - 1)) = true ∧ isHexDigit (inp.charAt (i + 1)) = true := by
  have hex {character : Char} (digit : isDigit character = true) : isHexDigit character = true := by
    simp [isHexDigit, digit]
  rw [separatorClass, charAt_pred more]
  constructor
  · intro separator
    split at separator
    next underscore =>
      simp only at separator
      split at separator
      next digits => exact ⟨underscore.1, underscore.2, hex digits.1, hex digits.2⟩
      split at separator
      next digits => exact ⟨underscore.1, underscore.2, digits⟩
      next => cases separator
    next => cases separator
  · rintro ⟨underscore, inner, digits⟩
    rw [if_pos ⟨underscore, inner⟩]
    simp only
    split
    · rfl
    · rfl

theorem digitsAt_of_run {P : Nat → Prop} {digit : Char → Bool}
    (within : stop ≤ inp.sourceLength)
    (place : ∀ i < inp.sourceLength, P i ↔ digit (inp.charAt i) = true ∨
      inp.charAt i = '_' ∧ 0 < i ∧ digit (inp.charAt (i - 1)) = true ∧
        digit (inp.charAt (i + 1)) = true)
    (digits : ∀ i, digit (inp.charAt i) = true → i < inp.sourceLength)
    (run : Run P start stop) (last : ¬ P stop) :
    (start < stop → inp.charAt start ≠ '_' → DigitsAt inp digit start stop) ∧
      ∀ other, DigitsAt inp digit start other → other ≤ stop := by
  refine ⟨fun some first => ⟨some, within, fun i le lt => ?_⟩, fun other spelled => ?_⟩
  · rcases (place i (by omega)).mp (run.2 i le lt) with here | ⟨mark, -, before, after⟩
    · exact .inl here
    have inner : start < i := by
      rcases Nat.eq_or_lt_of_le le with rfl | inner
      · exact absurd mark first
      · exact inner
    refine .inr ⟨mark, inner, ?_, before, after⟩
    rcases Nat.eq_or_lt_of_le (Nat.succ_le_of_lt lt) with rfl | more
    · exact absurd ((place _ (digits _ after)).mpr (.inl after)) last
    · exact more
  · by_contra longer
    have more : stop < inp.sourceLength := by
      have := spelled.2.1
      omega
    refine last ((place stop more).mpr ?_)
    rcases spelled.2.2 stop run.1 (by omega) with here | ⟨mark, inner, -, before, after⟩
    · exact .inl here
    · exact .inr ⟨mark, by omega, before, after⟩

theorem decimalPlace_cases {i : Nat} (more : i < inp.sourceLength) : DecimalPlace inp i ↔
    isDigit (inp.charAt i) = true ∨ inp.charAt i = '_' ∧ 0 < i ∧
      isDigit (inp.charAt (i - 1)) = true ∧ isDigit (inp.charAt (i + 1)) = true := by
  rw [← separator_decimal more]
  exact and_iff_right more

theorem hexPlace_cases {i : Nat} (more : i < inp.sourceLength) : HexPlace inp i ↔
    isHexDigit (inp.charAt i) = true ∨ inp.charAt i = '_' ∧ 0 < i ∧
      isHexDigit (inp.charAt (i - 1)) = true ∧ isHexDigit (inp.charAt (i + 1)) = true := by
  rw [← separator_hex more]
  exact and_iff_right more

/-! ## The longest integer -/

/-- No longer integer stands where one does. -/
structure LongestAt (inp : Input) (start stop : Nat) : Prop where
  integer : IntegerAt inp start stop
  longest : ∀ other, IntegerAt inp start other → other ≤ stop

theorem longestAt_decimal (within : stop ≤ inp.sourceLength)
    (first : isDigit (inp.charAt start) = true)
    (decimal : ¬ HexPrefixAt inp start) (run : Run (DecimalPlace inp) start stop)
    (last : ¬ DecimalPlace inp stop) : LongestAt inp start stop := by
  have some : start < stop := by
    rcases Nat.eq_or_lt_of_le run.1 with rfl | some
    · exact absurd ⟨lt_of_isDigit first, .inl first⟩ last
    · exact some
  have plain : inp.charAt start ≠ '_' := fun mark => by
    rw [mark, show isDigit '_' = false by decide] at first
    cases first
  obtain ⟨digits, longest⟩ := digitsAt_of_run within
    (fun _ => decimalPlace_cases) (fun _ => lt_of_isDigit) run last
  refine ⟨.inl (digits some plain), fun other integer => ?_⟩
  rcases integer with spelled | hex
  · exact longest other spelled
  · exact absurd hex.1 decimal

theorem longestAt_hex (within : stop ≤ inp.sourceLength) (hex : HexPrefixAt inp start)
    (run : Run (HexPlace inp) (start + 2) stop) (last : ¬ HexPlace inp stop) :
    LongestAt inp start stop := by
  obtain ⟨digits, longest⟩ := digitsAt_of_run within
    (fun _ => hexPlace_cases) (fun _ => lt_of_isHexDigit) run last
  constructor
  · refine .inr ⟨hex, ?_⟩
    rcases Nat.eq_or_lt_of_le run.1 with same | some
    · exact .inl same.symm
    refine .inr (digits some fun mark => ?_)
    -- A separator would have the `x` of the prefix before it.
    have place := (hexPlace_cases (by omega)).mp (run.2 _ (Nat.le_refl _) some)
    rw [mark, show isHexDigit '_' = false by decide] at place
    obtain ⟨-, -, before, -⟩ := place.resolve_left Bool.false_ne_true
    rcases hex.2 with x | x
    · rw [show start + 2 - 1 = start + 1 from rfl, x] at before
      exact absurd before (by decide)
    · rw [show start + 2 - 1 = start + 1 from rfl, x] at before
      exact absurd before (by decide)
  · intro other integer
    rcases integer with spelled | ⟨-, rfl | spelled⟩
    · -- In base 10 only the 0 of the prefix is there.
      by_contra longer
      have := run.1
      rcases spelled.2.2 (start + 1) (Nat.le_succ _) (by omega) with digit | ⟨mark, -⟩
      · rcases hex.2 with x | x
        · rw [x] at digit
          exact absurd digit (by decide)
        · rw [x] at digit
          exact absurd digit (by decide)
      · rcases hex.2 with x | x
        · rw [x] at mark
          exact absurd mark (by decide)
        · rw [x] at mark
          exact absurd mark (by decide)
    · exact run.1
    · exact longest other spelled

/-! ## The suffix -/

theorem probe_run (count start : Nat) :
    let last := (probeAlphanumeric inp)^[count] start
    start ≤ last ∧ last ≤ start + count ∧
      (∀ i, start ≤ i → i < last → isAlphanumeric (inp.charAt i) = true) ∧
      (last < start + count → isAlphanumeric (inp.charAt last) = false) := by
  induction count with
  | zero => exact ⟨Nat.le_refl _, Nat.le_refl _, fun i le lt => absurd lt (Nat.not_lt.mpr le),
      fun lt => absurd lt (Nat.lt_irrefl _)⟩
  | succ count ih =>
    simp only [Function.iterate_succ_apply']
    obtain ⟨le, most, run, stopped⟩ := ih
    generalize (probeAlphanumeric inp)^[count] start = last at le most run stopped
    rw [probeAlphanumeric]
    split
    next more =>
      refine ⟨Nat.le_succ_of_le le, by omega, fun i above below => ?_, fun lt => ?_⟩
      · rcases Nat.lt_succ_iff_lt_or_eq.mp below with before | rfl
        · exact run i above before
        · exact more.2
      · -- A run that was stopped before does not go on.
        have no := stopped (by omega)
        rw [more.2] at no
        cases no
    rename_i halted
    refine ⟨le, by omega, run, fun _ => ?_⟩
    by_contra letter
    rw [Bool.not_eq_false] at letter
    refine halted ⟨Input.lt_of_charAt_ne fun null => ?_, letter⟩
    rw [null] at letter
    exact absurd letter (by decide)

theorem suffix_letters : ∀ suffix ∈ typeSuffixes.map ascii, 0 < suffix.length ∧ suffix.length ≤ 5 ∧
    (suffix[0]? = some 117 ∨ suffix[0]? = some 105 ∨ suffix[0]? = some 102) ∧
    ∀ byte ∈ suffix, isAlphanumeric (Char.ofNat byte.toNat) = true := by
  decide +kernel

theorem charAt_of_view {view : Bytes} (eq : inp.view start stop = view) {i : Nat} {byte : UInt8}
    (here : view[i]? = some byte) : inp.charAt (start + i) = Char.ofNat byte.toNat := by
  rw [← eq] at here
  obtain ⟨within, same⟩ := view_getElem? here
  rw [Input.charAt, if_pos within, same]

theorem isAlphanumeric_ne {i : Nat} (letter : isAlphanumeric (inp.charAt i) = true) :
    i < inp.sourceLength ∧ i < inp.source.length := by
  have some : inp.charAt i ≠ nullChar := fun null => by
    rw [null] at letter
    exact absurd letter (by decide)
  exact ⟨Input.lt_of_charAt_ne some, present_of_charAt_ne some⟩

theorem readTypeSuffixAt_iff {suffix : Bytes} :
    readTypeSuffixAt inp start = some suffix ↔ SuffixAt inp start suffix := by
  obtain ⟨le, most, run, stopped⟩ := @probe_run inp 5 (start + 1)
  rw [readTypeSuffixAt]
  simp only
  generalize (probeAlphanumeric inp)^[5] (start + 1) = last at le most run stopped
  constructor
  · intro read
    split at read
    next => cases read
    next first =>
    rw [not_not] at first
    split at read
    next valid =>
      obtain rfl := Option.some.inj read
      obtain ⟨-, five, -⟩ := suffix_letters _ (List.contains_iff_mem.mp valid)
      have letters : isAlphanumeric (inp.charAt (last - 1)) = true := by
        rcases Nat.eq_or_lt_of_le le with rfl | more
        · rcases first with letter | letter | letter <;> rw [Nat.add_sub_cancel, letter] <;> rfl
        · exact run (last - 1) (by omega) (by omega)
      have inside := isAlphanumeric_ne letters
      have length := length_view (show start < last by omega)
        (show last ≤ inp.sourceLength by omega) (show last ≤ inp.source.length by omega)
      have stop : start + (inp.view start last).length = last := by omega
      refine ⟨valid, ?_, ?_⟩
      · rw [stop]
      · rw [stop]
        exact stopped (by omega)
    next => cases read
  · rintro ⟨valid, shown, ends⟩
    obtain ⟨some, five, first, letters⟩ := suffix_letters _ (List.contains_iff_mem.mp valid)
    have letter (i : Nat) (le : start ≤ i) (lt : i < start + suffix.length) :
        isAlphanumeric (inp.charAt i) = true := by
      have here : suffix[i - start]? = .some suffix[i - start] :=
        List.getElem?_eq_getElem (by omega)
      have char := charAt_of_view shown here
      rw [Nat.add_sub_cancel' le] at char
      rw [char]
      exact letters _ (List.getElem_mem _)
    have same : last = start + suffix.length := by
      rcases Nat.lt_trichotomy last (start + suffix.length) with short | same | long
      · have no := stopped (by omega)
        rw [letter last (by omega) short] at no
        cases no
      · exact same
      · have no := run (start + suffix.length) (by omega) long
        rw [ends] at no
        cases no
    have opened : inp.charAt start = 'u' ∨ inp.charAt start = 'i' ∨ inp.charAt start = 'f' := by
      rcases first with byte | byte | byte
      · exact .inl (charAt_of_view (i := 0) shown byte)
      · exact .inr (.inl (charAt_of_view (i := 0) shown byte))
      · exact .inr (.inr (charAt_of_view (i := 0) shown byte))
    rw [if_neg (not_not.mpr opened), same, shown, if_pos valid]

/-! ## Literals -/

section Literal

variable (starts : StartsNumber inp c)
include starts

theorem isDigit_of_starts (place : DecimalPlace inp c.position) :
    isDigit (inp.charAt c.position) = true := by
  rcases starts with digit | dot
  · exact digit
  rcases place.2 with digit | separator
  · exact digit
  · have underscore := underscore_of_separator (Option.isSome_of_mem separator)
    rw [show inp.charAt c.position = '.' from dot.1] at underscore
    exact absurd underscore (by decide)

theorem longest_of_integer (integer : (readNumber inp c).1.kind.isInteger = true) :
    LongestAt inp c.position (runNumber inp c).position ∧
      (DecimalText (inp.view c.position (runNumber inp c).position) ∨
        HexText (inp.view c.position (runNumber inp c).position)) := by
  have begun := lt_runNumber starts
  have within := runNumber_moves.le_length (Nat.le_of_lt starts.lt)
  cases runNumber_stopped starts.lt with
  | decimal kind decimal run last =>
    have first := isDigit_of_starts starts (run.2 _ (Nat.le_refl _) begun)
    have present : (runNumber inp c).position ≤ inp.source.length := by
      have := (run.2 ((runNumber inp c).position - 1) (by omega) (by omega)).hexPlace.present
      omega
    exact ⟨longestAt_decimal within first decimal run last,
      .inl (decimalText_view begun within present decimal run first last)⟩
  | hex kind hex run last =>
    exact ⟨longestAt_hex within hex run last,
      .inr (hexText_view within (run.present (fun _ => id) hex.present) hex run last)⟩
  | float kind =>
    exfalso
    revert integer
    unfold readNumber
    simp [Token.withSuffix, kind, TokenKind.isInteger]

end Literal

theorem toNat_parseIntLiteralValue {text : Bytes} {value : Nat} (small : value ≤ literalMaximum)
    (read : parseIntLiteral text = some value) :
    (parseIntLiteralValue text).toUInt64.toNat = value := by
  rw [parseIntLiteralValue, read, Option.getD_some]
  refine (BitVec.toNat_ofNat ..).trans (Nat.mod_eq_of_lt ?_)
  rw [literalMaximum] at small
  omega

/-- An integer literal is the longest one at the cursor, and its text is read without a malformed
byte, as the number it spells or the greatest one.  The letters and digits behind it are its suffix
if they are a type suffix. -/
theorem readNumber_integer (starts : StartsNumber inp c)
    (integer : (readNumber inp c).1.kind.isInteger = true) :
    let textEnd := (runNumber inp c).position
    let text := inp.view c.position textEnd
    (parseIntLiteral text).isSome = true ∧
      (parseIntLiteralValue text).toUInt64.toNat = min (literalNumeral text) literalMaximum ∧
      LongestAt inp c.position textEnd ∧
      (∀ suffix, SuffixAt inp textEnd suffix →
        (readNumber inp c).2.position = textEnd + suffix.length) ∧
      ((∀ suffix, ¬ SuffixAt inp textEnd suffix) → (readNumber inp c).2.position = textEnd) ∧
      (inp.sourceLength < 2 ^ 32 →
        (readNumber inp c).1.textOrEmpty inp.source inp.sourceLength = text) := by
  intro textEnd text
  obtain ⟨longest, shape⟩ := longest_of_integer starts integer
  have read := parseIntLiteral_eq shape
  refine ⟨Option.isSome_of_mem read, toNat_parseIntLiteralValue
    (Nat.min_le_right _ _) read, longest,
    fun suffix there => ?_, fun none_ => ?_, textOrEmpty_readNumber starts⟩
  · have found : readTypeSuffixAt inp (runNumber inp c).position = some suffix :=
      readTypeSuffixAt_iff.mpr there
    simp only [readNumber, found]
    exact skip_position
  · cases found : readTypeSuffixAt inp (runNumber inp c).position with
    | none => simp only [readNumber, found]; rfl
    | some suffix => exact absurd (readTypeSuffixAt_iff.mp found) (none_ suffix)

/-- The literal `255u8`: its text has three bytes. -/
theorem readNumber_byte : (parseIntLiteral (ascii "255")).isSome = true ∧
    LongestAt (.ofText (ascii "255u8")) 0 3 :=
  have read := @readNumber_integer (.ofText (ascii "255u8")) (Lexer.new []).toCursor
    (.inl (by decide +kernel)) (by decide +kernel)
  ⟨read.1, read.2.2.1⟩

/-- A literal: an integer, and behind it a type suffix or nothing. -/
def LiteralAt (inp : Input) (start stop : Nat) : Prop :=
  ∃ textEnd, IntegerAt inp start textEnd ∧
    (stop = textEnd ∨ isValidTypeSuffix (inp.view textEnd stop) = true)

/-- The literal of `1i80` is `1`, although `1i8` is one as well. -/
theorem readNumber_not_longest : ¬ ∀ (inp : Input) (c : Cursor), StartsNumber inp c →
    (readNumber inp c).1.kind.isInteger = true →
    ∀ stop, LiteralAt inp c.position stop → stop ≤ (readNumber inp c).2.position := by
  intro all
  have literal : LiteralAt (.ofText (ascii "1i80")) 0 3 := by
    refine ⟨1, .inl ⟨Nat.one_pos, by decide, fun i _ lt => .inl ?_⟩, .inr (by decide +kernel)⟩
    obtain rfl := Nat.lt_one_iff.mp lt
    decide +kernel
  have short : (readNumber (.ofText (ascii "1i80")) (Lexer.new []).toCursor).2.position = 1 := by
    decide +kernel
  have le := all (.ofText (ascii "1i80")) (Lexer.new []).toCursor (.inl (by decide +kernel))
    (by decide +kernel) 3 literal
  rw [short] at le
  exact absurd le (by decide)

end Elisa.Frontend
