import Elisa.Lexer.Scanning

/-!
# The texts of integer literals

What the machine of `lexer_numbers.elisa` has passed when it stops: a run of decimal places, or a
prefix and a run of hexadecimal places.  A place is a digit, or a `_` between two digits.  The runs
are as long as they can be (`runNumber_scanned`), and the text of a literal alone is read as the
same literal again.
-/

namespace Elisa.Lexer

open Elisa.Lib Cursor

section Places

variable (inp : Input)

def DecimalPlace (i : Nat) : Prop :=
  i < inp.sourceLength ∧
    (isDigit (inp.charAt i) = true ∨ separatorClass inp i = some .decimalSeparator)

def HexPlace (i : Nat) : Prop :=
  i < inp.sourceLength ∧
    (isHexDigit (inp.charAt i) = true ∨ (separatorClass inp i).isSome = true)

def Run (P : Nat → Prop) (start stop : Nat) : Prop := start ≤ stop ∧ ∀ i, start ≤ i → i < stop → P i

def HexPrefixAt (i : Nat) : Prop :=
  inp.charAt i = '0' ∧ (inp.charAt (i + 1) = 'x' ∨ inp.charAt (i + 1) = 'X')

end Places

variable {inp : Input} {c : Cursor} {i start stop : Nat} {P : Nat → Prop}

theorem Run.nil : Run P start start :=
  ⟨Nat.le_refl _, fun _ le lt => absurd le (Nat.not_le.mpr lt)⟩

theorem Run.snoc (run : Run P start stop) (more : P stop) : Run P start (stop + 1) := by
  refine ⟨Nat.le_succ_of_le run.1, fun i le lt => ?_⟩
  rcases Nat.lt_succ_iff_lt_or_eq.mp lt with before | rfl
  · exact run.2 i le before
  · exact more

/-! ## Classes and places -/

theorem separatorClass_of_ne (other : inp.charAt i ≠ '_') : separatorClass inp i = none := by
  rw [separatorClass, if_neg fun h => other h.1]

theorem separatorClass_cases : separatorClass inp i = none ∨
    separatorClass inp i = some .decimalSeparator ∨
    separatorClass inp i = some .hexSeparator := by
  unfold separatorClass
  split
  · simp only
    split
    · exact .inr (.inl rfl)
    · split
      · exact .inr (.inr rfl)
      · exact .inl rfl
  · exact .inl rfl

def NumberClass.isDecimal : NumberClass → Bool
  | .digit | .hexPrefix | .decimalSeparator => true
  | _ => false

def NumberClass.isHex : NumberClass → Bool
  | .fractionDot | .otherDot | .sign | .other => false
  | _ => true

theorem underscore_of_separator (separator : (separatorClass inp i).isSome = true) :
    inp.charAt i = '_' := by
  by_contra other
  rw [separatorClass_of_ne other] at separator
  cases separator

theorem classifyNumberInput_of_none (none_ : separatorClass inp i = none) :
    classifyNumberInput inp i =
      if inp.charAt i = '0' ∧ (inp.charAt (i + 1) = 'x' ∨ inp.charAt (i + 1) = 'X') then .hexPrefix
      else if inp.charAt i = '.' ∧ shouldReadFloatFraction inp i = true then .fractionDot
      else if (inp.charAt i = 'e' ∨ inp.charAt i = 'E') ∧ exponentFollows inp i = true then
        .expMarkValid
      else classifyChar (inp.charAt i) := by
  rw [classifyNumberInput, none_]

theorem classifyChar_isDecimal (character : Char) :
    (classifyChar character).isDecimal = isDigit character := by
  rw [classifyChar]
  cases digit : isDigit character with
  | true => rfl
  | false =>
    rw [if_neg Bool.false_ne_true]
    split_ifs <;> rfl

theorem classifyChar_isHex (character : Char) :
    (classifyChar character).isHex = isHexDigit character := by
  have digits : isDigit character = true → isHexDigit character = true := fun digit => by
    simp [isHexDigit, digit]
  have marks : character = 'e' ∨ character = 'E' → isHexDigit character = true := by
    rintro (rfl | rfl) <;> decide
  rw [classifyChar]
  split
  next digit => rw [digits digit]; rfl
  split
  next mark => rw [marks mark]; rfl
  split
  next hex => rw [hex]; rfl
  next plain =>
    rw [(Bool.not_eq_true _).mp plain]
    split_ifs <;> rfl

theorem isDecimal_iff : (classifyNumberInput inp i).isDecimal = true ↔
    isDigit (inp.charAt i) = true ∨ separatorClass inp i = some .decimalSeparator := by
  rcases @separatorClass_cases inp i with h | h | h
  · rw [classifyNumberInput_of_none h, h]
    split
    next zero => simp [NumberClass.isDecimal, zero.1, isDigit]
    split
    next dot => simp [NumberClass.isDecimal, dot.1, isDigit]
    split
    next mark => rcases mark.1 with e | e <;> simp [NumberClass.isDecimal, e, isDigit]
    next => simp [classifyChar_isDecimal]
  · simp [classifyNumberInput, h, NumberClass.isDecimal]
  · have underscore := underscore_of_separator (by rw [h]; rfl)
    simp [classifyNumberInput, h, NumberClass.isDecimal, underscore, isDigit]

theorem isHex_iff : (classifyNumberInput inp i).isHex = true ↔
    isHexDigit (inp.charAt i) = true ∨ (separatorClass inp i).isSome = true := by
  rcases @separatorClass_cases inp i with h | h | h
  · rw [classifyNumberInput_of_none h, h]
    split
    next zero => simp [NumberClass.isHex, zero.1, isHexDigit, isDigit]
    split
    next dot => simp [NumberClass.isHex, dot.1, isHexDigit, isDigit]
    split
    next mark => rcases mark.1 with e | e <;> simp [NumberClass.isHex, e, isHexDigit, isDigit]
    next => simp [classifyChar_isHex]
  · simp [classifyNumberInput, h, NumberClass.isHex]
  · simp [classifyNumberInput, h, NumberClass.isHex]

theorem hexPrefix_iff : classifyNumberInput inp i = .hexPrefix ↔ HexPrefixAt inp i := by
  constructor
  · intro h
    rcases @separatorClass_cases inp i with none_ | some_ | some_
    · rw [classifyNumberInput_of_none none_] at h
      split at h
      next zero => exact zero
      exfalso
      revert h
      rw [classifyChar]
      split_ifs <;> simp
    · simp [classifyNumberInput, some_] at h
    · simp [classifyNumberInput, some_] at h
  · intro h
    have other : inp.charAt i ≠ '_' := by
      rw [h.1]
      decide
    rw [classifyNumberInput_of_none (separatorClass_of_ne other)]
    exact if_pos h

theorem lt_of_isHexDigit (digit : isHexDigit (inp.charAt i) = true) : i < inp.sourceLength := by
  refine Input.lt_of_charAt_ne fun null => ?_
  rw [null] at digit
  exact absurd digit (by decide)

theorem hexPlace_succ (separator : (separatorClass inp i).isSome = true) :
    HexPlace inp (i + 1) := by
  have digit : isHexDigit (inp.charAt (i + 1)) = true := by
    unfold separatorClass at separator
    split at separator
    · simp only at separator
      split at separator
      next digits => simp [isHexDigit, digits.2]
      · split at separator
        next digits => exact digits.2
        · cases separator
    · cases separator
  exact ⟨lt_of_isHexDigit digit, .inl digit⟩

theorem decimalPlace_succ (separator : separatorClass inp i = some .decimalSeparator) :
    DecimalPlace inp (i + 1) := by
  have digit : isDigit (inp.charAt (i + 1)) = true := by
    unfold separatorClass at separator
    split at separator
    · simp only at separator
      split at separator
      next digits => exact digits.2
      · split at separator
        · cases separator
        · cases separator
    · cases separator
  exact ⟨lt_of_isHexDigit (by simp [isHexDigit, digit]), .inl digit⟩

theorem present_of_charAt_ne (some : inp.charAt i ≠ nullChar) : i < inp.source.length := by
  by_contra missing
  refine some ?_
  rw [Input.charAt, Input.byteAt, List.getD_eq_getElem?_getD,
    List.getElem?_eq_none (Nat.not_lt.mp missing)]
  exact ite_self _

theorem HexPlace.present (place : HexPlace inp i) : i < inp.source.length := by
  refine present_of_charAt_ne fun null => ?_
  rcases place.2 with digit | separator
  · rw [null] at digit
    exact absurd digit (by decide)
  · have underscore := underscore_of_separator separator
    rw [null] at underscore
    exact absurd underscore (by decide)

theorem DecimalPlace.hexPlace (place : DecimalPlace inp i) : HexPlace inp i :=
  ⟨place.1, place.2.imp (fun digit => by simp [isHexDigit, digit])
    fun separator => Option.isSome_of_mem separator⟩

theorem Run.present (hexes : ∀ i, P i → HexPlace inp i) (run : Run P start stop)
    (begun : start ≤ inp.source.length) : stop ≤ inp.source.length := by
  rcases Nat.eq_or_lt_of_le run.1 with rfl | some
  · exact begun
  · have last := (hexes _ (run.2 (stop - 1) (by omega) (by omega))).present
    omega

/-! ## What the machine has passed -/

/-- Some place of the text behind the start of a number is no decimal one. -/
def LeavesDecimals (inp : Input) (start : Nat) : Prop :=
  ∃ i, start ≤ i ∧ i < inp.sourceLength ∧ ¬ DecimalPlace inp i

/-- The states of the machine, and what it has passed in them. -/
inductive Scanned (inp : Input) (start : Nat) (s : NumberScan) : Prop
  | lead (state : s.state = .lead) (kind : s.numberKind = .intLit) (here : s.position = start)
  | whole (state : s.state = .whole) (kind : s.numberKind = .intLit)
      (decimal : ¬ HexPrefixAt inp start) (run : Run (DecimalPlace inp) start s.position)
  | hex (state : s.state = .hex) (kind : s.numberKind = .hexLit) (hex : HexPrefixAt inp start)
      (run : Run (HexPlace inp) (start + 2) s.position)
  | wholeDone (state : s.state = .done) (kind : s.numberKind = .intLit)
      (decimal : ¬ HexPrefixAt inp start) (run : Run (DecimalPlace inp) start s.position)
      (last : ¬ DecimalPlace inp s.position)
  | hexDone (state : s.state = .done) (kind : s.numberKind = .hexLit)
      (hex : HexPrefixAt inp start) (run : Run (HexPlace inp) (start + 2) s.position)
      (last : ¬ HexPlace inp s.position)
  | float (kind : s.numberKind = .floatLit) (state : s.state ≠ .lead)
      (state' : s.state ≠ .whole) (state'' : s.state ≠ .hex) (decimal : ¬ HexPrefixAt inp start)
      (left : LeavesDecimals inp start)

theorem take_position {s : NumberScan} {kind : TokenKind} {state : NumberState}
    (more : s.position < inp.sourceLength) : (s.take inp kind state).position = s.position + 1 :=
  advanceChar_position more

theorem decimalPlace_iff (more : i < inp.sourceLength) :
    DecimalPlace inp i ↔ (classifyNumberInput inp i).isDecimal = true := by
  rw [isDecimal_iff]
  exact and_iff_right more

theorem hexPlace_iff (more : i < inp.sourceLength) :
    HexPlace inp i ↔ (classifyNumberInput inp i).isHex = true := by
  rw [isHex_iff]
  exact and_iff_right more

theorem HexPrefixAt.lt (hex : HexPrefixAt inp i) : i + 1 < inp.sourceLength := by
  refine Input.lt_of_charAt_ne ?_
  rcases hex.2 with h | h
  · rw [h]
    decide
  · rw [h]
    decide

theorem HexPrefixAt.present (hex : HexPrefixAt inp i) : i + 2 ≤ inp.source.length := by
  refine present_of_charAt_ne (i := i + 1) ?_
  rcases hex.2 with h | h
  · rw [h]
    decide
  · rw [h]
    decide

theorem numberStep_scanned {s next : NumberScan} (scanned : Scanned inp start s)
    (taken : numberStep inp s = some next) : Scanned inp start next := by
  have more := (numberStep_cases taken).1
  unfold numberStep at taken
  rw [if_neg (by simpa [isEndOfSource, Input.isEnd] using more)] at taken
  cases scanned with
  | lead state kind here =>
    rw [state] at taken
    cases class_ : classifyNumberInput inp s.position with
    | hexPrefix =>
      rw [class_] at taken
      obtain rfl := Option.some.inj taken
      have hex := hexPrefix_iff.mp class_
      have second : (s.take inp .hexLit .hex).position + 1 < inp.sourceLength + 1 := by
        rw [take_position more]
        exact Nat.succ_lt_succ hex.lt
      have position : ((s.take inp .hexLit .hex).take inp .hexLit .hex).position = start + 2 := by
        rw [take_position (Nat.lt_of_succ_lt_succ second), take_position more, here]
      exact .hex rfl rfl (here ▸ hex) (position ▸ Run.nil)
    | _ =>
      rw [class_] at taken
      obtain rfl := Option.some.inj taken
      have decimal : ¬ HexPrefixAt inp start := fun hex => by
        rw [← here, ← hexPrefix_iff, class_] at hex
        cases hex
      exact .whole rfl kind decimal (here ▸ Run.nil)
  | whole state kind decimal run =>
    rw [state] at taken
    cases class_ : classifyNumberInput inp s.position with
    | digit | hexPrefix | decimalSeparator =>
      rw [class_] at taken
      obtain rfl := Option.some.inj taken
      have place : DecimalPlace inp s.position := (decimalPlace_iff more).mpr (by rw [class_]; rfl)
      exact .whole rfl kind decimal (by rw [take_position more]; exact run.snoc place)
    | fractionDot | expMarkValid =>
      rw [class_] at taken
      obtain rfl := Option.some.inj taken
      have other : ¬ DecimalPlace inp s.position := by
        rw [decimalPlace_iff more, class_]
        exact Bool.false_ne_true
      exact .float rfl NumberState.noConfusion NumberState.noConfusion NumberState.noConfusion
        decimal ⟨_, run.1, more, other⟩
    | _ =>
      rw [class_] at taken
      obtain rfl := Option.some.inj taken
      have last : ¬ DecimalPlace inp s.position := by
        rw [decimalPlace_iff more, class_]
        exact Bool.false_ne_true
      exact .wholeDone rfl kind decimal run last
  | hex state kind hex run =>
    rw [state] at taken
    cases class_ : classifyNumberInput inp s.position with
    | fractionDot | otherDot | sign | other =>
      rw [class_] at taken
      obtain rfl := Option.some.inj taken
      have last : ¬ HexPlace inp s.position := by
        rw [hexPlace_iff more, class_]
        exact Bool.false_ne_true
      exact .hexDone rfl kind hex run last
    | _ =>
      rw [class_] at taken
      obtain rfl := Option.some.inj taken
      have place : HexPlace inp s.position := (hexPlace_iff more).mpr (by rw [class_]; rfl)
      exact .hex rfl kind hex (by rw [take_position more]; exact run.snoc place)
  | wholeDone state => simp [state] at taken
  | hexDone state => simp [state] at taken
  | float kind notLead notWhole notHex decimal left =>
    cases state : s.state with
    | lead => exact absurd state notLead
    | whole => exact absurd state notWhole
    | hex => exact absurd state notHex
    | done => simp [state] at taken
    | fraction | expLead | expDigits =>
      rw [state] at taken
      cases class_ : classifyNumberInput inp s.position <;> rw [class_] at taken <;>
        obtain rfl := Option.some.inj taken <;>
        exact .float kind NumberState.noConfusion NumberState.noConfusion
          NumberState.noConfusion decimal left

/-- What a number literal has passed when the machine stops: a longest run of decimal places, a
prefix and a longest run of hexadecimal places, or a float. -/
inductive Stopped (inp : Input) (start : Nat) (s : NumberScan) : Prop
  | decimal (kind : s.numberKind = .intLit) (decimal : ¬ HexPrefixAt inp start)
      (run : Run (DecimalPlace inp) start s.position) (last : ¬ DecimalPlace inp s.position)
  | hex (kind : s.numberKind = .hexLit) (hex : HexPrefixAt inp start)
      (run : Run (HexPlace inp) (start + 2) s.position) (last : ¬ HexPlace inp s.position)
  | float (kind : s.numberKind = .floatLit) (decimal : ¬ HexPrefixAt inp start)
      (left : LeavesDecimals inp start)

theorem runNumber_stopped (more : c.position < inp.sourceLength) :
    Stopped inp c.position (runNumber inp c) := by
  have scanned : Scanned inp c.position (runNumber inp c) :=
    runSteps_keeps (Scanned inp c.position) (fun _ _ => numberStep_scanned) (.lead rfl rfl rfl)
  have halted := @runNumber_halts inp c
  generalize runNumber inp c = s at scanned halted
  have ended (state : s.state ≠ .done) : inp.sourceLength ≤ s.position := by
    by_contra inside
    unfold numberStep at halted
    rw [if_neg (by simpa [isEndOfSource, Input.isEnd] using inside)] at halted
    generalize classifyNumberInput inp s.position = class_ at halted
    generalize s.state = numberState at halted state
    cases numberState with
    | done => exact state rfl
    | _ => cases class_ <;> cases halted
  cases scanned with
  | lead state kind here =>
    have := ended (by rw [state]; exact NumberState.noConfusion)
    omega
  | whole state kind decimal run =>
    have last := ended (by rw [state]; exact NumberState.noConfusion)
    exact .decimal kind decimal run fun place => absurd place.1 (Nat.not_lt.mpr last)
  | hex state kind hex run =>
    have last := ended (by rw [state]; exact NumberState.noConfusion)
    exact .hex kind hex run fun place => absurd place.1 (Nat.not_lt.mpr last)
  | wholeDone state kind decimal run last => exact .decimal kind decimal run last
  | hexDone state kind hex run last => exact .hex kind hex run last
  | float kind _ _ _ decimal left => exact .float kind decimal left

/-! ## Literals at the end of a text -/

theorem readTypeSuffixAt_end (last : inp.sourceLength ≤ start) :
    readTypeSuffixAt inp start = none := by
  rw [readTypeSuffixAt, Input.charAt_of_end last]
  rfl

/-- A longest run ends the text if all that follows its start are its places. -/
theorem Run.ends {length : Nat} (inside : ∀ i, P i → i < length) (run : Run P start stop)
    (last : ¬ P stop) (all : Run P start length) : stop = length := by
  rcases Nat.lt_trichotomy stop length with lt | same | gt
  · exact absurd (all.2 stop run.1 lt) last
  · exact same
  · exact absurd (inside _ (run.2 length all.1 gt)) (Nat.lt_irrefl _)

theorem runNumber_decimal (decimal : ¬ HexPrefixAt inp c.position)
    (more : c.position < inp.sourceLength)
    (all : Run (DecimalPlace inp) c.position inp.sourceLength) :
    (runNumber inp c).numberKind = .intLit ∧ (runNumber inp c).position = inp.sourceLength := by
  cases runNumber_stopped more with
  | decimal kind _ run last => exact ⟨kind, run.ends (fun _ place => place.1) last all⟩
  | hex _ hex => exact absurd hex decimal
  | float _ _ left =>
    obtain ⟨i, le, lt, other⟩ := left
    exact absurd (all.2 i le lt) other

theorem runNumber_hex (hex : HexPrefixAt inp c.position)
    (all : Run (HexPlace inp) (c.position + 2) inp.sourceLength) :
    (runNumber inp c).numberKind = .hexLit ∧ (runNumber inp c).position = inp.sourceLength := by
  cases runNumber_stopped (Nat.lt_of_succ_lt hex.lt) with
  | decimal _ decimal => exact absurd hex decimal
  | hex kind _ run last => exact ⟨kind, run.ends (fun _ place => place.1) last all⟩
  | float _ decimal => exact absurd hex decimal

/-! ## The text of a token -/

def Input.ofText (text : Bytes) : Input := ⟨text, text.length, false⟩

def Token.textOrEmpty (token : Token) (source : Bytes) (sourceLength : Nat) : Bytes :=
  (Input.mk source sourceLength false).view token.start (token.start + token.length)

/-- An integer literal in base 10 that is read to its end. -/
def DecimalText (text : Bytes) : Prop :=
  text ≠ [] ∧ ¬ HexPrefixAt (.ofText text) 0 ∧
    Run (DecimalPlace (.ofText text)) 0 text.length

/-- An integer literal in base 16 that is read to its end. -/
def HexText (text : Bytes) : Prop :=
  HexPrefixAt (.ofText text) 0 ∧ Run (HexPlace (.ofText text)) 2 text.length

section View

variable {text : Bytes}

theorem length_view (some : start < stop) (fits : stop ≤ inp.sourceLength)
    (present : stop ≤ inp.source.length) :
    (inp.view start stop).length = stop - start := by
  rw [Input.view, if_neg (by omega), List.length_take, List.length_drop]
  omega

variable {j : Nat}

section Views

variable (some : start < stop) (fits : stop ≤ inp.sourceLength)
include some fits

theorem byteAt_view (inside : start + j < stop) :
    (Input.ofText (inp.view start stop)).byteAt j = inp.byteAt (start + j) := by
  rw [Input.byteAt, Input.byteAt, Input.ofText, Input.view, if_neg (by omega)]
  simp only [List.getD_eq_getElem?_getD, List.getElem?_take, List.getElem?_drop]
  rw [if_pos (by omega)]

theorem charAt_view (present : stop ≤ inp.source.length) (inside : start + j < stop) :
    (Input.ofText (inp.view start stop)).charAt j = inp.charAt (start + j) := by
  have within : j < (Input.ofText (inp.view start stop)).sourceLength := by
    change j < (inp.view start stop).length
    rw [length_view some fits present]
    omega
  rw [Input.charAt, if_pos within, byteAt_view some fits inside, Input.charAt,
    if_pos (Nat.lt_of_lt_of_le inside fits)]

theorem separatorClass_view (present : stop ≤ inp.source.length) (inner : 0 < j)
    (inside : start + j + 1 < stop) :
    separatorClass (.ofText (inp.view start stop)) j = separatorClass inp (start + j) := by
  have before : start + (j - 1) = start + j - 1 := by omega
  rw [separatorClass, separatorClass, charAt_view some fits present (by omega),
    byteAt_view some fits (by omega), charAt_view some fits present (by omega), before,
    Nat.add_assoc]
  exact if_congr (and_congr_right fun _ => iff_of_true inner (by omega)) rfl rfl

theorem decimalText_view (present : stop ≤ inp.source.length) (decimal : ¬ HexPrefixAt inp start)
    (run : Run (DecimalPlace inp) start stop) (first : isDigit (inp.charAt start) = true)
    (last : ¬ DecimalPlace inp stop) : DecimalText (inp.view start stop) := by
  have length := length_view some fits present
  have char {j : Nat} (inside : start + j < stop) := charAt_view some fits present inside
  have filled : 0 < (inp.view start stop).length := by omega
  refine ⟨List.ne_nil_of_length_pos filled, fun hex => ?_, Nat.zero_le _, fun j _ lt => ⟨lt, ?_⟩⟩
  · have more : 1 < stop - start := length ▸ hex.lt
    have second : start + 1 < stop := by omega
    refine decimal ?_
    rw [HexPrefixAt, char (j := 0) (by omega), char (j := 1) second] at hex
    exact hex
  · rw [length] at lt
    have inside : start + j < stop := by omega
    have place := run.2 (start + j) (Nat.le_add_right _ _) inside
    rw [char inside]
    refine place.2.imp_right fun separator => ?_
    have underscore := underscore_of_separator (Option.isSome_of_mem separator)
    have inner : 0 < j := by
      rcases Nat.eq_zero_or_pos j with rfl | inner
      · rw [Nat.add_zero] at underscore
        rw [underscore] at first
        exact absurd first (by decide)
      · exact inner
    -- The digit behind a separator belongs to the run as well.
    have within : start + j + 1 < stop := by
      rcases Nat.lt_or_eq_of_le (Nat.succ_le_of_lt inside) with within | eq
      · exact within
      · exact absurd (eq ▸ decimalPlace_succ separator) last
    rwa [separatorClass_view some fits present inner within]

end Views

theorem hexText_view (fits : stop ≤ inp.sourceLength) (present : stop ≤ inp.source.length)
    (hex : HexPrefixAt inp start) (run : Run (HexPlace inp) (start + 2) stop)
    (last : ¬ HexPlace inp stop) : HexText (inp.view start stop) := by
  have some : start < stop := by
    have := run.1
    omega
  have length := length_view some fits present
  have char {j : Nat} (inside : start + j < stop) :=
    charAt_view some fits present inside
  constructor
  · have first := char (j := 0) (by have := run.1; omega)
    have second := char (j := 1) (by have := run.1; omega)
    rw [HexPrefixAt, first, second]
    exact hex
  · refine ⟨by have := run.1; omega, fun j le lt => ⟨lt, ?_⟩⟩
    have place := run.2 (start + j) (by omega) (by omega)
    rw [char (by omega)]
    refine place.2.imp_right fun separator => ?_
    -- The digit behind a separator belongs to the run as well.
    have inside : start + j + 1 < stop := by
      rcases Nat.lt_or_eq_of_le (Nat.succ_le_of_lt (by omega : start + j < stop)) with inside | eq
      · exact inside
      · exact absurd (eq ▸ hexPlace_succ separator) last
    rwa [separatorClass_view some fits present (by omega) inside]

end View

end Elisa.Lexer
