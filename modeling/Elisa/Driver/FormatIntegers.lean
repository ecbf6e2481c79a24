import Elisa.Frontend.Ast
import Elisa.Frontend.IntegerLiterals
import Elisa.Lexer.NumberTokens
import Elisa.Lib.CheckedInt64
import Mathlib.Data.Nat.Digits.Lemmas

/-!
# Integer literals in formatted source

`fmt_expr` prints an integer literal from its value, but one in base 16 is to keep its spelling: the
first token of the line in base 16 that has the value is printed (`emit_fmt_expr.elisa`).  The value
is read by a second reader, which stops at a separator and drops the bits beyond 64.

`emit_ast_range_at`, which finds the tokens of the line, is a parameter: the result holds for
whatever it finds.
-/

namespace Elisa.Driver

open Lexer Frontend List

/-! ## Printing -/

/-- The loop of `fmt_parse_int_text`, which ends at the first byte that is no digit. -/
def fmtParseFrom (isHex : Bool) : Bytes → Nat → Nat
  | [], value => value
  | byte :: rest, value =>
    match literalDigit isHex byte with
    | some digit => fmtParseFrom isHex rest ((value * literalBase isHex + digit) % 2 ^ 64)
    | none => value

def fmtStartsHex (text : Bytes) : Bool :=
  text.length > 2 ∧ text[0]? = some 48 ∧ (text[1]? = some 120 ∨ text[1]? = some 88)

def fmtParseIntText (text : Bytes) : Int64 :=
  Int64.ofNat (fmtParseFrom (fmtStartsHex text) (if fmtStartsHex text then text.drop 2 else text) 0)

section Tokens

variable (tokens : List Lexer.Token) (source : Bytes)

def tokenText (token : Lexer.Token) : Bytes :=
  token.textOrEmpty source (tokenStreamSourceLength tokens)

/-- The end of a range, moved on over the tokens of the line. -/
def lineStop (line stop : Nat) : Nat :=
  stop + ((tokens.drop stop).takeWhile fun token =>
    token.line = line && token.kind ≠ .newline).length

/-- The first literal in base 16 of the line that is read as the value. -/
def hexLiteralOf (rangeAt : List Lexer.Token → Nat → Nat → Option (Nat × Nat)) (line offset : Nat)
    (value : Int64) : Option Lexer.Token :=
  if line = 0 then none
  else
    (rangeAt tokens line offset).bind fun (start, stop) =>
      ((tokens.take (lineStop tokens line stop)).drop start).find? fun token =>
        token.kind = .hexLit && fmtParseIntText (tokenText tokens source token) = value

end Tokens

/-- The digits of a positive number, least digit first. -/
def fmtIntDigits (left : Nat) : Bytes :=
  if left = 0 then [] else UInt8.ofNat (48 + left % 10) :: fmtIntDigits (left / 10)
termination_by left
decreasing_by omega

def fmtDecimal (value : Int64) : Option Bytes :=
  let negative := value < 0
  (if negative then Lib.CheckedInt64.sub 0 value else some value).map fun left =>
    (if negative then [45] else []) ++
      ((if left = 0 then [48] else []) ++ fmtIntDigits left.toInt.toNat).reverse

/-- Where the literal is looked for.  A statement sets its line and offset, for which the literal's
own position stands in. -/
def fmtIntPlace (fmtStmtLine fmtStmtOffset : Nat) (pos : Ast.Pos) : Nat × Nat :=
  if fmtStmtLine ≠ 0 then (fmtStmtLine, fmtStmtOffset) else (pos.line, pos.offset)

/-- The text of an integer literal. -/
def fmtIntLit (rangeAt : List Lexer.Token → Nat → Nat → Option (Nat × Nat))
    (tokens : List Lexer.Token) (source : Bytes) (fmtStmtLine fmtStmtOffset : Nat) (value : Int64)
    (pos : Ast.Pos) : Option Bytes :=
  let place := fmtIntPlace fmtStmtLine fmtStmtOffset pos
  match hexLiteralOf tokens source rangeAt place.1 place.2 value with
  | some token => some (tokenText tokens source token)
  | none => fmtDecimal value

/-! ## Reading back -/

def literalAt (text : Bytes) (c : Cursor) : Option Int64 :=
  let (token, last) := readNumber (.ofText text) c
  if (token.kind = .intLit ∨ token.kind = .hexLit) ∧ last.position = text.length then
    some (parseIntLiteralValue (token.textOrEmpty text text.length))
  else none

def rereadLiteral (text : Bytes) : Option Int64 :=
  let lexer := Lexer.new []
  if lexer.currentChar (.ofText text) = '-' then
    let (operator, next) := lexer.readOperatorToken (.ofText text)
    if operator.kind = .minus then (literalAt text next.toCursor).map (-·) else none
  else literalAt text lexer.toCursor

/-! ## What is read back -/

section Reread

variable {text : Bytes} {c : Cursor}

theorem readNumber_end
    (kind : (runNumber (.ofText text) c).numberKind = .intLit ∨
      (runNumber (.ofText text) c).numberKind = .hexLit)
    (ends : (runNumber (.ofText text) c).position = text.length) :
    readNumber (.ofText text) c =
      (Token.withSuffix (runNumber (.ofText text) c).numberKind c c.position text.length
        text.length, (runNumber (.ofText text) c).toCursor) := by
  have plain : readTypeSuffixAt (.ofText text) text.length = none :=
    readTypeSuffixAt_end (Nat.le_refl text.length)
  unfold readNumber
  simp only [ends, plain]
  rcases kind with kind | kind <;> simp [kind, suffixNamesFloat]

theorem literalAt_eq (small : text.length < 2 ^ 32) (inside : c.position < text.length)
    (kind : (runNumber (.ofText text) c).numberKind = .intLit ∨
      (runNumber (.ofText text) c).numberKind = .hexLit)
    (ends : (runNumber (.ofText text) c).position = text.length) :
    literalAt text c = some (parseIntLiteralValue (text.drop c.position)) := by
  obtain ⟨start, length, -⟩ := @withSuffix_fields c (runNumber (.ofText text) c).numberKind
    c.position text.length text.length small (Nat.le_of_lt inside) (Nat.le_refl _) (by omega)
  have bytes : (Token.withSuffix (runNumber (.ofText text) c).numberKind c c.position text.length
      text.length).textOrEmpty text text.length = text.drop c.position := by
    rw [Token.textOrEmpty, start, length, Input.view, if_neg (by simp only; omega)]
    change (text.drop c.position).take _ = _
    refine take_of_length_le ?_
    rw [length_drop]
    omega
  rw [literalAt, readNumber_end kind ends]
  simp only [bytes, ends, and_true]
  exact if_pos kind

theorem rereadLiteral_of_literal (plain : (Input.ofText text).charAt 0 ≠ '-') :
    rereadLiteral text = literalAt text (Lexer.new []).toCursor := by
  rw [rereadLiteral]
  exact if_neg plain

theorem rereadLiteral_hex (small : text.length < 2 ^ 32) (hex : HexText text) :
    rereadLiteral text = some (parseIntLiteralValue text) := by
  have first : (Input.ofText text).charAt 0 ≠ '-' := by
    rw [hex.1.1]
    decide
  obtain ⟨kind, ends⟩ := @runNumber_hex (.ofText text) (Lexer.new []).toCursor hex.1 hex.2
  rw [rereadLiteral_of_literal first, literalAt_eq small (Nat.lt_of_succ_lt hex.1.lt)
    (.inr kind) ends]
  rfl

theorem rereadLiteral_decimal (small : text.length < 2 ^ 32) (some_ : text ≠ [])
    (digits : ∀ byte ∈ text, 48 ≤ byte ∧ byte ≤ 57) :
    rereadLiteral text = some (parseIntLiteralValue text) := by
  have inside : 0 < text.length := length_pos_of_ne_nil some_
  obtain ⟨decimal, run⟩ := decimalRun_of_digits inside digits
  have first : (Input.ofText text).charAt 0 ≠ '-' :=
    ne_of_isDigit (@isDigit_of_range text 0 0 digits (Nat.le_refl 0) inside) (by decide)
  obtain ⟨kind, ends⟩ :=
    @runNumber_decimal (.ofText text) (Lexer.new []).toCursor decimal inside run
  rw [rereadLiteral_of_literal first, literalAt_eq small inside (.inl kind) ends]
  rfl

theorem readOperatorToken_minus {inp : Input} {lexer : Lexer}
    (minus : lexer.currentChar inp = '-')
    (arrow : (lexer.toCursor.advanceChar inp).currentChar inp ≠ '>')
    (equal : (lexer.toCursor.advanceChar inp).currentChar inp ≠ '=') :
    lexer.readOperatorToken inp = lexer.tokenTo .minus (lexer.toCursor.advanceChar inp) := by
  unfold Lexer.readOperatorToken
  simp only [minus, Lexer.arrowOrEqToken, Lexer.eqSuffixToken, Cursor.matchChar, if_neg arrow,
    if_neg equal, Bool.false_eq_true, if_false]

theorem rereadLiteral_negative {digits : Bytes} (small : (45 :: digits).length < 2 ^ 32)
    (some_ : digits ≠ []) (range : ∀ byte ∈ digits, 48 ≤ byte ∧ byte ≤ 57) :
    rereadLiteral (45 :: digits) = some (-parseIntLiteralValue digits) := by
  have inside : 1 < (45 :: digits).length := by
    have := length_pos_of_ne_nil some_
    rw [length_cons]
    omega
  obtain ⟨decimal, run⟩ := decimalRun_of_digits inside range
  have minus : (Lexer.new []).currentChar (.ofText (45 :: digits)) = '-' :=
    (charAt_ofText_iff rfl (by decide)).mpr rfl
  have moved : ((Lexer.new []).toCursor.advanceChar (.ofText (45 :: digits))).position = 1 :=
    Cursor.advanceChar_position (Nat.lt_of_succ_lt inside)
  have digit := @isDigit_of_range (45 :: digits) 1 1 range (Nat.le_refl 1) inside
  have other {character : Char} (no : isDigit character = false) :
      ((Lexer.new []).toCursor.advanceChar (.ofText (45 :: digits))).currentChar
        (.ofText (45 :: digits)) ≠ character := by
    rw [Cursor.currentChar, moved]
    exact ne_of_isDigit digit no
  obtain ⟨kind, ends⟩ := @runNumber_decimal (.ofText (45 :: digits))
    ((Lexer.new []).toCursor.advanceChar (.ofText (45 :: digits))) (moved ▸ decimal)
    (by rw [moved]; exact inside) (moved ▸ run)
  have read := literalAt_eq small (moved ▸ inside) (.inl kind) ends
  rw [moved] at read
  rw [rereadLiteral, if_pos minus,
    readOperatorToken_minus minus (other (by decide)) (other (by decide))]
  exact congrArg (Option.map (-·)) read

end Reread

/-! ## Values in base 10 -/

theorem fmtIntDigits_eq (left : Nat) : fmtIntDigits left = decimalBytes left := by
  fun_induction fmtIntDigits left with
  | case1 => rfl
  | case2 left some ih =>
    rw [ih, decimalBytes, decimalBytes, Nat.digits_def' (by decide) (Nat.pos_of_ne_zero some),
      map_cons]

def magnitudeDigits (left : Int64) : Bytes :=
  ((if left = 0 then [48] else []) ++ fmtIntDigits left.toInt.toNat).reverse

section Magnitude

variable {left : Int64}

theorem magnitudeDigits_range {byte : UInt8} (mem : byte ∈ magnitudeDigits left) :
    48 ≤ byte ∧ byte ≤ 57 := by
  rw [magnitudeDigits, fmtIntDigits_eq, mem_reverse, mem_append] at mem
  rcases mem with zero | digit
  · split at zero
    · rw [mem_singleton.mp zero]
      decide
    · cases zero
  · exact decimalBytes_range digit

theorem magnitudeDigits_zero : magnitudeDigits 0 = [48] := by
  decide +kernel

theorem magnitudeDigits_of_ne (some : left ≠ 0) :
    magnitudeDigits left = (decimalBytes left.toInt.toNat).reverse := by
  rw [magnitudeDigits, if_neg some, nil_append, fmtIntDigits_eq]

theorem magnitudeDigits_ne_nil (positive : 0 ≤ left.toInt) : magnitudeDigits left ≠ [] := by
  by_cases zero : left = 0
  · rw [zero, magnitudeDigits_zero]
    nofun
  have some : left.toInt.toNat ≠ 0 := by
    intro none
    refine zero (Int64.toInt_inj.mp ?_)
    rw [Int64.toInt_zero]
    omega
  rw [magnitudeDigits_of_ne zero, Ne, reverse_eq_nil_iff, decimalBytes, map_eq_nil_iff]
  exact Nat.digits_ne_nil_iff_ne_zero.mpr some

theorem numeralFrom_magnitudeDigits :
    numeralFrom false 0 (magnitudeDigits left) = left.toInt.toNat := by
  by_cases zero : left = 0
  · rw [zero, magnitudeDigits_zero]
    decide +kernel
  · rw [magnitudeDigits_of_ne zero, numeralFrom_decimal]

theorem parseIntLiteralValue_magnitude (positive : 0 ≤ left.toInt) :
    parseIntLiteralValue (magnitudeDigits left) = left := by
  have text := decimalText_of_digits (magnitudeDigits_ne_nil positive)
    fun byte => magnitudeDigits_range
  have plain : startsHex (magnitudeDigits left) = false := by
    rw [← Bool.not_eq_true, startsHex_iff]
    exact text.2.1
  have bound := Int64.toInt_lt left
  rw [parseIntLiteralValue, parseIntLiteral_eq (.inl text), Option.getD_some, literalNumeral, plain]
  simp only [Bool.false_eq_true, if_false]
  rw [numeralFrom_magnitudeDigits, Nat.min_eq_left (by rw [literalMaximum]; omega)]
  refine Int64.toInt_inj.mp ?_
  rw [Int64.toInt_ofNat_of_lt (by omega)]
  omega

theorem length_magnitudeDigits : (magnitudeDigits left).length ≤ 19 := by
  by_cases zero : left = 0
  · rw [zero, magnitudeDigits_zero]
    decide
  · have bound := Int64.toInt_lt left
    rw [magnitudeDigits_of_ne zero, length_reverse, decimalBytes, length_map,
      Nat.digits_length_le_iff (by decide)]
    omega

end Magnitude

/-! ## What is printed -/

theorem fmtDecimal_eq {value left : Int64}
    (magnitude : (if value < 0 then Lib.CheckedInt64.sub 0 value else some value) = some left) :
    fmtDecimal value = some ((if value < 0 then [45] else []) ++ magnitudeDigits left) := by
  rw [fmtDecimal]
  rw [magnitude]
  rfl

theorem fmtDecimal_reread {value : Int64} (least : value ≠ Int64.minValue) :
    ∃ text, fmtDecimal value = some text ∧ rereadLiteral text = some value := by
  by_cases negative : value < 0
  · have range := Lib.CheckedInt64.inRange_toInt value
    have below : value.toInt < 0 := Int64.lt_iff_toInt_lt.mp negative
    have above : value.toInt ≠ -9223372036854775808 := fun same =>
      least (Int64.toInt_inj.mp same)
    obtain ⟨left, magnitude⟩ : ∃ left, Lib.CheckedInt64.sub 0 value = some left := by
      refine ⟨Int64.ofInt (0 - value.toInt), if_pos ?_⟩
      rw [Int64.toInt_zero]
      exact ⟨by have := range.2; omega, by have := range.1; omega⟩
    have eq : left.toInt = 0 - value.toInt := Lib.CheckedInt64.sub_eq_some_iff.mp magnitude
    have positive : 0 ≤ left.toInt := by omega
    refine ⟨45 :: magnitudeDigits left, ?_, ?_⟩
    · rw [@fmtDecimal_eq value left (by rwa [if_pos negative]), if_pos negative]
      rfl
    have short := @length_magnitudeDigits left
    rw [rereadLiteral_negative (by rw [length_cons]; omega)
      (magnitudeDigits_ne_nil positive) fun byte => magnitudeDigits_range,
      parseIntLiteralValue_magnitude positive]
    refine congrArg some (Int64.toInt_inj.mp ?_)
    rw [Int64.toInt_neg, eq, Lib.CheckedInt64.bmod_of_inRange ⟨?_, ?_⟩]
    · omega
    · have := range.1
      omega
    · have := range.2
      omega
  · have positive : 0 ≤ value.toInt := by
      have := mt Int64.lt_iff_toInt_lt.mpr negative
      rw [Int64.toInt_zero] at this
      omega
    refine ⟨magnitudeDigits value, ?_, ?_⟩
    · rw [@fmtDecimal_eq value value (by rw [if_neg negative]), if_neg negative]
      rfl
    · have short := @length_magnitudeDigits value
      rw [rereadLiteral_decimal (by omega) (magnitudeDigits_ne_nil positive)
        fun byte => magnitudeDigits_range, parseIntLiteralValue_magnitude positive]

theorem fmtDecimal_least : fmtDecimal Int64.minValue = none := by
  decide +kernel

theorem rereadLiteral_matched {tokens : List Lexer.Token} {filename source : Bytes}
    {sourceLength : Nat}
    (lexed : frontendTokenizeWithLength filename source sourceLength = some tokens ∨
      frontendTokenizeExpandedUnit filename source sourceLength = some tokens)
    (small : sourceLength < 2 ^ 32) {token : Lexer.Token} (mem : token ∈ tokens)
    (hex : token.kind = .hexLit) :
    HexText (tokenText tokens source token) ∧
      rereadLiteral (tokenText tokens source token) =
        some (parseIntLiteralValue (tokenText tokens source token)) := by
  obtain ⟨renumber, numeric⟩ := frontendTokenize_numeric lexed
  obtain ⟨c, starts, read⟩ := numeric token mem (by rw [hex]; rfl)
  have extent : tokenStreamSourceLength tokens = sourceLength := by
    rw [(EndsAt.of_lexed lexed).tokenStreamSourceLength_eq, Nat.mod_eq_of_lt small]
  have text : HexText (tokenText tokens source token) := by
    rw [tokenText, extent, read]
    exact hexText_of_readNumber starts small (read ▸ hex)
  refine ⟨text, rereadLiteral_hex ?_ text⟩
  rw [tokenText, extent, Token.textOrEmpty, Input.view]
  split
  · exact Nat.two_pow_pos 32
  · rw [length_take]
    simp only at *
    omega

/-! ## The literal that is matched -/

section Matched

variable {tokens : List Lexer.Token} {source : Bytes}
  {rangeAt : List Lexer.Token → Nat → Nat → Option (Nat × Nat)} {line offset : Nat} {value : Int64}
  {token : Lexer.Token}

theorem hexLiteralOf_some
    (found : hexLiteralOf tokens source rangeAt line offset value = some token) :
    token ∈ tokens ∧ token.kind = .hexLit ∧
      fmtParseIntText (tokenText tokens source token) = value := by
  unfold hexLiteralOf at found
  split at found
  next => cases found
  obtain ⟨range, -, matched⟩ := Option.bind_eq_some_iff.mp found
  have mem := mem_of_mem_take (mem_of_mem_drop (mem_of_find?_eq_some matched))
  have same := find?_some matched
  rw [Bool.and_eq_true, decide_eq_true_eq, decide_eq_true_eq] at same
  exact ⟨mem, same⟩

theorem hexLiteralOf_none (none_ : ∀ token ∈ tokens, token.kind ≠ .hexLit) :
    hexLiteralOf tokens source rangeAt line offset value = none := by
  cases found : hexLiteralOf tokens source rangeAt line offset value with
  | none => rfl
  | some token =>
    obtain ⟨mem, hex, -⟩ := hexLiteralOf_some found
    exact absurd hex (none_ token mem)

end Matched

/-! ## The two readers -/

theorem fmtParseFrom_eq {isHex : Bool} {text : Bytes} (value : Nat)
    (digits : ∀ byte ∈ text, (literalDigit isHex byte).isSome = true) :
    fmtParseFrom isHex text (value % 2 ^ 64) = numeralFrom isHex value text % 2 ^ 64 := by
  induction text generalizing value with
  | nil => rfl
  | cons byte rest ih =>
    obtain ⟨digit, here⟩ := Option.isSome_iff_exists.mp (digits byte mem_cons_self)
    have later := ih (value * literalBase isHex + digit) fun b mem =>
      digits b (mem_cons_of_mem _ mem)
    rw [numeralFrom] at later
    rw [fmtParseFrom, numeralFrom, foldl_cons, here]
    simp only
    rw [← later, Nat.add_mod, Nat.mod_mul_mod, ← Nat.add_mod]

/-- A text in base 16 without separators, of at most 64 bits. -/
def IsPlainHex (text : Bytes) : Prop := 95 ∉ text ∧ literalNumeral text ≤ literalMaximum

/-- On a plain text the printer's reader and the parser agree. -/
theorem fmtParseIntText_eq {text : Bytes} (hex : HexText text) (plain : IsPlainHex text) :
    fmtParseIntText text = parseIntLiteralValue text := by
  have marked := startsHex_iff.mpr hex.1
  have bound : literalNumeral text < 2 ^ 64 := Nat.lt_succ_of_le plain.2
  rw [parseIntLiteralValue, parseIntLiteral_eq (.inr hex), Option.getD_some,
    Nat.min_eq_left plain.2]
  refine congrArg Int64.ofNat ?_
  have shape := marked
  rw [startsHex, decide_eq_true_eq] at shape
  rw [literalNumeral, marked, if_pos rfl] at bound ⊢
  by_cases long : text.length > 2
  · have starts : fmtStartsHex text = true := decide_eq_true ⟨long, shape.2⟩
    have digits : ∀ byte ∈ text.drop 2, (literalDigit true byte).isSome = true := by
      intro byte mem
      have literal := isLiteralByte_of_hexText hex byte mem
      rw [isLiteralByte, Bool.or_eq_true, decide_eq_true_eq] at literal
      exact literal.resolve_left fun separator => plain.1 (separator ▸ mem_of_mem_drop mem)
    have read := fmtParseFrom_eq 0 digits
    rw [Nat.zero_mod] at read
    rw [starts, if_pos rfl, read, Nat.mod_eq_of_lt bound]
  -- `0x` alone is read in base 10, up to the `x`.
  · obtain ⟨first, second, rfl⟩ := length_eq_two.mp (by omega : text.length = 2)
    obtain rfl := Option.some.inj shape.2.1
    rcases shape.2.2 with small | capital
    · obtain rfl := Option.some.inj small
      decide +kernel
    · obtain rfl := Option.some.inj capital
      decide +kernel

/-- The text of an integer literal reads back as its value if the matched literal in base 16 is a
plain one, or any other that the two readers agree on, or, where none is matched, if the value is
not the least one, whose printing traps. -/
theorem fmtIntLit_reread_iff (rangeAt : List Lexer.Token → Nat → Nat → Option (Nat × Nat))
    {tokens : List Lexer.Token} {filename source : Bytes} {sourceLength : Nat}
    (lexed : frontendTokenizeWithLength filename source sourceLength = some tokens ∨
      frontendTokenizeExpandedUnit filename source sourceLength = some tokens)
    (small : sourceLength < 2 ^ 32) (fmtStmtLine fmtStmtOffset : Nat) (value : Int64)
    (pos : Ast.Pos) :
    let place := fmtIntPlace fmtStmtLine fmtStmtOffset pos
    (∃ text, fmtIntLit rangeAt tokens source fmtStmtLine fmtStmtOffset value pos = some text ∧
        rereadLiteral text = some value) ↔
      match (hexLiteralOf tokens source rangeAt place.1 place.2 value).map
        (tokenText tokens source) with
      | some text => IsPlainHex text ∨ fmtParseIntText text = parseIntLiteralValue text
      | none => value ≠ Int64.minValue := by
  intro place
  rw [fmtIntLit]
  cases found : hexLiteralOf tokens source rangeAt place.1 place.2 value with
  | none =>
    simp only
    refine ⟨?_, fmtDecimal_reread⟩
    rintro ⟨text, eq, -⟩ rfl
    rw [fmtDecimal_least] at eq
    cases eq
  | some token =>
    obtain ⟨mem, isHex, same⟩ := hexLiteralOf_some found
    obtain ⟨hex, reread⟩ := rereadLiteral_matched lexed small mem isHex
    simp only
    constructor
    · rintro ⟨text, eq, back⟩
      rw [← Option.some.inj eq, reread, Option.some.injEq] at back
      exact .inr (same.trans back.symm)
    · intro agree
      refine ⟨_, rfl, reread.trans (congrArg some ?_)⟩
      rw [← same]
      exact (agree.elim (fmtParseIntText_eq hex) id).symm

/-- `0x10` is printed as it stands. -/
theorem hexLiteral_kept : ∃ tokens,
    frontendTokenizeExpandedUnit [] (ascii "0x10") 4 = some tokens ∧
      ∃ text, fmtIntLit (fun _ _ _ => some (0, 1)) tokens (ascii "0x10") 1 0 16 ⟨1, 1, 0, 1, 5, 4⟩ =
        some text ∧ rereadLiteral text = some 16 := by
  have lexed : (frontendTokenizeExpandedUnit [] (ascii "0x10") 4).map (fun tokens =>
      (hexLiteralOf tokens (ascii "0x10") (fun _ _ _ => some (0, 1)) 1 0 16).map
        (tokenText tokens (ascii "0x10"))) = some (some (ascii "0x10")) := by
    decide +kernel
  obtain ⟨tokens, unit, matched⟩ := Option.map_eq_some_iff.mp lexed
  refine ⟨tokens, unit, (fmtIntLit_reread_iff _ (.inr unit) (by decide) 1 0 16 _).mpr ?_⟩
  have here : (hexLiteralOf tokens (ascii "0x10") (fun _ _ _ => some (0, 1))
    (fmtIntPlace 1 0 ⟨1, 1, 0, 1, 5, 4⟩).1 (fmtIntPlace 1 0 ⟨1, 1, 0, 1, 5, 4⟩).2 16).map
      (tokenText tokens (ascii "0x10")) = some (ascii "0x10") := matched
  rw [here]
  exact .inl ⟨by decide +kernel, by decide +kernel⟩

/-- The literal `9223372036854775808` has the least value, and printing it traps. -/
theorem leastLiteral_traps : ∃ tokens token,
    frontendTokenizeExpandedUnit [] (ascii "9223372036854775808") 19 = some tokens ∧
      tokens.head? = some token ∧ token.kind = .intLit ∧
      ∀ rangeAt fmtStmtLine fmtStmtOffset pos,
        fmtIntLit rangeAt tokens (ascii "9223372036854775808") fmtStmtLine fmtStmtOffset
          (parseIntLiteralValue (tokenText tokens (ascii "9223372036854775808") token)) pos =
            none := by
  have lexed : (frontendTokenizeExpandedUnit [] (ascii "9223372036854775808") 19).map
      (fun tokens => tokens.map fun token => (token.kind, parseIntLiteralValue
        (tokenText tokens (ascii "9223372036854775808") token))) =
      some [(.intLit, Int64.minValue), (.eof, 0)] := by
    decide +kernel
  obtain ⟨tokens, unit, read⟩ := Option.map_eq_some_iff.mp lexed
  obtain ⟨token, rest, rfl, first, others⟩ := map_eq_cons_iff.mp read
  obtain ⟨kind, least⟩ := Prod.mk.inj first
  obtain ⟨last, end_, rfl, second, ends⟩ := map_eq_cons_iff.mp others
  obtain rfl := map_eq_nil_iff.mp ends
  obtain ⟨eof, -⟩ := Prod.mk.inj second
  refine ⟨_, token, unit, rfl, kind, fun rangeAt line offset pos => ?_⟩
  have unmatched : ∀ found ∈ [token, last], found.kind ≠ .hexLit := by
    simp [kind, eof]
  rw [least, fmtIntLit]
  simp only [hexLiteralOf_none unmatched, fmtDecimal_least]

end Elisa.Driver
