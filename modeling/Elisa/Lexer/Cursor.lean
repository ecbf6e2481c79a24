import Elisa.Bytes

/-!
# The lexer's cursor

The lexer reads its source through `charAt`: the byte at an index, and a zero from the length on
(`lexer_character_access.elisa`).

The cursor counts lines and columns in signed 64-bit integers (`lexer.elisa`,
`lexer_position_step.elisa`), and an operation that leaves the type stops the program.  The counters
of the model go on: `trapped` says that the program would have stopped.  Some loops move the cursor
by hand; `Cursor.Reaches` says where any of them can get.
-/

namespace Elisa.Lexer

/-! ## The source -/

/-- What the lexer reads and never writes. -/
structure Input where
  source : Bytes
  sourceLength : Nat
  renumberOnDirective : Bool

def nullChar : Char := Char.ofNat 0

def Input.byteAt (inp : Input) (index : Nat) : Nat := (inp.source.getD index 0).toNat

def Input.charAt (inp : Input) (index : Nat) : Char :=
  if index < inp.sourceLength then Char.ofNat (inp.byteAt index) else nullChar

/-- The bytes of a range that fits the source, and no bytes otherwise. -/
def Input.view (inp : Input) (start stop : Nat) : Bytes :=
  if stop ≤ start ∨ inp.sourceLength < stop then [] else (inp.source.drop start).take (stop - start)

@[simp] theorem Input.charAt_of_end {inp : Input} {index : Nat} (h : inp.sourceLength ≤ index) :
    inp.charAt index = nullChar := by
  simp [charAt, Nat.not_lt.2 h]

/-! ## Characters -/

def isDigit (character : Char) : Bool := decide ('0' ≤ character ∧ character ≤ '9')

def isHexDigit (character : Char) : Bool :=
  isDigit character || decide ('a' ≤ character ∧ character ≤ 'f') ||
    decide ('A' ≤ character ∧ character ≤ 'F')

def isAlpha (character : Char) : Bool :=
  decide ('a' ≤ character ∧ character ≤ 'z') || decide ('A' ≤ character ∧ character ≤ 'Z')

def isAlphanumeric (character : Char) : Bool := isAlpha character || isDigit character

def isIdentifierStart (character : Char) : Bool :=
  character == '_' || character == '$' || isAlpha character

def isIdentifierChar (character : Char) : Bool :=
  character == '_' || character == '$' || isAlphanumeric character

def isBlank (character : Char) : Bool := character == ' ' || character == '\t'

/-! ## The cursor -/

def fitsInt (n : Nat) : Bool := decide (n < 2 ^ 63)

structure Cursor where
  position : Nat
  line : Nat
  column : Nat
  /-- Whether some signed operation has left its type. -/
  trapped : Bool
  deriving DecidableEq

variable (inp : Input)

def Input.isEnd (position : Nat) : Bool := decide (inp.sourceLength ≤ position)

def Input.remaining (position : Nat) : Nat := inp.sourceLength - position

def Input.stepsFrom (position : Nat) : Nat := 2 * inp.remaining position + 2

namespace Cursor

abbrev isEndOfSource (c : Cursor) : Bool := inp.isEnd c.position

abbrev currentChar (c : Cursor) : Char := inp.charAt c.position

abbrev peek (c : Cursor) (offset : Nat) : Char := inp.charAt (c.position + offset)

/-- The column moves on, whatever the character is. -/
def bumpColumn (c : Cursor) (count : Nat) : Cursor :=
  { c with column := c.column + count, trapped := c.trapped || !fitsInt (c.column + count) }

def skip (c : Cursor) (count : Nat) : Cursor :=
  { c.bumpColumn count with position := c.position + count }

def advanceChar (c : Cursor) : Cursor :=
  if c.isEndOfSource inp then c
  else if c.currentChar inp = '\n' then
    { position := c.position + 1
      line := c.line + 1
      column := 1
      trapped := c.trapped || !fitsInt (c.line + 1) }
  else c.skip 1

def advanceChars (c : Cursor) (count : Nat) : Cursor := (advanceChar inp)^[count] c

def matchChar (c : Cursor) (expected : Char) : Bool × Cursor :=
  if c.currentChar inp = expected then (true, c.advanceChar inp) else (false, c)

/-! ## Where the cursor gets -/

variable {inp} {c d e : Cursor} {count : Nat}

@[simp] theorem skip_position : (c.skip count).position = c.position + count := rfl

theorem advanceChar_of_end (h : inp.sourceLength ≤ c.position) : c.advanceChar inp = c := by
  simp [advanceChar, isEndOfSource, Input.isEnd, h]

theorem advanceChar_of_inline (h : c.position < inp.sourceLength)
    (inline : c.currentChar inp ≠ '\n') :
    c.advanceChar inp = c.skip 1 := by
  simp [advanceChar, isEndOfSource, Input.isEnd, Nat.not_le.2 h, inline]

theorem advanceChar_position (h : c.position < inp.sourceLength) :
    (c.advanceChar inp).position = c.position + 1 := by
  unfold advanceChar
  rw [if_neg (by simpa [isEndOfSource, Input.isEnd] using h)]
  split <;> rfl

theorem position_le_advanceChar : c.position ≤ (c.advanceChar inp).position := by
  rcases Nat.lt_or_ge c.position inp.sourceLength with h | h
  · rw [advanceChar_position h]
    omega
  · exact Nat.le_of_eq (by rw [advanceChar_of_end h])

theorem advanceChar_le (h : c.position ≤ inp.sourceLength) :
    (c.advanceChar inp).position ≤ inp.sourceLength := by
  rcases Nat.lt_or_ge c.position inp.sourceLength with lt | ge
  · rw [advanceChar_position lt]
    omega
  · rwa [advanceChar_of_end ge]

/-- Some number of calls of `advanceChar` leads from one cursor to the other. -/
def Reaches (inp : Input) (c d : Cursor) : Prop := ∃ count, d = c.advanceChars inp count

namespace Reaches

@[refl] theorem refl (c : Cursor) : Reaches inp c c := ⟨0, rfl⟩

theorem trans (first : Reaches inp c d) (second : Reaches inp d e) : Reaches inp c e := by
  obtain ⟨m, rfl⟩ := first
  obtain ⟨n, rfl⟩ := second
  exact ⟨n + m, (Function.iterate_add_apply _ n m c).symm⟩

theorem advanceChars (count : Nat) : Reaches inp c (c.advanceChars inp count) := ⟨count, rfl⟩

theorem advanceChar : Reaches inp c (c.advanceChar inp) := ⟨1, rfl⟩

/-- What `advanceChar` keeps holds wherever the cursor gets. -/
theorem keeps (P : Cursor → Prop) (kept : ∀ c, P c → P (c.advanceChar inp))
    (moved : Reaches inp c d) (start : P c) : P d := by
  obtain ⟨count, rfl⟩ := moved
  induction count generalizing c with
  | zero => exact start
  | succ count ih => exact ih (kept c start)

theorem position_le (moved : Reaches inp c d) : c.position ≤ d.position :=
  moved.keeps (fun e => c.position ≤ e.position)
    (fun _ le => Nat.le_trans le position_le_advanceChar) (Nat.le_refl _)

theorem le_length (moved : Reaches inp c d) (start : c.position ≤ inp.sourceLength) :
    d.position ≤ inp.sourceLength :=
  moved.keeps (fun e => e.position ≤ inp.sourceLength) (fun _ => advanceChar_le) start

theorem eq_of_le (moved : Reaches inp c d) (le : d.position ≤ c.position) : d = c := by
  obtain ⟨count, rfl⟩ := moved
  cases count with
  | zero => rfl
  | succ count =>
    have rest : Reaches inp (c.advanceChar inp) (c.advanceChars inp (count + 1)) := ⟨count, rfl⟩
    rcases Nat.lt_or_ge c.position inp.sourceLength with lt | ge
    · have := rest.position_le
      rw [advanceChar_position lt] at this
      omega
    have stays : ∀ n, c.advanceChars inp n = c := by
      intro n
      induction n with
      | zero => rfl
      | succ n ih =>
        show (c.advanceChar inp).advanceChars inp n = c
        rw [advanceChar_of_end ge, ih]
    exact stays _

end Reaches

theorem advanceChars_succ :
    c.advanceChars inp (count + 1) = (c.advanceChar inp).advanceChars inp count :=
  rfl

theorem fitsInt_of_le {m n : Nat} (le : m ≤ n) (h : fitsInt n = true) : fitsInt m = true := by
  simp only [fitsInt, decide_eq_true_eq] at h ⊢
  omega

theorem skip_skip {m n : Nat} : (c.skip m).skip n = c.skip (m + n) := by
  have both : (c.trapped || !fitsInt (c.column + m) || !fitsInt (c.column + (m + n))) =
      (c.trapped || !fitsInt (c.column + (m + n))) := by
    cases h : fitsInt (c.column + (m + n)) with
    | false => simp
    | true =>
      have := fitsInt_of_le (n := c.column + (m + n)) (m := c.column + m) (by omega) h
      simp [this]
  simp only [skip, bumpColumn, Nat.add_assoc, both]

theorem advanceChars_of_inline (fits : c.position + count ≤ inp.sourceLength) (some : 0 < count)
    (inline : ∀ offset < count, c.peek inp offset ≠ '\n') :
    c.advanceChars inp count = c.skip count := by
  induction count generalizing c with
  | zero => omega
  | succ count ih =>
    have step := advanceChar_of_inline (c := c) (by omega) (inline 0 (by omega))
    rw [advanceChars_succ, step]
    cases count with
    | zero => rfl
    | succ count =>
      have rest : ∀ offset < count + 1, (c.skip 1).peek inp offset ≠ '\n' := by
        intro offset lt
        have := inline (offset + 1) (by omega)
        rwa [peek, skip_position, Nat.add_assoc, Nat.add_comm 1]
      rw [ih (by rw [skip_position]; omega) (by omega) rest, skip_skip, Nat.add_comm 1]

theorem Reaches.skip (fits : c.position + count ≤ inp.sourceLength) (some : 0 < count)
    (inline : ∀ offset < count, c.peek inp offset ≠ '\n') : Reaches inp c (c.skip count) :=
  ⟨count, (advanceChars_of_inline fits some inline).symm⟩

end Cursor

/-! ## Tokens -/

inductive TokenKind where
  | eof | newline | indent | dedent | ident | intLit | floatLit | hexLit | stringLit | kwDef
  | kwError | kwEnum | kwStruct | kwConst | kwGlobal | kwExtern | kwExport | kwIf | kwMatch
  | kwElif | kwElse | kwWhile | kwBreak | kwContinue | kwReturn | kwHeap | kwStack | kwOwned
  | kwStatic | kwMutable | kwRepr | kwPacked | kwAligned | kwPass | kwPanic | kwNot | kwAnd
  | kwOr | kwNull | kwTrue | kwFalse | kwZeroed | kwSizeof | kwAlignof | kwOffsetof | kwTail
  | kwTry | kwCatch | kwRaise | kwRegion | kwNew | kwAs | kwIn | kwWith | colon | scope | arrow
  | dot | range | rangeLt | rangeGt | rangeLe | comma | lParen | rParen | lBracket | rBracket
  | hash | ampersand | question | qAssign | bang | at | ellipsis | lArrow | plusEq | minusEq
  | starEq | slashEq | percentEq | caretEq | pipeEq | ampEq | lShiftEq | rShiftEq | assign
  | eqEq | bangEq | lt | gt | ltEq | gtEq | plus | minus | star | slash | percent | pipe
  | caret | lShift | rShift | tilde | charLit | kwIs | fatArrow | kwTo | lBrace | rBrace
  | pipeGt | semicolon | comment | fString | kwLmut | label
  deriving DecidableEq

/-- A token.  The widths of its fields are 32 bits, and 16 bits for the length of the suffix. -/
structure Token where
  kind : TokenKind
  line : Nat
  column : Nat
  start : Nat
  length : Nat
  suffixLength : Nat
  hasSuffix : Bool
  deriving DecidableEq

/-- The difference of two numbers of 64 bits without sign. -/
def usizeSub (a b : Nat) : Nat := (a + (2 ^ 64 - b)) % 2 ^ 64

def Token.withSuffix (kind : TokenKind) (position : Cursor) (start textEnd suffixEnd : Nat) :
    Token where
  kind := kind
  line := position.line % 2 ^ 32
  column := position.column % 2 ^ 32
  start := start % 2 ^ 32
  length := usizeSub textEnd start % 2 ^ 32
  suffixLength := usizeSub suffixEnd textEnd % 2 ^ 16
  hasSuffix := decide (textEnd < suffixEnd)

def Token.of (kind : TokenKind) (position : Cursor) (start textEnd : Nat) : Token :=
  Token.withSuffix kind position start textEnd textEnd

end Elisa.Lexer
