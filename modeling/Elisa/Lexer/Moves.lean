import Elisa.Lexer.Scanning

/-!
# The moves of the lexer

Everything the lexer does is a chain of a few moves (`Move`): it passes a blank, a newline, a
comment or a directive, reads a lexeme, opens or closes a block, and delivers a token.  A move says
what it does to the state, and what it tells of (`Event`).  `pass_moves` and `tokenizeFrom_moves`
cut passes and runs into moves, so that what every move keeps holds at every point of every run.
-/

namespace Elisa.Lexer

open Elisa.Lib Cursor

/-! ## Lexemes -/

def TokenKind.isPlain : TokenKind → Bool
  | .eof | .newline | .indent | .dedent | .stringLit | .charLit | .fString | .label | .comment =>
    false
  | _ => true

/-- A token that is read at a cursor, and the cursor behind it.  Its position is where the lexeme
begins, except for a label: that is where its name begins. -/
inductive Lexeme (inp : Input) (c : Cursor) : Token → Cursor → Prop
  | plain {d : Cursor} {kind : TokenKind} {textEnd : Nat} (plain : kind.isPlain = true)
      (moved : Reaches inp c d) (begun : c.position < textEnd) (le : textEnd ≤ d.position)
      (short : d.position - textEnd < 2 ^ 16) :
      Lexeme inp c (Token.withSuffix kind c c.position textEnd d.position) d
  | quoted {scanned : QuotedScan} {kind : TokenKind} {terminator : Char}
      (literal : (kind = .stringLit ∧ terminator = '"') ∨ (kind = .charLit ∧ terminator = '\''))
      (opened : c.currentChar inp = terminator)
      (ended : scanned.Ended inp terminator (c.advanceChar inp)) :
      Lexeme inp c (Token.of kind c (c.position + 1) scanned.textEnd) scanned.toCursor
  | fstring {scanned : QuotedScan} (letter : c.currentChar inp = 'f') (opened : c.peek inp 1 = '"')
      (ended : scanned.Ended inp '"' (c.advanceChars inp 2)) :
      Lexeme inp c (Token.of .fString c (c.position + 2) scanned.textEnd) scanned.toCursor
  | label {d : Cursor} (opened : c.currentChar inp = '\'')
      (moved : Reaches inp (c.advanceChar inp) d)
      (named : c.position + 1 < d.position) :
      Lexeme inp c (Token.of .label (c.advanceChar inp) (c.position + 1) d.position) d

theorem lt_of_newline {inp : Input} {c : Cursor} (newline : c.currentChar inp = '\n') :
    c.position < (c.advanceChar inp).position := by
  have more : c.position < inp.sourceLength := Input.lt_of_charAt_ne
    (by rw [show inp.charAt c.position = '\n' from newline]; decide)
  rw [advanceChar_position more]
  omega

/-! ## Moves -/

inductive Event where
  | token (token : Token)
  | comment (token : Token)
  | directive (first last : Nat)
  /-- A block was opened; its token is still to come. -/
  | opened

def directiveAt (inp : Input) (position : Nat) : Option Lexer.LineDirective :=
  match Lexer.directiveNumberStart inp position with
  | none => none
  | some numberStart =>
    let number := Lexer.runDirectiveNumber inp numberStart
    if number.index = numberStart then none else Lexer.directiveBehind inp number

/-- A directive goes on behind its `#`, up to the end of a line. -/
theorem directiveAt_next {inp : Input} {position : Nat} {directive : Lexer.LineDirective}
    (found : directiveAt inp position = some directive) :
    position < directive.next inp ∧ directive.next inp ≤ inp.sourceLength := by
  unfold directiveAt at found
  cases start : Lexer.directiveNumberStart inp position with
  | none => simp [start] at found
  | some numberStart =>
    have digits := @runDirectiveNumber_spec inp numberStart
    simp only [start] at found
    generalize Lexer.runDirectiveNumber inp numberStart = number at found digits
    have begun : position < numberStart := by
      simp only [Lexer.directiveNumberStart] at start
      split_ifs at start
      have first := @le_scanWhile inp isBlank (position + 1)
      have second := @le_scanWhile inp isBlank (Lexer.scanWhile inp isBlank (position + 1) + 4)
      have := Option.some.inj start
      omega
    split at found
    · exact absurd found (by simp)
    rename_i some_
    have within : number.index ≤ inp.sourceLength := by
      have := digits.2 (number.index - 1) (by omega) (by omega)
      omega
    simp only [Lexer.directiveBehind] at found
    split at found
    · exact absurd found (by simp)
    rw [← Option.some.inj found, Lexer.LineDirective.next]
    have file := @le_scanWhile inp isBlank number.index
    have fileLe := @scanWhile_le inp isBlank number.index within
    have line := @le_scanWhile inp (· != '\n') (Lexer.scanWhile inp isBlank number.index)
    have lineLe := @scanWhile_le inp (· != '\n') _ fileLe
    simp only
    split
    · rename_i more
      exact ⟨by omega, more.1⟩
    · exact ⟨by omega, lineLe⟩

def directiveTraps (inp : Input) (position : Nat) : Bool :=
  match Lexer.directiveNumberStart inp position with
  | none => false
  | some numberStart => (Lexer.runDirectiveNumber inp numberStart).trapped

namespace Lexer

def attempted (inp : Input) (lexer : Lexer) : Lexer :=
  { lexer with trapped := lexer.trapped || directiveTraps inp lexer.position }

def consumed (inp : Input) (lexer : Lexer) (directive : LineDirective) : Lexer :=
  let line := if inp.renumberOnDirective then directive.number else lexer.line + 1
  { lexer with
    position := directive.next inp
    line := line
    column := 1
    trapped := lexer.trapped || !fitsInt line
    filename := inp.view directive.fileStart directive.fileEnd
    atLineStart := true }

end Lexer

/-- The flag stands at the first column of a line, or where a line has ended. -/
def Lexer.LineStarted (inp : Input) (lexer : Lexer) : Prop :=
  lexer.atLineStart = true → lexer.column = 1 ∨ lexer.atLineEnd inp = true

inductive Trivium (inp : Input) : Lexer → List Event → Lexer → Prop
  | blank {lexer : Lexer} (more : lexer.position < inp.sourceLength)
      (blank : isBlank (lexer.currentChar inp) = true ∨ lexer.currentChar inp = '\n') :
      Trivium inp lexer [] (lexer.moveTo (lexer.toCursor.advanceChar inp))
  | lineStart {lexer : Lexer} (newline : lexer.currentChar inp = '\n') :
      Trivium inp lexer []
        { lexer.moveTo (lexer.toCursor.advanceChar inp) with atLineStart := true }
  | comment {lexer : Lexer} {d : Cursor} (moved : Reaches inp lexer.toCursor d)
      (begun : lexer.position < d.position) :
      Trivium inp lexer [.comment (Token.of .comment lexer.toCursor lexer.position d.position)]
        ((lexer.moveTo d).pushComment
          (Token.of .comment lexer.toCursor lexer.position d.position))
  | attempt {lexer : Lexer} (hash : lexer.currentChar inp = '#') (start : lexer.column = 1) :
      Trivium inp lexer [] (lexer.attempted inp)
  | directive {lexer : Lexer} {directive : Lexer.LineDirective}
      (hash : lexer.currentChar inp = '#') (start : lexer.column = 1)
      (found : directiveAt inp lexer.position = some directive) :
      Trivium inp lexer [.directive lexer.position (directive.next inp)]
        (lexer.consumed inp directive)

/-- A move.  The cursor moves only when no token is pending. -/
inductive Move (inp : Input) : Lexer → List Event → Lexer → Prop
  | trivium {lexer next : Lexer} {events : List Event} (idle : lexer.pendingTokens = [])
      (passed : Trivium inp lexer events next) : Move inp lexer events next
  | settle {lexer : Lexer} : Move inp lexer [] { lexer with atLineStart := false }
  | block {lexer : Lexer} (contexts : List GroupedBlockContext) (pending : Bool) :
      Move inp lexer []
        { lexer with groupedBlockContexts := contexts, pendingGroupedBlock := pending }
  | newline {lexer : Lexer} (idle : lexer.pendingTokens = [])
      (newline : lexer.currentChar inp = '\n') :
      Move inp lexer [.token (Token.of .newline lexer.toCursor lexer.position lexer.position)]
        { lexer.moveTo (lexer.toCursor.advanceChar inp) with atLineStart := true }
  | lexeme {lexer : Lexer} {token : Token} {d : Cursor} (idle : lexer.pendingTokens = [])
      (read : Lexeme inp lexer.toCursor token d) : Move inp lexer [.token token] (lexer.moveTo d)
  | openGroup {lexer : Lexer} {token : Token} {d : Cursor} (idle : lexer.pendingTokens = [])
      (read : Lexeme inp lexer.toCursor token d) :
      Move inp lexer [.token token]
        { lexer.moveTo d with
          groupDepth := lexer.groupDepth + 1
          trapped := d.trapped || !fitsInt (lexer.groupDepth + 1) }
  | closeGroup {lexer : Lexer} {token : Token} {d : Cursor} (idle : lexer.pendingTokens = [])
      (read : Lexeme inp lexer.toCursor token d) :
      Move inp lexer [.token token] { lexer.moveTo d with groupDepth := lexer.groupDepth - 1 }
  | raise {lexer : Lexer} {indent : Nat}
      (dedents : ∀ token ∈ lexer.pendingTokens, token.kind = .dedent)
      (more : lexer.position < inp.sourceLength) (higher : lexer.indentationTop < indent) :
      Move inp lexer [.opened] (lexer.raiseIndentation indent)
  | dedent {lexer : Lexer} (dedents : ∀ token ∈ lexer.pendingTokens, token.kind = .dedent)
      (block : lexer.indentationStack ≠ []) :
      Move inp lexer [] (lexer.popIndent.emitPendingToken .dedent)
  | deliver {lexer : Lexer} {token : Token} {rest : List Token}
      (pending : lexer.pendingTokens = token :: rest) :
      Move inp lexer [.token token] { lexer with pendingTokens := rest }
  | lastDedent {lexer : Lexer} (idle : lexer.pendingTokens = [])
      (last : inp.sourceLength ≤ lexer.position) (block : lexer.indentationStack ≠ []) :
      Move inp lexer [.token (Token.of .dedent lexer.toCursor lexer.position lexer.position)]
        lexer.popIndent
  | eof {lexer : Lexer} (idle : lexer.pendingTokens = []) (last : inp.sourceLength ≤ lexer.position)
      (closed : lexer.indentationStack = []) :
      Move inp lexer [.token (Token.of .eof lexer.toCursor lexer.position lexer.position)] lexer

inductive Moves (inp : Input) : Lexer → List Event → Lexer → Prop
  | refl (lexer : Lexer) : Moves inp lexer [] lexer
  | head {lexer next last : Lexer} {events rest : List Event} (move : Move inp lexer events next)
      (moves : Moves inp next rest last) : Moves inp lexer (events ++ rest) last

inductive Trivia (inp : Input) : Lexer → List Event → Lexer → Prop
  | refl (lexer : Lexer) : Trivia inp lexer [] lexer
  | head {lexer next last : Lexer} {events rest : List Event}
      (passed : Trivium inp lexer events next) (trivia : Trivia inp next rest last) :
      Trivia inp lexer (events ++ rest) last

variable {inp : Input} {lexer next last : Lexer} {events rest : List Event}

theorem Trivium.position_le (passed : Trivium inp lexer events next) :
    lexer.position ≤ next.position := by
  cases passed with
  | blank => exact position_le_advanceChar
  | lineStart => exact position_le_advanceChar
  | comment moved begun => exact Nat.le_of_lt begun
  | attempt => exact Nat.le_refl _
  | directive hash start found => exact Nat.le_of_lt (directiveAt_next found).1

theorem Trivia.position_le (trivia : Trivia inp lexer events next) :
    lexer.position ≤ next.position := by
  induction trivia with
  | refl => exact Nat.le_refl _
  | head passed trivia ih => exact Nat.le_trans passed.position_le ih

theorem Lexeme.moved {c d : Cursor} {token : Token} (read : Lexeme inp c token d) :
    Reaches inp c d := by
  cases read with
  | plain plain moved => exact moved
  | quoted literal opened ended => exact Reaches.advanceChar.trans ended.moved
  | fstring letter opened ended => exact (Reaches.advanceChars 2).trans ended.moved
  | label opened moved => exact Reaches.advanceChar.trans moved

theorem Lexeme.lt {c d : Cursor} {token : Token} (read : Lexeme inp c token d) :
    c.position < d.position := by
  have advanced : ∀ {character : Char}, c.currentChar inp = character → character ≠ nullChar →
      c.position < (c.advanceChar inp).position := by
    intro character at_ visible
    have := @Input.lt_of_charAt_ne inp c.position
      (by rw [show inp.charAt c.position = character from at_]; exact visible)
    rw [advanceChar_position this]
    omega
  cases read with
  | plain plain moved begun le => exact Nat.lt_of_lt_of_le begun le
  | quoted literal opened ended =>
    refine Nat.lt_of_lt_of_le (advanced opened ?_) ended.moved.position_le
    rcases literal with ⟨-, rfl⟩ | ⟨-, rfl⟩ <;> decide
  | fstring letter opened ended =>
    have second : Reaches inp (c.advanceChar inp) (c.advanceChars inp 2) := ⟨1, rfl⟩
    exact Nat.lt_of_lt_of_le (advanced letter (by decide))
      (second.trans ended.moved).position_le
  | label opened moved => exact Nat.lt_of_lt_of_le (advanced opened (by decide)) moved.position_le

theorem Move.position_le (move : Move inp lexer events next) : lexer.position ≤ next.position := by
  cases move with
  | trivium idle passed => exact passed.position_le
  | newline => exact position_le_advanceChar
  | lexeme idle read => exact Nat.le_of_lt read.lt
  | openGroup idle read => exact Nat.le_of_lt read.lt
  | closeGroup idle read => exact Nat.le_of_lt read.lt
  | _ => exact Nat.le_refl _

theorem Moves.position_le (moves : Moves inp lexer events next) :
    lexer.position ≤ next.position := by
  induction moves with
  | refl => exact Nat.le_refl _
  | head move moves ih => exact Nat.le_trans move.position_le ih

theorem Moves.of_move (move : Move inp lexer events next) : Moves inp lexer events next := by
  simpa using Moves.head move (.refl next)

theorem Moves.append (first : Moves inp lexer events next) (second : Moves inp next rest last) :
    Moves inp lexer (events ++ rest) last := by
  induction first with
  | refl => exact second
  | head move moves ih =>
    rw [List.append_assoc]
    exact .head move (ih second)

theorem Trivia.of_trivium (passed : Trivium inp lexer events next) :
    Trivia inp lexer events next := by
  simpa using Trivia.head passed (.refl next)

theorem Trivia.append (first : Trivia inp lexer events next) (second : Trivia inp next rest last) :
    Trivia inp lexer (events ++ rest) last := by
  induction first with
  | refl => exact second
  | head move moves ih =>
    rw [List.append_assoc]
    exact .head move (ih second)

theorem Trivium.pendingTokens_eq (passed : Trivium inp lexer events next) :
    next.pendingTokens = lexer.pendingTokens := by
  cases passed <;> rfl

theorem Trivia.pendingTokens_eq (trivia : Trivia inp lexer events next) :
    next.pendingTokens = lexer.pendingTokens := by
  induction trivia with
  | refl => rfl
  | head passed trivia ih => rw [ih, passed.pendingTokens_eq]

theorem Trivia.moves (trivia : Trivia inp lexer events next) (idle : lexer.pendingTokens = []) :
    Moves inp lexer events next := by
  induction trivia with
  | refl => exact .refl _
  | head passed trivia ih =>
    exact .head (.trivium idle passed) (ih (by rw [passed.pendingTokens_eq, idle]))

end Elisa.Lexer
