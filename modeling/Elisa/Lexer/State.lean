import Elisa.Lexer.Numbers
import Elisa.Lexer.Strings

/-!
# The lexer's state

Besides the cursor, the lexer carries the stack of indentations, the layout tokens it still has to
deliver, the comments it passed, and what it knows of brackets (`tokens.elisa`).  The stacks have
their top in front.
-/

namespace Elisa.Lexer

open Elisa.Lib

/-- A grouped block: the depth of brackets and the indentation at which it began. -/
structure GroupedBlockContext where
  groupDepth : Nat
  baseIndent : Nat
  deriving DecidableEq

structure Lexer extends Cursor where
  filename : Bytes
  indentationStack : List Nat
  pendingTokens : List Token
  comments : List Token
  groupedBlockContexts : List GroupedBlockContext
  groupDepth : Nat
  atLineStart : Bool
  pendingGroupedBlock : Bool
  deriving DecidableEq

namespace Lexer

variable (inp : Input)

def moveTo (lexer : Lexer) (c : Cursor) : Lexer := { lexer with toCursor := c }

def indentationTop (lexer : Lexer) : Nat := lexer.indentationStack.headD 0

def pushPending (lexer : Lexer) (token : Token) : Lexer :=
  { lexer with pendingTokens := lexer.pendingTokens ++ [token] }

def emitPendingToken (lexer : Lexer) (kind : TokenKind) : Lexer :=
  lexer.pushPending (Token.of kind lexer.toCursor lexer.position lexer.position)

def pushComment (lexer : Lexer) (token : Token) : Lexer :=
  { lexer with comments := lexer.comments ++ [token] }

def activeGroupedBlockContext (lexer : Lexer) : Bool :=
  match lexer.groupedBlockContexts with
  | [] => false
  | context :: _ => decide (context.groupDepth ≤ lexer.groupDepth)

def trimFinishedGroupedBlockContexts (lexer : Lexer) : Lexer :=
  { lexer with
    groupedBlockContexts := lexer.groupedBlockContexts.dropWhile fun context =>
      decide (lexer.indentationTop ≤ context.baseIndent) }

def pushIndent (lexer : Lexer) (value : Nat) : Lexer :=
  { lexer with indentationStack := value :: lexer.indentationStack }

def popIndent (lexer : Lexer) : Lexer :=
  { lexer with indentationStack := lexer.indentationStack.tail }

/-! ## Spaces and comments -/

def spacesStep (c : Cursor) : Option Cursor :=
  if c.isEndOfSource inp then none
  else if isBlank (c.currentChar inp) then some (c.skip 1)
  else none

def skipSpaces (c : Cursor) : Cursor := runSteps (spacesStep inp) (inp.remaining c.position) c

def blankLinesStep (c : Cursor) : Option Cursor :=
  if c.isEndOfSource inp then none
  else if c.currentChar inp = '\n' then some (c.advanceChar inp)
  else none

def skipBlankLines (c : Cursor) : Cursor :=
  runSteps (blankLinesStep inp) (inp.remaining c.position) c

def afterOne (position : Nat) : Nat :=
  if position < inp.sourceLength then position + 1 else position

def lineCommentStep (c : Cursor) : Option Cursor :=
  if c.isEndOfSource inp then none
  else if c.currentChar inp = '\n' then none
  else some { c.bumpColumn 1 with position := afterOne inp c.position }

def runLineComment (c : Cursor) : Cursor :=
  runSteps (lineCommentStep inp) (inp.remaining c.position) c

def skipLineComment (lexer : Lexer) : Lexer :=
  let last := runLineComment inp lexer.toCursor
  (lexer.moveTo last).pushComment (Token.of .comment lexer.toCursor lexer.position last.position)

def isBlockCommentStart (c : Cursor) : Bool :=
  c.currentChar inp == '"' && c.peek inp 1 == '"' && c.peek inp 2 == '"'

def afterThree (c : Cursor) : Cursor :=
  { c.bumpColumn 3 with position := (afterOne inp)^[3] c.position }

def blockCommentStep (s : Cursor × Bool) : Option (Cursor × Bool) :=
  if s.1.isEndOfSource inp ∨ s.2 then none
  else if isBlockCommentStart inp s.1 then some (afterThree inp s.1, true)
  else some (s.1.advanceChar inp, false)

def runBlockComment (c : Cursor) : Cursor × Bool :=
  runSteps (blockCommentStep inp) (inp.stepsFrom c.position) (c, false)

/-- A block comment is recorded whether it is closed or runs to the end. -/
def skipBlockComment (lexer : Lexer) : Lexer :=
  let last := (runBlockComment inp (afterThree inp lexer.toCursor)).1
  (lexer.moveTo last).pushComment (Token.of .comment lexer.toCursor lexer.position last.position)

/-! ## Line directives -/

def scanWhile (kind : Char → Bool) (index : Nat) : Nat :=
  runSteps (fun index =>
      if index < inp.sourceLength ∧ kind (inp.charAt index) then some (index + 1) else none)
    (inp.remaining index) index

def LexerDirectiveDigit.decimalDigitValue (character : Char) : Nat :=
  if 48 ≤ character.toNat ∧ character.toNat ≤ 57 then character.toNat - 48 else 0

structure DirectiveNumber where
  index : Nat
  value : Nat
  trapped : Bool

def directiveNumberStep (s : DirectiveNumber) : Option DirectiveNumber :=
  if s.index < inp.sourceLength ∧ isDigit (inp.charAt s.index) then
    let value := s.value * 10 + LexerDirectiveDigit.decimalDigitValue (inp.charAt s.index)
    some { index := s.index + 1, value, trapped := s.trapped || !fitsInt value }
  else none

def runDirectiveNumber (index : Nat) : DirectiveNumber :=
  runSteps (directiveNumberStep inp) (inp.remaining index) { index, value := 0, trapped := false }

def trimFilename (fileStart fileEnd : Nat) : Nat :=
  runSteps (fun stop =>
      if fileStart < stop ∧ (isBlank (inp.charAt (stop - 1)) ∨ inp.charAt (stop - 1) = '\r') then
        some (stop - 1)
      else none)
    (fileEnd - fileStart) fileEnd

def directiveNumberStart (position : Nat) : Option Nat :=
  let scanIndex := scanWhile inp isBlank (position + 1)
  if inp.charAt scanIndex ≠ 'l' ∨ inp.charAt (scanIndex + 1) ≠ 'i' ∨
      inp.charAt (scanIndex + 2) ≠ 'n' ∨ inp.charAt (scanIndex + 3) ≠ 'e' then none
  else if isBlank (inp.charAt (scanIndex + 4)) then some (scanWhile inp isBlank (scanIndex + 4))
  else none

/-- A directive `#line NUMBER FILE`: its number, and where the name of its file and the line
end. -/
structure LineDirective where
  number : Nat
  fileStart : Nat
  fileEnd : Nat
  lineEnd : Nat
  deriving DecidableEq

def directiveBehind (number : DirectiveNumber) : Option LineDirective :=
  let fileStart := scanWhile inp isBlank number.index
  let lineEnd := scanWhile inp (· != '\n') fileStart
  let fileEnd := trimFilename inp fileStart lineEnd
  if fileEnd = fileStart then none
  else some { number := number.value, fileStart, fileEnd, lineEnd }

def LineDirective.next (directive : LineDirective) : Nat :=
  if directive.lineEnd < inp.sourceLength ∧ inp.charAt directive.lineEnd = '\n' then
    directive.lineEnd + 1
  else directive.lineEnd

/-- What the number of a directive traps on counts even where no directive comes of it. -/
def tryConsumeLineDirective (lexer : Lexer) : Bool × Lexer :=
  match directiveNumberStart inp lexer.position with
  | none => (false, lexer)
  | some numberStart =>
    let number := runDirectiveNumber inp numberStart
    let lexer := { lexer with trapped := lexer.trapped || number.trapped }
    if number.index = numberStart then (false, lexer)
    else
      match directiveBehind inp number with
      | none => (false, lexer)
      | some directive =>
        let line := if inp.renumberOnDirective then directive.number else lexer.line + 1
        (true,
          { lexer with
            position := directive.next inp
            line := line
            column := 1
            trapped := lexer.trapped || !fitsInt line
            filename := inp.view directive.fileStart directive.fileEnd
            atLineStart := true })

def directivesStep (s : Lexer × Bool) : Option (Lexer × Bool) :=
  if s.2 ∨ ¬ s.1.atLineStart ∨ s.1.isEndOfSource inp ∨ s.1.currentChar inp ≠ '#' then none
  else
    let (consumed, lexer) := tryConsumeLineDirective inp s.1
    some (lexer, !consumed)

def consumeLineDirectivesAtLineStart (lexer : Lexer) : Lexer :=
  (runSteps (directivesStep inp) (inp.remaining lexer.position + 1) (lexer, false)).1

end Lexer

end Elisa.Lexer
