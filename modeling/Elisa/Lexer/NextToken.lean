import Elisa.Lexer.State

/-!
# The lexer

`next_token` (`lexer_tokens.elisa`) runs a machine that mostly ends with a token; behind a comment,
or a newline that does not count, it calls itself again.  One such call is a pass (`Lexer.pass`).

At the start of a line the indentation is measured (`lexer_core.elisa`), behind comments and
directives, and the column opens or closes blocks.  Inside brackets lines do not count, unless a
grouped block is open there.  A newline does not count either if the line ends in `and` or `or`, or
if the next one goes on with an operator (`continuesPreviousLine`).  The tokens come out only if no
signed operation has trapped.
-/

namespace Elisa.Lexer

open Elisa.Lib

/-! ## Continued lines -/

section Continuation

variable (inp : Input)

/-- Whether the characters from an index on are the given ones. -/
def spellsAt : List Char → Nat → Bool
  | [], _ => true
  | character :: rest, index => inp.charAt index == character && spellsAt rest (index + 1)

/-- Whether a word stands at an index, with a space or a tab behind it. -/
def sourceWordAt (index : Nat) (word : List Char) : Bool :=
  if inp.sourceLength ≤ index + word.length then false
  else spellsAt inp word index && isBlank (inp.charAt (index + word.length))

def wordEndsAt (stop : Nat) (word : List Char) : Bool :=
  if stop < word.length then false
  else
    let start := stop - word.length
    spellsAt inp word start && (start == 0 || !isIdentifierChar (inp.charAt (start - 1)))

def lineStart : Nat → Nat
  | 0 => 0
  | stop + 1 => if inp.charAt stop = '\n' then stop + 1 else lineStart stop

structure QuoteTracker where
  quote : Option Char
  escaped : Bool
  deriving DecidableEq

def QuoteTracker.next (tracker : QuoteTracker) (scanned : Char) : QuoteTracker :=
  match tracker.quote with
  | some quote =>
    if tracker.escaped then { tracker with escaped := false }
    else if scanned = '\\' then { tracker with escaped := true }
    else if scanned = quote then { tracker with quote := none }
    else tracker
  | none =>
    if scanned = '"' ∨ scanned = '\'' then { tracker with quote := some scanned } else tracker

/-- The first `#` outside quotes among some characters, or their end. -/
def codeEnd (tracker : QuoteTracker) (scan : Nat) : Nat → Nat
  | 0 => scan
  | count + 1 =>
    if tracker.quote = none ∧ inp.charAt scan = '#' then scan
    else codeEnd (tracker.next (inp.charAt scan)) (scan + 1) count

def trimBlanks (start : Nat) : Nat → Nat
  | 0 => 0
  | stop + 1 =>
    if start < stop + 1 ∧ isBlank (inp.charAt stop) then trimBlanks start stop else stop + 1

def lineEndsWithBoolean (newlineAt : Nat) : Bool :=
  let start := lineStart inp newlineAt
  let code := codeEnd inp { quote := none, escaped := false } start (newlineAt - start)
  let stop := trimBlanks inp start code
  wordEndsAt inp stop ['a', 'n', 'd'] || wordEndsAt inp stop ['o', 'r']

def indentStep (s : Cursor × Nat) : Option (Cursor × Nat) :=
  if s.1.isEndOfSource inp then none
  else if s.1.currentChar inp = ' ' then some (s.1.advanceChar inp, s.2 + 1)
  else if s.1.currentChar inp = '\t' then some (s.1.advanceChar inp, s.2 + 4)
  else none

def measureIndent (c : Cursor) : Cursor × Nat :=
  runSteps (indentStep inp) (inp.remaining c.position) (c, 0)

def blanksAt (index : Nat) : Nat × Nat :=
  runSteps (fun s : Nat × Nat =>
      if s.1 < inp.sourceLength ∧ isBlank (inp.charAt s.1) then
        some (s.1 + 1, s.2 + if inp.charAt s.1 = '\t' then 4 else 1)
      else none)
    (inp.remaining index) (index, 0)

/-- Whether the line at the cursor goes on with the one that ended at a newline. -/
def continuesPreviousLine (lexer : Lexer) (newlineAt : Nat) : Bool :=
  lineEndsWithBoolean inp newlineAt ||
    let (index, indent) := blanksAt inp lexer.position
    if indent = 0 ∨ indent < lexer.indentationTop then false
    else
      [['a', 'n', 'd'], ['o', 'r'], ['=', '='], ['!', '='], ['<', '='], ['>', '='], ['<'],
        ['>']].any (sourceWordAt inp index)

end Continuation

namespace Lexer

variable (inp : Input)

/-! ## Indentation -/

def consumeHashCommentTrivia (atColumnZero : Bool) (lexer : Lexer) : Lexer :=
  let (consumed, lexer) :=
    if atColumnZero then tryConsumeLineDirective inp lexer else (false, lexer)
  if consumed then lexer
  else
    let lexer := lexer.skipLineComment inp
    lexer.moveTo (skipBlankLines inp lexer.toCursor)

def atLineEnd (lexer : Lexer) : Bool :=
  lexer.isEndOfSource inp || lexer.currentChar inp == '\n'

def consumeIndentationTrivia (indent : Nat) (lexer : Lexer) : Bool × Lexer :=
  if lexer.atLineEnd inp then (false, lexer)
  else if lexer.currentChar inp = '#' then
    (true, lexer.consumeHashCommentTrivia inp (indent == 0))
  else if ¬ isBlockCommentStart inp lexer.toCursor then (false, lexer)
  else
    let lexer := lexer.skipBlockComment inp
    let lexer := lexer.moveTo (skipSpaces inp lexer.toCursor)
    if lexer.atLineEnd inp then (true, lexer.moveTo (skipBlankLines inp lexer.toCursor))
    else (false, lexer)

def raiseIndentation (indent : Nat) (lexer : Lexer) : Lexer :=
  (lexer.pushIndent indent).emitPendingToken .indent

def dedentStep (indent : Nat) (lexer : Lexer) : Option Lexer :=
  if lexer.indentationStack ≠ [] ∧ indent < lexer.indentationTop then
    some (lexer.popIndent.emitPendingToken .dedent)
  else none

def applyIndentationLevel (indent : Nat) (lexer : Lexer) : Lexer :=
  if lexer.indentationTop < indent then lexer.raiseIndentation indent
  else if lexer.indentationTop ≤ indent then lexer
  else
    let lexer := runSteps (dedentStep indent) lexer.indentationStack.length lexer
    if lexer.indentationTop < indent then lexer.raiseIndentation indent else lexer

/-- How far an indentation has been looked at: its trivia, or what comes behind them. -/
inductive IndentState where
  | check | settled | lineEnd
  deriving DecidableEq

structure IndentScan where
  lexer : Lexer
  indent : Nat
  state : IndentState

def measured (lexer : Lexer) : IndentScan :=
  let (c, indent) := measureIndent inp lexer.toCursor
  { lexer := lexer.moveTo c, indent, state := .check }

def handleIndentationStep (s : IndentScan) : Option IndentScan :=
  if s.state ≠ .check then none
  else if s.lexer.atLineEnd inp then some { s with state := .lineEnd }
  else
    let (consumed, lexer) := s.lexer.consumeIndentationTrivia inp s.indent
    if consumed then some (lexer.measured inp) else some { s with lexer, state := .settled }

/-- A line that ends behind its indentation and trivia leaves the blocks as they are. -/
def handleIndentation (lexer : Lexer) : Lexer :=
  let s := runSteps (handleIndentationStep inp) (inp.remaining lexer.position + 1)
    (lexer.measured inp)
  if s.state = .settled then
    ({ s.lexer with atLineStart := false }).applyIndentationLevel s.indent
  else s.lexer

/-! ## Tokens -/

def readIdentifier (lexer : Lexer) : Token × Lexer :=
  let last := scanIdentifier inp lexer.toCursor
  let text := inp.view lexer.position last.position
  let kind := frontendLookupKeyword text
  (Token.of kind lexer.toCursor lexer.position last.position,
    { lexer.moveTo last with
      pendingGroupedBlock := decide (kind = .ident) && decide (text = ascii "do") })

/-- A quote before a name that is not closed two characters on starts a label. -/
def readChar (lexer : Lexer) : Token × Lexer :=
  let nextIsIdentifierStart := isIdentifierStart (lexer.peek inp 1)
  let closesCharacterLiteral := nextIsIdentifierStart && lexer.peek inp 2 == '\''
  if LexerQuotedInputPolicy.charPrefixIsLoopLabel nextIsIdentifierStart closesCharacterLiteral then
    let (token, lexer) := (lexer.moveTo (lexer.toCursor.advanceChar inp)).readIdentifier inp
    ({ token with kind := .label }, { lexer with pendingGroupedBlock := false })
  else
    let (token, c) := readQuoted inp '\'' .charLit lexer.toCursor
    (token, lexer.moveTo c)

def tokenTo (lexer : Lexer) (kind : TokenKind) (c : Cursor) : Token × Lexer :=
  (Token.of kind lexer.toCursor lexer.position c.position, lexer.moveTo c)

/-- A `=` behind an operator makes another operator of it. -/
def eqSuffixToken (lexer : Lexer) (withEq withoutEq : TokenKind) (c : Cursor) : Token × Lexer :=
  let (matched, c) := c.matchChar inp '='
  lexer.tokenTo (if matched then withEq else withoutEq) c

/-- A `>` behind an operator makes an arrow of it. -/
def arrowOrEqToken (lexer : Lexer) (arrow withEq withoutEq : TokenKind) (c : Cursor) :
    Token × Lexer :=
  let (matched, c) := c.matchChar inp '>'
  if matched then lexer.tokenTo arrow c else lexer.eqSuffixToken inp withEq withoutEq c

def openGroup (lexer : Lexer) (kind : TokenKind) (c : Cursor) : Token × Lexer :=
  let (token, lexer) := lexer.tokenTo kind c
  (token,
    { lexer with
      groupDepth := lexer.groupDepth + 1
      trapped := lexer.trapped || !fitsInt (lexer.groupDepth + 1)
      pendingGroupedBlock := false })

def closeGroup (lexer : Lexer) (kind : TokenKind) (c : Cursor) : Token × Lexer :=
  let (token, lexer) := lexer.tokenTo kind c
  (token,
    { lexer with
      groupDepth := if 0 < lexer.groupDepth then lexer.groupDepth - 1 else lexer.groupDepth
      pendingGroupedBlock := false })

def dotToken (lexer : Lexer) (c : Cursor) : Token × Lexer :=
  if c.currentChar inp ≠ '.' then lexer.tokenTo .dot c
  else
    let isEllipsis := c.peek inp 1 == '.'
    let c := c.advanceChar inp
    if isEllipsis then lexer.tokenTo .ellipsis (c.advanceChar inp)
    else
      let (lt, c) := c.matchChar inp '<'
      if lt then lexer.tokenTo .rangeLt c
      else
        let (gt, c) := c.matchChar inp '>'
        if gt then lexer.tokenTo .rangeGt c else lexer.eqSuffixToken inp .rangeLe .range c

/-- A colon behind `do` opens a grouped block if it stands in brackets. -/
def colonToken (lexer : Lexer) (c : Cursor) : Token × Lexer :=
  let (second, c) := c.matchChar inp ':'
  let (token, moved) := lexer.tokenTo (if second then .scope else .colon) c
  let contexts :=
    if ¬ second ∧ lexer.pendingGroupedBlock ∧ 0 < lexer.groupDepth then
      { groupDepth := lexer.groupDepth, baseIndent := lexer.indentationTop } ::
        lexer.groupedBlockContexts
    else lexer.groupedBlockContexts
  (token, { moved with groupedBlockContexts := contexts, pendingGroupedBlock := false })

def readOperatorToken (lexer : Lexer) : Token × Lexer :=
  let c := lexer.toCursor.advanceChar inp
  match lexer.currentChar inp with
  | '<' =>
    let (dash, c) := c.matchChar inp '-'
    if dash then lexer.tokenTo .lArrow c
    else
      let (second, c) := c.matchChar inp '<'
      lexer.eqSuffixToken inp (if second then .lShiftEq else .ltEq)
        (if second then .lShift else .lt) c
  | '>' =>
    let (second, c) := c.matchChar inp '>'
    lexer.eqSuffixToken inp (if second then .rShiftEq else .gtEq)
      (if second then .rShift else .gt) c
  | '=' => lexer.arrowOrEqToken inp .fatArrow .eqEq .assign c
  | '!' => lexer.eqSuffixToken inp .bangEq .bang c
  | '+' => lexer.eqSuffixToken inp .plusEq .plus c
  | '-' => lexer.arrowOrEqToken inp .arrow .minusEq .minus c
  | '*' => lexer.eqSuffixToken inp .starEq .star c
  | '/' => lexer.eqSuffixToken inp .slashEq .slash c
  | '%' => lexer.eqSuffixToken inp .percentEq .percent c
  | '^' => lexer.eqSuffixToken inp .caretEq .caret c
  | '|' => lexer.arrowOrEqToken inp .pipeGt .pipeEq .pipe c
  | '&' => lexer.eqSuffixToken inp .ampEq .ampersand c
  | '.' => lexer.dotToken inp c
  | ':' => lexer.colonToken inp c
  | ',' => lexer.tokenTo .comma c
  | ';' => lexer.tokenTo .semicolon c
  | '(' => lexer.openGroup .lParen c
  | ')' => lexer.closeGroup .rParen c
  | '[' => lexer.openGroup .lBracket c
  | ']' => lexer.closeGroup .rBracket c
  | '{' => lexer.openGroup .lBrace c
  | '}' => lexer.closeGroup .rBrace c
  | '?' => lexer.eqSuffixToken inp .qAssign .question c
  | '~' => lexer.tokenTo .tilde c
  | '@' => lexer.tokenTo .at c
  | _ => lexer.tokenTo .ident c

/-! ## A pass -/

def readWith (lexer : Lexer) (read : Cursor → Token × Cursor) : Token × Lexer :=
  let (token, c) := read lexer.toCursor
  (token, lexer.moveTo c)

/-- What a pass ends with: a token, or nothing where `next_token` calls itself. -/
abbrev Passed := Option Token × Lexer

def deliver (read : Token × Lexer) : Passed := (some read.1, read.2)

def newline (lexer : Lexer) : Passed :=
  let newlineAt := lexer.position
  let token := Token.of .newline lexer.toCursor lexer.position lexer.position
  let lexer := { lexer.moveTo (lexer.toCursor.advanceChar inp) with atLineStart := true }
  if continuesPreviousLine inp lexer newlineAt then
    (none, { lexer.moveTo (skipSpaces inp lexer.toCursor) with atLineStart := false })
  else
    let lexer := lexer.moveTo (skipBlankLines inp lexer.toCursor)
    if 0 < lexer.groupDepth ∧ ¬ lexer.activeGroupedBlockContext then (none, lexer)
    else (some token, lexer)

def dispatch (lexer : Lexer) : Passed :=
  let character := lexer.currentChar inp
  if isDigit character ∨ (character = '.' ∧ isDigit (lexer.peek inp 1)) then
    deliver (lexer.readWith (readNumber inp))
  else if character = '\n' then lexer.newline inp
  else if character = '#' then (none, lexer.skipLineComment inp)
  else if character = '"' then
    if isBlockCommentStart inp lexer.toCursor then (none, lexer.skipBlockComment inp)
    else deliver (lexer.readWith (readString inp))
  else if character = '\'' then deliver (lexer.readChar inp)
  else if character = 'f' ∧ lexer.peek inp 1 = '"' then
    deliver (lexer.readWith (readFString inp))
  else if isIdentifierStart character ∨ startsUnicodeIdentifier inp lexer.position then
    deliver (lexer.readIdentifier inp)
  else deliver (lexer.readOperatorToken inp)

def scan (lexer : Lexer) : Passed :=
  let lexer := lexer.moveTo (skipSpaces inp lexer.toCursor)
  if lexer.isEndOfSource inp then
    if lexer.indentationStack ≠ [] then deliver (lexer.popIndent.tokenTo .dedent lexer.toCursor)
    else deliver (lexer.tokenTo .eof lexer.toCursor)
  else if lexer.pendingGroupedBlock ∧ lexer.currentChar inp ≠ ':' then
    ({ lexer with pendingGroupedBlock := false }).dispatch inp
  else lexer.dispatch inp

def pendingOr (lexer : Lexer) (next : Lexer → Passed) : Passed :=
  match lexer.pendingTokens with
  | token :: rest => (some token, { lexer with pendingTokens := rest })
  | [] => next lexer

def lineStarted (lexer : Lexer) : Passed :=
  if lexer.groupDepth = 0 ∨ lexer.activeGroupedBlockContext then
    (lexer.handleIndentation inp).trimFinishedGroupedBlockContexts.pendingOr (scan inp)
  else lexer.scan inp

def pass (lexer : Lexer) : Passed :=
  lexer.pendingOr fun lexer =>
    let lexer := lexer.consumeLineDirectivesAtLineStart inp
    if lexer.atLineStart then ({ lexer with atLineStart := false }).lineStarted inp
    else lexer.scan inp

def nextTokenStep : Passed → Option Passed
  | (some _, _) => none
  | (none, lexer) => some (lexer.pass inp)

def nextToken (lexer : Lexer) : Passed :=
  runSteps (nextTokenStep inp) (inp.remaining lexer.position + 1) (none, lexer)

end Lexer

/-! ## Tokenizing -/

def Lexer.new (filename : Bytes) : Lexer where
  position := 0
  line := 1
  column := 1
  trapped := false
  filename
  indentationStack := []
  pendingTokens := []
  comments := []
  groupedBlockContexts := []
  groupDepth := 0
  atLineStart := true
  pendingGroupedBlock := false

/-- A lexer and the tokens it has delivered. -/
structure Tokenizing where
  lexer : Lexer
  tokens : List Token
  deriving DecidableEq

def Tokenizing.finished (s : Tokenizing) : Bool := s.tokens.any fun token => token.kind == .eof

section Tokenize

variable (inp : Input)

def tokenizeStep (s : Tokenizing) : Option Tokenizing :=
  if s.finished then none
  else
    match s.lexer.nextToken inp with
    | (some token, lexer) => some { lexer, tokens := s.tokens ++ [token] }
    | (none, _) => none

/-- More tokens than a unit can have. -/
def Input.tokenLimit (position : Nat) : Nat := 4 * inp.remaining position + 4

def tokenizeFrom (lexer : Lexer) : Tokenizing :=
  runSteps (tokenizeStep inp) (inp.tokenLimit lexer.position) { lexer, tokens := [] }

def Tokenizing.result (s : Tokenizing) : Option Tokenizing :=
  if s.lexer.trapped then none else some s

end Tokenize

def frontendTokenizeWithLength (filename source : Bytes) (sourceLength : Nat) :
    Option (List Token) :=
  (tokenizeFrom ⟨source, sourceLength, true⟩ (Lexer.new filename)).result.map (·.tokens)

def frontendTokenizeExpandedUnit (filename source : Bytes) (sourceLength : Nat) :
    Option (List Token) :=
  (tokenizeFrom ⟨source, sourceLength, false⟩ (Lexer.new filename)).result.map (·.tokens)

structure FrontendTokenBatch where
  tokens : List Token
  comments : List Token
  deriving DecidableEq

def frontendTokenizeExpandedUnitWithComments (filename source : Bytes) (sourceLength : Nat) :
    Option FrontendTokenBatch :=
  (tokenizeFrom ⟨source, sourceLength, false⟩ (Lexer.new filename)).result.map fun s =>
    { tokens := s.tokens, comments := s.lexer.comments }

def frontendTokenizeSpan (filename source : Bytes) (sourceLength start stop : Nat) :
    Option (List Token) :=
  if stop < start ∨ sourceLength < stop then some []
  else
    (tokenizeFrom ⟨source, stop, true⟩ { Lexer.new filename with position := start }).result.map
      (·.tokens)

/-- Lexer-produced streams end in an `eof` token at the exact input extent. -/
def tokenStreamSourceLength (tokens : List Token) : Nat :=
  match tokens.getLast? with
  | none => 0
  | some last => if last.kind = .eof then last.start else 0

end Elisa.Lexer
