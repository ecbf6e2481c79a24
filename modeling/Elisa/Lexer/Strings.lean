import Elisa.Lexer.Identifiers

/-!
# Strings, characters and f-strings

A quoted literal ends at its terminator, in front of a newline, or at the end of the source
(`lexer_strings.elisa`, `lexer_quoted_input_policy.elisa`).  A backslash takes the next character of
the line with it.

An f-string is one token over the bytes between its quotes.  Its machine has three states: in `text`
the braces open an expression and doubled ones stand for themselves; in `expr` braces are counted;
in `innerString` a string inside an expression is passed.
-/

namespace Elisa.Lexer

open Elisa.Lib

/-! ## Quoted literals -/

inductive QuotedClass where
  | terminator | newline | escapeTerm | escape | other
  deriving DecidableEq

def LexerQuotedInputPolicy.classify (character terminator : Char)
    (atSourceEnd nextIsNewline : Bool) : QuotedClass :=
  if character = terminator then .terminator
  else if character = '\n' then .newline
  else if character = '\\' then
    if atSourceEnd || nextIsNewline then .escapeTerm else .escape
  else .other

def LexerQuotedInputPolicy.charPrefixIsLoopLabel
    (nextIsIdentifierStart closesCharacterLiteral : Bool) : Bool :=
  nextIsIdentifierStart && !closesCharacterLiteral

/-- What a scanner of literals carries: where the text ended, if it has ended. -/
structure QuotedScan extends Cursor where
  quotedTextEnd : Nat
  quotedDone : Bool
  deriving DecidableEq

section Quoted

variable (inp : Input) (terminator : Char)

/-- Whether a backslash at a position has no character to take with it. -/
def escapesNothing (position : Nat) : Bool :=
  inp.isEnd (position + 1) || inp.charAt (position + 1) == '\n'

def classifyQuotedInput (position : Nat) : QuotedClass :=
  LexerQuotedInputPolicy.classify (inp.charAt position) terminator (inp.isEnd (position + 1))
    (inp.charAt (position + 1) == '\n')

def QuotedScan.finish (s : QuotedScan) : QuotedScan :=
  { s with quotedTextEnd := s.position, quotedDone := true }

/-- A step in the body of a literal.  Once the text has ended, the machine breaks. -/
def quotedStep (s : QuotedScan) : Option QuotedScan :=
  if s.isEndOfSource inp ∨ s.quotedDone then none
  else
    match classifyQuotedInput inp terminator s.position with
    | .terminator => some { s.finish with toCursor := s.toCursor.advanceChar inp }
    | .newline => some s.finish
    | .escapeTerm =>
      some (QuotedScan.finish { s with toCursor := s.toCursor.advanceChar inp })
    | .escape => some { s with toCursor := s.toCursor.advanceChars inp 2 }
    | .other => some { s with toCursor := s.toCursor.advanceChar inp }

def QuotedScan.textEnd (s : QuotedScan) : Nat :=
  if s.quotedDone then s.quotedTextEnd else s.position

def runQuoted (c : Cursor) : QuotedScan :=
  runSteps (quotedStep inp terminator) (inp.stepsFrom c.position)
    { toCursor := c, quotedTextEnd := c.position, quotedDone := false }

def readQuoted (kind : TokenKind) (c : Cursor) : Token × Cursor :=
  let opened := c.advanceChar inp
  let scanned := runQuoted inp terminator opened
  (Token.of kind c opened.position scanned.textEnd, scanned.toCursor)

def readString (c : Cursor) : Token × Cursor := readQuoted inp '"' .stringLit c

end Quoted

/-! ## F-strings -/

inductive FStringClass where
  | quote | newline | escapeTerm | escape | lBrace | escapedLBrace | rBraceClose | rBraceNested
  | escapedRBraceClose | escapedRBraceNested | other
  deriving DecidableEq

inductive FStringState where
  | text | expr | innerString | done
  deriving DecidableEq

structure FStringScan extends QuotedScan where
  fstringDepth : Nat
  state : FStringState
  deriving DecidableEq

section FString

variable (inp : Input)

def classifyFStringInput (position depth : Nat) : FStringClass :=
  let character := inp.charAt position
  let next := inp.charAt (position + 1)
  if character = '"' then .quote
  else if character = '\n' then .newline
  else if character = '\\' then
    if escapesNothing inp position then .escapeTerm else .escape
  else if character = '{' then
    if next = '{' then .escapedLBrace else .lBrace
  else if character = '}' then
    if next = '}' then
      if depth ≤ 1 then .escapedRBraceClose else .escapedRBraceNested
    else if depth ≤ 1 then .rBraceClose else .rBraceNested
  else .other

namespace FStringScan

def take (s : FStringScan) (count depth : Nat) (state : FStringState) : FStringScan :=
  { s with toCursor := s.toCursor.advanceChars inp count, fstringDepth := depth, state := state }

def finish (s : FStringScan) (count : Nat) : FStringScan :=
  { s with
    toQuotedScan := { s.toQuotedScan.finish with toCursor := s.toCursor.advanceChars inp count }
    state := .done }

end FStringScan

def fstringStep (s : FStringScan) : Option FStringScan :=
  if s.isEndOfSource inp then none
  else
    match s.state, classifyFStringInput inp s.position s.fstringDepth with
    | .text, .quote => some (s.finish inp 1)
    | .text, .newline => some (s.finish inp 0)
    | .text, .escapeTerm => some ((s.take inp 1 s.fstringDepth .text).finish inp 0)
    | .text, .escape | .text, .escapedLBrace | .text, .escapedRBraceClose
    | .text, .escapedRBraceNested => some (s.take inp 2 s.fstringDepth .text)
    | .text, .lBrace => some (s.take inp 1 1 .expr)
    | .text, _ => some (s.take inp 1 s.fstringDepth .text)
    | .expr, .quote => some (s.take inp 1 s.fstringDepth .innerString)
    | .expr, .newline => some (s.finish inp 0)
    | .expr, .lBrace | .expr, .escapedLBrace => some (s.take inp 1 (s.fstringDepth + 1) .expr)
    | .expr, .rBraceClose | .expr, .escapedRBraceClose => some (s.take inp 1 0 .text)
    | .expr, .rBraceNested | .expr, .escapedRBraceNested =>
      some (s.take inp 1 (usizeSub s.fstringDepth 1) .expr)
    | .expr, _ => some (s.take inp 1 s.fstringDepth .expr)
    | .innerString, .quote | .innerString, .newline => some (s.take inp 1 s.fstringDepth .expr)
    | .innerString, .escapeTerm | .innerString, .escape =>
      some (s.take inp 2 s.fstringDepth .innerString)
    | .innerString, _ => some (s.take inp 1 s.fstringDepth .innerString)
    | .done, _ => none

def runFString (c : Cursor) : FStringScan :=
  runSteps (fstringStep inp) (inp.stepsFrom c.position)
    { toCursor := c, quotedTextEnd := c.position, quotedDone := false, fstringDepth := 0,
      state := .text }

def readFString (c : Cursor) : Token × Cursor :=
  let opened := (c.advanceChar inp).advanceChar inp
  let scanned := runFString inp opened
  (Token.of .fString c opened.position scanned.toQuotedScan.textEnd, scanned.toCursor)

end FString

end Elisa.Lexer
