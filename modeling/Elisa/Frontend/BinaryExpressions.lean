import Mathlib.Data.List.Basic

/-!
# Binary expressions

The operator levels of the expression parser: the table of binding powers, one binary continuation
(`binaryExpressionStep`), the loop over a level (`binaryExpressionAtLevel`) and the prefix operators
below it (`unaryExpression`).

The levels under these are modelled for operands of one token: what the parser does at a bracket, a
keyword, a contextual word or a suffix is the parameter `Forms`.  A parser state holds the tokens
from the cursor on and the kind of the one before it.
-/

namespace Elisa.Frontend

/-! ## Tokens and expressions -/

inductive TokenKind where
  | eof | newline | dedent | ident | intLit | floatLit | hexLit | stringLit | charLit | fString
  | true | false | null | zeroed | new | sizeof | alignof | offsetof | panic | raise | error
  | not | and | or | as | in_ | is | colon | scope | arrow | dot | comma
  | range | rangeLt | rangeGt | rangeLe
  | lParen | rParen | lBracket | rBracket | lBrace | rBrace
  | ampersand | question | bang | tilde | plus | minus | star | slash | percent | pipe | caret
  | lShift | rShift | eqEq | bangEq | lt | gt | ltEq | gtEq | assign
  | mutable | lmut | static | heap | stack | tail | owned
  | other
deriving DecidableEq

structure Token where
  kind : TokenKind
  text : String
deriving DecidableEq

/-- Expressions.  `other` is a form of another part of the parser. -/
inductive Expr where
  | ident (name : String)
  | intLit (text : String)
  | floatLit (text : String)
  | charLit (text : String)
  | stringLit (text : String)
  | boolLit (value : Bool)
  | field (object : Expr) (name : String)
  | unary (operator : TokenKind) (operand : Expr)
  | binary (left : Expr) (operator : TokenKind) (right : Expr)
  | other (text : String)
deriving DecidableEq

inductive ParseErrorKind where
  | unexpectedToken
  | removed
deriving DecidableEq

/-- A parse error: its kind, its text and the kind of the token it stands at. -/
structure ParseError where
  kind : ParseErrorKind
  context : String
  gotKind : TokenKind
deriving DecidableEq

structure EnumAnnotation where
  owner : String
  name : String
deriving DecidableEq

structure Parser where
  tokens : List Token
  previous : Option TokenKind
  suppressPipe : Bool
  suppressArrow : Bool
  suppressAsPattern : Bool
  inTypeAnnotation : Bool
  errors : List ParseError
  enumAnnotations : List EnumAnnotation
deriving DecidableEq

namespace Parser

def cursor (parser : Parser) : Token := parser.tokens.headD ⟨.eof, ""⟩

def peek (parser : Parser) : TokenKind := parser.cursor.kind

def peekAt (parser : Parser) (offset : Nat) : TokenKind :=
  (parser.tokens.getD offset ⟨.eof, ""⟩).kind

def prevIsDedent (parser : Parser) : Bool := parser.previous == some .dedent

def advance (parser : Parser) : Parser :=
  match parser.tokens with
  | [] => parser
  | token :: rest => { parser with tokens := rest, previous := some token.kind }

def errorAt (parser : Parser) (kind : ParseErrorKind) (token : Token) : Parser :=
  { parser with errors := parser.errors ++ [⟨kind, token.text, token.kind⟩] }

def errorRemoved (parser : Parser) (token : Token) (message : String) : Parser :=
  { parser with errors := parser.errors ++ [⟨.removed, message, token.kind⟩] }

end Parser

/-! ## The table of binding powers -/

def arrowOr : Nat := 1
def andPower : Nat := 2
def comparison : Nat := 3
def rangePower : Nat := 4
def bitwiseOr : Nat := 5
def bitwiseXor : Nat := 6
def bitwiseAnd : Nat := 7
def shift : Nat := 8
def additive : Nat := 9
def multiplicative : Nat := 10

def precedence : TokenKind → Nat
  | .arrow | .or => arrowOr
  | .and => andPower
  | .eqEq | .bangEq | .lt | .gt | .ltEq | .gtEq | .in_ | .is | .as => comparison
  | .range | .rangeLt | .rangeGt | .rangeLe => rangePower
  | .pipe => bitwiseOr
  | .caret => bitwiseXor
  | .ampersand => bitwiseAnd
  | .lShift | .rShift => shift
  | .plus | .minus => additive
  | .star | .slash | .percent => multiplicative
  | _ => 0

/-! ## Lookahead -/

def tokenStartsValue : TokenKind → Bool
  | .ident | .intLit | .floatLit | .hexLit | .stringLit | .charLit => Bool.true
  | .true | .false | .null | .zeroed | .new => Bool.true
  | .lParen | .lBracket | .lBrace => Bool.true
  | .sizeof | .alignof | .offsetof | .panic | .raise => Bool.true
  | .not | .bang | .tilde | .minus | .plus | .ampersand => Bool.true
  | _ => Bool.false

def isOpener (kind : TokenKind) : Bool := kind == .lParen || kind == .lBracket || kind == .lBrace

def isCloser (kind : TokenKind) : Bool := kind == .rParen || kind == .rBracket || kind == .rBrace

/-- The scan of a header for its closing pipe, at a bracket depth. -/
def captureHeaderScan : Nat → List Token → Bool
  | _, [] => Bool.false
  | depth, token :: rest =>
    if token.kind == .eof then Bool.false
    else
      let opened := if isOpener token.kind then depth + 1 else depth
      if isCloser token.kind && opened == 0 then Bool.false
      else
        let depth := if isCloser token.kind then opened - 1 else opened
        if depth == 0 && token.kind == .pipe then
          let next := (rest.headD ⟨.eof, ""⟩).kind
          next == .colon || next == .arrow
        else if depth == 0 && token.kind == .newline then Bool.false
        else captureHeaderScan depth rest

namespace Parser

/-- Whether the pipe at the cursor opens a `|item,…|` header: its closing pipe stands
before a `:` or a `->`. -/
def captureHeaderAhead (parser : Parser) : Bool :=
  if parser.peek != .pipe || parser.peekAt 1 != .ident then Bool.false
  else captureHeaderScan 0 (parser.tokens.drop 1)

def loopHeaderAt (parser : Parser) : Bool :=
  if parser.peek != .pipe then Bool.false
  else if parser.peekAt 1 == .ident && parser.peekAt 2 == .assign then Bool.true
  else parser.captureHeaderAhead

end Parser

def nodeAllocScan : Int → List Token → Bool
  | _, [] => Bool.false
  | depth, token :: rest =>
    if token.kind == .eof || token.kind == .newline then Bool.false
    else
      let depth := if token.kind == .lBracket then depth + 1 else depth
      let depth := if token.kind == .rBracket then depth - 1 else depth
      if token.kind == .rBracket && depth == 0 then (rest.headD ⟨.eof, ""⟩).kind == .ident
      else nodeAllocScan depth rest

namespace Parser

def nodeAllocAhead (parser : Parser) : Bool :=
  if parser.peekAt 1 == .ident then Bool.true
  else if parser.peekAt 1 != .lBracket then Bool.false
  else nodeAllocScan 0 (parser.tokens.drop 1)

def ownedQualifierAhead (parser : Parser) : Bool :=
  if parser.peek != .ident then Bool.false
  else if parser.cursor.text != "owned" then Bool.false
  else parser.peekAt 1 == .ident || parser.peekAt 1 == .mutable || parser.peekAt 1 == .tail ||
    parser.peekAt 1 == .lParen

def postfixAmpRun (parser : Parser) : Nat :=
  1 + ((parser.tokens.drop 1).takeWhile fun token => token.kind == .ampersand).length

/-- Whether the ampersand at the cursor is the infix operator: a value follows the run,
and not one of the words that follow a reference type. -/
def postfixAmpIsInfix (parser : Parser) : Bool :=
  let ampRun := parser.postfixAmpRun
  if parser.inTypeAnnotation && parser.peekAt ampRun == .lBracket then Bool.false
  else
    let afterAmpsText := if parser.peekAt ampRun == .ident then
      (parser.tokens.getD ampRun ⟨.eof, ""⟩).text else ""
    let afterAmpsIsClause := afterAmpsText == "where" || afterAmpsText == "can"
    tokenStartsValue (parser.peekAt ampRun) && !afterAmpsIsClause

end Parser

/-! ## Operands -/

/-- The parts of the parser under the operator levels that take more than one token: the
constructs that begin at a token, and the postfix suffixes of an operand. -/
structure Forms where
  construct : Parser → Option Expr × Parser
  suffixes : Expr → Parser → Option Expr × Parser

/-- The words that open a construct whatever follows them, on one line with an `as`, or
before a value. -/
def opensConstruct (text : String) : Bool :=
  ["move", "rewrite", "when", "freeze", "await"].contains text

def continuesConstruct : TokenKind → Bool
  | .ident | .lParen | .lBracket | .colon => Bool.true
  | _ => Bool.false

/-- Whether the identifier at the cursor may open a construct of its own. -/
def Parser.constructAhead (parser : Parser) : Bool :=
  opensConstruct parser.cursor.text || continuesConstruct (parser.peekAt 1)

def primaryLiteral (token : Token) : Option Expr :=
  match token.kind with
  | .intLit | .hexLit => some (.intLit token.text)
  | .floatLit => some (.floatLit token.text)
  | .charLit => some (.charLit token.text)
  | .stringLit => some (.stringLit token.text)
  | .true => some (.boolLit Bool.true)
  | .false => some (.boolLit Bool.false)
  | .null | .zeroed => some (.ident token.text)
  | _ => none

/-- An operand of one token, or a construct. -/
def primaryExpression (forms : Forms) (parser : Parser) : Option Expr × Parser :=
  if parser.peek == .ident then
    if parser.constructAhead then forms.construct parser
    else (some (.ident parser.cursor.text), parser.advance)
  else
    match primaryLiteral parser.cursor with
    | some literal => (some literal, parser.advance)
    | none => forms.construct parser

def beginsSuffix : TokenKind → Bool
  | .lParen | .dot | .scope | .question | .ampersand | .lBracket | .lBrace => Bool.true
  | _ => Bool.false

def postfixExpression (forms : Forms) (parser : Parser) : Option Expr × Parser :=
  match primaryExpression forms parser with
  | (none, parser) => (none, parser)
  | (some active, parser) =>
    if parser.peek == .ampersand && parser.postfixAmpIsInfix then (some active, parser)
    else if beginsSuffix parser.peek then forms.suffixes active parser
    else (some active, parser)

def isPrefixOperator : TokenKind → Bool
  | .bang | .tilde | .minus | .plus | .ampersand => Bool.true
  | .mutable | .lmut | .static | .heap | .stack | .tail => Bool.true
  | _ => Bool.false

/-! ## The operator levels -/

def binaryChainLimit : Nat := 2000

def removedNodeMessage : String :=
  "`node[...] Tree.Member(...)` has been removed; use `new[owner] Enum.Variant(...)` or an ordinary enum constructor"

def removedStoreAsMessage : String :=
  "`value in store as Pattern` is no longer supported; use `value in store is Pattern:` instead"

def removedArrowMessage : String :=
  "the `expr -> T` cast has been removed; use `expr.cast[T]` (reinterpret), a constructor `T(expr)` / `expr.T()` (value conversion), or `&expr` (reference)"

/-- The target of an `as` that the expression parser takes: a bare `&` or `!`, or a
qualified variant where a pattern may stand. -/
def Parser.reinterpretTarget (parser : Parser) : Bool :=
  (parser.peekAt 1 == .ampersand || parser.peekAt 1 == .bang) && !tokenStartsValue (parser.peekAt 2)

def Parser.packedPatternTarget (parser : Parser) : Bool :=
  !parser.suppressAsPattern && parser.peekAt 1 == .ident && parser.peekAt 2 == .dot

/-- The tokens at which no level takes a continuation: an `as` without a target, a pipe
that closes or opens a header, the arrow of a yield. -/
def Parser.stopsAt (parser : Parser) : Bool :=
  (parser.peek == .as && !parser.reinterpretTarget && !parser.packedPatternTarget) ||
    (parser.peek == .pipe && (parser.suppressPipe || parser.loopHeaderAt)) ||
    (parser.peek == .arrow && parser.suppressArrow)

/-- Records the removed `value in store as Pattern`. -/
def Parser.noteStoreAs (parser : Parser) (active : Expr) : Parser :=
  match active with
  | .binary _ .in_ _ =>
    if parser.peek == .as && parser.packedPatternTarget then
      parser.errorRemoved parser.cursor removedStoreAsMessage
    else parser
  | _ => parser

/-- Records the removed arrow cast. -/
def Parser.noteArrow (parser : Parser) : Parser :=
  if parser.peek == .arrow && !parser.inTypeAnnotation && !parser.prevIsDedent then
    parser.errorRemoved parser.cursor removedArrowMessage
  else parser

def aliasTarget (operator : TokenKind) (right : Expr) (parser : Parser) : Expr × Parser :=
  if operator == .is && parser.peek == .as && parser.peekAt 1 == .ident then
    let parser := parser.advance
    let aliasName := parser.cursor.text
    let parser := parser.advance
    match right with
    | .field _ _ => (right,
        { parser with enumAnnotations := parser.enumAnnotations ++
          [⟨aliasName, "__is_variant_alias"⟩] })
    | _ => (.ident aliasName, parser)
  else (right, parser)

-- The four functions call each other; the fuel bounds the depth of the calls, and no
-- result at all means that it ran out.
mutual

def unaryExpression (forms : Forms) : Nat → Parser → Option (Option Expr × Parser)
  | 0, _ => none
  | fuel + 1, parser =>
    let kind := parser.peek
    let token := parser.cursor
    if kind == .ident && parser.nodeAllocAhead && token.text == "node" then
      let parser := parser.errorRemoved token removedNodeMessage
      some (some (.ident "__invalid_removed_node_sugar"), parser.advance)
    else if kind == .ident && parser.ownedQualifierAhead then do
      let (operand, parser) ← unaryExpression forms fuel parser.advance
      return (operand.map (Expr.unary .owned), parser)
    else if (kind == .ampersand || kind == .bang) && !tokenStartsValue (parser.peekAt 1) then
      some (some (.ident token.text), parser.advance)
    else if kind == .not then do
      let (inner, parser) ← unaryExpression forms fuel parser.advance
      match inner with
      | none => return (none, parser)
      | some inner =>
        let (operand, parser) ← binaryExpressionLoop forms fuel inner 3 0 parser
        return (some (.unary .not operand), parser)
    else if isPrefixOperator kind then do
      let (operand, parser) ← unaryExpression forms fuel parser.advance
      return (operand.map (Expr.unary kind), parser)
    else some (postfixExpression forms parser)
  termination_by structural fuel => fuel

/-- The right operand of an operator: one operand, continued at a tighter level when the
token behind it binds more tightly. -/
def rightOperand (forms : Forms) :
    Nat → Nat → Parser → Option (Option Expr × Parser)
  | 0, _, _ => none
  | fuel + 1, power, parser => do
      let (right, parser) ← unaryExpression forms fuel parser
      match right with
      | none => return (none, parser)
      | some right =>
        if power < precedence parser.peek then
          let (right, parser) ← binaryExpressionLoop forms fuel right (power + 1) 0 parser
          return (some right, parser)
        else return (some right, parser)
  termination_by structural fuel => fuel

/-- One binary continuation; `none` in the result ends the level. -/
def binaryExpressionStep (forms : Forms) :
    Nat → Expr → Nat → Parser → Option (Option Expr × Parser)
  | 0, _, _, _ => none
  | fuel + 1, active, minimum, parser =>
    let kind := parser.peek
    if parser.stopsAt then some (none, parser)
    else
      let parser := parser.noteStoreAs active
      if kind == .not && parser.peekAt 1 == .in_ then
        if comparison < minimum then some (none, parser)
        else do
          let (right, parser) ← rightOperand forms fuel comparison parser.advance.advance
          match right with
          | none => return (some active, parser)
          | some right => return (some (.unary .not (.binary active .in_ right)), parser)
      else if precedence kind < minimum then some (none, parser)
      else do
        let parser := parser.noteArrow.advance
        let negated := kind == .is && parser.peek == .not
        let parser := if negated then parser.advance else parser
        let (right, parser) ← rightOperand forms fuel (precedence kind) parser
        match right with
        | none => return (some active, parser)
        | some right =>
          let (right, parser) := aliasTarget kind right parser
          let active := Expr.binary active kind right
          return (some (if negated then .unary .not active else active), parser)
  termination_by structural fuel => fuel

def binaryExpressionLoop (forms : Forms) :
    Nat → Expr → Nat → Nat → Parser → Option (Expr × Parser)
  | 0, _, _, _, _ => none
  | fuel + 1, active, minimum, count, parser =>
    if binaryChainLimit ≤ count then
      some (active, parser.errorAt .unexpectedToken parser.cursor)
    else do
      let (next, parser) ← binaryExpressionStep forms fuel active minimum parser
      match next with
      | none => return (active, parser)
      | some updated => binaryExpressionLoop forms fuel updated minimum (count + 1) parser
  termination_by structural fuel => fuel

end

def binaryExpressionAtLevel (forms : Forms) (fuel : Nat) (left : Expr) (minimum : Nat)
    (parser : Parser) : Option (Expr × Parser) :=
  binaryExpressionLoop forms fuel left minimum 0 parser

def binaryExpression (forms : Forms) (fuel : Nat) (parser : Parser) :
    Option (Option Expr × Parser) := do
  let (left, parser) ← unaryExpression forms fuel parser
  match left with
  | none => return (none, parser)
  | some left =>
    let (value, parser) ← binaryExpressionAtLevel forms fuel left arrowOr parser
    return (some value, parser)

end Elisa.Frontend
