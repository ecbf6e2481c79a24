import Elisa.Lib.Asking
import Elisa.Semantic.PatternReachability

/-!
# The flow queries of the region checks

The region checks ask of a piece of syntax whether it leaves its block for sure, whether a catch
could be reached by one of its raises, and whether it has a break that leaves a loop
(`region_escape_provenance.elisa`, `catchable_raises.elisa`).  The questions are a family of
procedures that call each other: each is a `Query`, and its code is the `body` of the query.  A
`while` loop of the source is a query on the state of the loop.

Most of the code stands in the source twice, with a catch context and without (`…_with_metadata`);
`metadata` is the context, if there is one.
-/

namespace Elisa.Semantic.RegionFlow

open Ast Lexer Lib Lib.Asking Progress

/-! ## Literals, callees and patterns -/

/-- The value of a literal, in parentheses or not.  Operators are not looked through here. -/
def literalBool : Expr → Option Bool
  | .boolLit value => some value
  | .paren inner => literalBool inner
  | _ => none

/-- What a pattern says of a truth value: whether it is known, whether it matches, and whether it
would match anything. -/
def boolPattern (pattern : Pattern) (value : Bool) : Bool × Bool × Bool :=
  match pattern with
  | .literal text =>
    if text = ascii "true" then (true, value, false)
    else if text = ascii "false" then (true, !value, false)
    else (false, false, false)
  | .wildcard | .binding _ => (true, true, true)
  | _ => (false, false, false)

mutual

def patternIsMatchCatchall : Pattern → Bool
  | .wildcard | .binding _ => true
  | .or options => anyMatchCatchall options
  | .asName _ inner => anyMatchCatchall inner
  | _ => false

def anyMatchCatchall : List Pattern → Bool
  | [] => false
  | pattern :: rest => patternIsMatchCatchall pattern || anyMatchCatchall rest

end

mutual

def patternIsErrorCatchall : Pattern → Bool
  | .wildcard => true
  | .typeBind type _ => type = ascii "error"
  | .or options => anyErrorCatchall options
  | .asName _ inner => anyErrorCatchall inner
  | _ => false

def anyErrorCatchall : List Pattern → Bool
  | [] => false
  | pattern :: rest => patternIsErrorCatchall pattern || anyErrorCatchall rest

end

/-- The callees that are keywords and never return. -/
def abortCallee : Expr → Bool
  | .ident name => name = ascii "panic" || name = ascii "raise" || name = ascii "error"
  | .paren inner => abortCallee inner
  | _ => false

def catchableRaiseCallee : Expr → Bool
  | .ident name => name = ascii "raise"
  | .paren inner => catchableRaiseCallee inner
  | _ => false

def effectRuntimeChildren (candidates : List StaticEffectCandidate) (arguments : List Expr) :
    List Expr :=
  candidates.flatMap (·.captures) ++ arguments

/-! ## Queries -/

/-- Whether the end of a piece of code can be reached, and whether a raise was found in it. -/
structure Summary where
  reachesEnd : Bool
  foundRaise : Bool

/-- The procedures and their loops, at the arguments of a call. -/
inductive Query where
  | expressionTerminates (metadata : Option CatchContext) (expression : Expr)
  | statementTerminates (metadata : Option CatchContext) (statement : Stmt)
  | statementsTerminate (metadata : Option CatchContext) (statements : List Stmt)
  | matchArmsTerminate (metadata : Option CatchContext) (scrutinee : Expr) (arms : List MatchArm)
  | literalArmsLoop (metadata : Option CatchContext) (scrutinee : Expr) (arms : List MatchArm)
      (armIndex : Nat)
  | coverArmsLoop (metadata : Option CatchContext) (scrutinee : Expr) (arms : List MatchArm)
      (armIndex : Nat) (coversTrue coversFalse : Bool)
  | catchErrorArmsLoop (metadata : Option CatchContext) (arms : List MatchArm) (armIndex : Nat)
  | catchableRaise (context : CatchContext) (expression : Expr)
  | raiseMatchArmsLoop (context : CatchContext) (scrutinee : Expr) (arms : List MatchArm)
      (armIndex : Nat)
  | raiseCatchArmsLoop (context : CatchContext) (arms : List MatchArm)
      (guardedAborts guardedMayRaise errorsHandled : Bool) (armIndex : Nat)
  | raiseStatementSummary (context : CatchContext) (statement : Stmt)
  | summaryCatchArmsLoop (context : CatchContext) (arms : List MatchArm)
      (scrutineeAborts scrutineeMayRaise errorsHandled handlerRaise : Bool) (armIndex : Nat)
  | expressionHasBreak (context : CatchContext) (nestedLoopDepth : Nat) (localLabels : List Bytes)
      (expression : Expr)
  | statementHasBreak (context : CatchContext) (nestedLoopDepth : Nat) (localLabels : List Bytes)
      (statement : Stmt)
  | statementsHaveBreak (context : CatchContext) (nestedLoopDepth : Nat)
      (localLabels : List Bytes) (statements : List Stmt)
  | breakArmsLoop (context : CatchContext) (nestedLoopDepth : Nat) (localLabels : List Bytes)
      (scrutinee : Expr) (arms : List MatchArm)
      (isCatchMatch scrutineeAborts scrutineeMayRaise : Bool) (armIndex : Nat)

/-- What a query is answered with: a summary's loop is left with whether its errors are handled
and whether a handler raises. -/
@[reducible] def Query.Answer : Query → Type
  | .raiseStatementSummary .. => Summary
  | .summaryCatchArmsLoop .. => Bool × Bool
  | _ => Bool

abbrev Ask (α : Type) := Asking Query.Answer α

abbrev askFor (query : Query) : Ask query.Answer := call query

/-! ## Calls -/

section Calls

variable (metadata : Option CatchContext) (context : CatchContext)

def expressionTerminates (expression : Expr) : Ask Bool :=
  askFor (.expressionTerminates metadata expression)

def statementTerminates (statement : Stmt) : Ask Bool :=
  askFor (.statementTerminates metadata statement)

def statementsTerminate (statements : List Stmt) : Ask Bool :=
  askFor (.statementsTerminate metadata statements)

def matchArmsTerminate (scrutinee : Expr) (arms : List MatchArm) : Ask Bool :=
  askFor (.matchArmsTerminate metadata scrutinee arms)

def catchErrorArmsTerminate (arms : List MatchArm) : Ask Bool :=
  if arms.length < 2 then return false else askFor (.catchErrorArmsLoop metadata arms 1)

def catchableRaise (expression : Expr) : Ask Bool := askFor (.catchableRaise context expression)

/-- The expressions in order, up to the first that can raise or is sure not to end. -/
def catchableRaiseSequence : List Expr → Ask Summary
  | [] => return ⟨true, false⟩
  | expression :: rest => do
    if ← catchableRaise context expression then return ⟨false, true⟩
    if ← expressionTerminates (some context) expression then return ⟨false, false⟩
    catchableRaiseSequence rest

def catchableRaiseStatementsSummary : List Stmt → Ask Summary
  | [] => return ⟨true, false⟩
  | statement :: rest => do
    let facts : Summary ← askFor (.raiseStatementSummary context statement)
    if facts.foundRaise then return ⟨false, true⟩
    if !facts.reachesEnd then return ⟨false, false⟩
    catchableRaiseStatementsSummary rest

def catchableRaiseStatements (statements : List Stmt) : Ask Bool := do
  return (← catchableRaiseStatementsSummary context statements).foundRaise

def catchableRaiseEntries : List DictEntry → Ask Bool
  | [] => return false
  | entry :: rest => do
    if ← catchableRaise context entry.key then return true
    if ← expressionTerminates (some context) entry.key then return false
    if ← catchableRaise context entry.value then return true
    if ← expressionTerminates (some context) entry.value then return false
    catchableRaiseEntries rest

def expressionHasBreakForLoop (depth : Nat) (labels : List Bytes) (expression : Expr) : Ask Bool :=
  askFor (.expressionHasBreak context depth labels expression)

def statementsHaveBreakForLoop (depth : Nat) (labels : List Bytes) (statements : List Stmt) :
    Ask Bool :=
  askFor (.statementsHaveBreak context depth labels statements)

def statementsHaveBreak (statements : List Stmt) : Ask Bool :=
  statementsHaveBreakForLoop context 0 [] statements

end Calls

/-! ## Whether a piece of code leaves its block -/

section Terminates

variable (metadata : Option CatchContext)

def contextOf : CatchContext := metadata.getD CatchContext.empty

/-- The arm of the success first, then the arms of the errors. -/
def catchArmsTerminate (arms : List MatchArm) : Ask Bool :=
  andAlso (match arms with
    | [] => return false
    | success :: _ => statementsTerminate metadata success.body)
    (catchErrorArmsTerminate metadata arms)

def expressionTerminatesBody : Expr → Ask Bool
  | .paren inner | .unary _ inner | .move inner | .regionNew inner _ =>
    expressionTerminates metadata inner
  | .call callee arguments _ =>
    if abortCallee callee then return true
    else orElse (expressionTerminates metadata callee)
      (anyOf (expressionTerminates metadata) arguments)
  | .staticEffectCall _ _ candidates arguments _ =>
    anyOf (expressionTerminates metadata) (effectRuntimeChildren candidates arguments)
  | .binary left operator right => do
    if ← expressionTerminates metadata left then return true
    let rightRequired := if operator = .kwAnd then literalBool left = some true
      else if operator = .kwOr then literalBool left = some false else true
    if rightRequired then expressionTerminates metadata right else return false
  | .block statements value _ =>
    orElse (statementsTerminate metadata statements) (expressionTerminates metadata value)
  | .ifExpr condition thenValue elseValue => do
    if ← expressionTerminates metadata condition then return true
    match literalBool condition with
    | some true => expressionTerminates metadata thenValue
    | some false => expressionTerminates metadata elseValue
    | none =>
      andAlso (expressionTerminates metadata thenValue) (expressionTerminates metadata elseValue)
  | .matchExpr scrutinee arms _ =>
    orElse (expressionTerminates metadata scrutinee) (matchArmsTerminate metadata scrutinee arms)
  | .field object _ | .scope object _ => expressionTerminates metadata object
  | .index object index =>
    orElse (expressionTerminates metadata object) (expressionTerminates metadata index)
  | .indexN object indices =>
    orElse (expressionTerminates metadata object) (anyOf (expressionTerminates metadata) indices)
  | .slice object low high =>
    orElse (expressionTerminates metadata object)
      (orElse (expressionTerminates metadata low) (expressionTerminates metadata high))
  | .array elements | .tuple elements | .setLit elements =>
    anyOf (expressionTerminates metadata) elements
  | .dictLit entries => anyOf (fun entry => orElse (expressionTerminates metadata entry.key)
      (expressionTerminates metadata entry.value)) entries
  | .construct _ fields => anyOf (fun field => expressionTerminates metadata field.value) fields
  | .recordUpdate base fields =>
    orElse (expressionTerminates metadata base)
      (anyOf (fun field => expressionTerminates metadata field.value) fields)
  | .getElse guarded _ => expressionTerminates metadata guarded
  | .catchExpr guarded arms _ => do
    let guardedTerminates ← expressionTerminates metadata guarded
    let raises ← catchableRaise (contextOf metadata) guarded
    if guardedTerminates && !raises then return true
    -- the value of the source's conditional is not returned: it is computed and dropped
    if guardedTerminates then
      let _ ← catchErrorArmsTerminate metadata arms
      catchArmsTerminate metadata arms
    else catchArmsTerminate metadata arms
  | .comprehension _ iterable _ _ => expressionTerminates metadata iterable
  | .refinement left right =>
    orElse (expressionTerminates metadata left) (expressionTerminates metadata right)
  | _ => return false

def isCatchMatch (position : Pos) : Bool :=
  match metadata with
  | some context => context.markerMatches position
  | none => false

def statementTerminatesBody : Stmt → Ask Bool
  | .returnStmt .. | .breakStmt .. | .continueStmt .. => return true
  | .expr expression _ => expressionTerminates metadata expression
  | .varDecl _ _ value _ => expressionTerminates metadata value
  | .assign target _ value _ =>
    orElse (expressionTerminates metadata target) (expressionTerminates metadata value)
  | .matchStmt scrutinee arms line =>
    if isCatchMatch metadata line then do
      let scrutineeAborts ← expressionTerminates metadata scrutinee
      let scrutineeMayRaise ← catchableRaise (contextOf metadata) scrutinee
      if scrutineeAborts then
        if !scrutineeMayRaise then return true else catchErrorArmsTerminate metadata arms
      else catchArmsTerminate metadata arms
    else
      orElse (expressionTerminates metadata scrutinee) (matchArmsTerminate metadata scrutinee arms)
  | .ifStmt condition thenBody elseBody _ => do
    if ← expressionTerminates metadata condition then return true
    match literalBool condition with
    | some true => statementsTerminate metadata thenBody
    | some false => statementsTerminate metadata elseBody
    | none =>
      andAlso (statementsTerminate metadata thenBody) (statementsTerminate metadata elseBody)
  | .block _ _ _ body _ => statementsTerminate metadata body
  | .whileStmt condition body _ => do
    if ← expressionTerminates metadata condition then return true
    if literalBool condition = some true then
      negate (statementsHaveBreak (contextOf metadata) body)
    else return false
  | .forStmt _ _ iterable _ _ => expressionTerminates metadata iterable
  | _ => return false

def matchArmsTerminateBody (scrutinee : Expr) (arms : List MatchArm) : Ask Bool :=
  if arms.isEmpty then return false
  else if (literalBool scrutinee).isSome then askFor (.literalArmsLoop metadata scrutinee arms 0)
  else askFor (.coverArmsLoop metadata scrutinee arms 0 false false)

def literalArmsLoopBody (scrutinee : Expr) (arms : List MatchArm) (armIndex : Nat) : Ask Bool :=
  match arms[armIndex]? with
  | none => return false
  | some arm =>
    if matchArmReachable scrutinee arms armIndex then
      -- the `continue` of the source stands before the index is advanced
      if literalBool arm.guard = some false then
        askFor (.literalArmsLoop metadata scrutinee arms armIndex)
      else do
        let guardTerminates ← expressionTerminates metadata arm.guard
        let bodyTerminates ← statementsTerminate metadata arm.body
        if !arm.guard.isAbsent && !guardTerminates && literalBool arm.guard ≠ some true then
          return false
        if !guardTerminates && !bodyTerminates then return false
        if arm.guard.isAbsent || guardTerminates || literalBool arm.guard = some true then
          return true
        askFor (.literalArmsLoop metadata scrutinee arms (armIndex + 1))
    else askFor (.literalArmsLoop metadata scrutinee arms (armIndex + 1))

def coverArmsLoopBody (scrutinee : Expr) (arms : List MatchArm) (armIndex : Nat)
    (coversTrue coversFalse : Bool) : Ask Bool :=
  match arms[armIndex]? with
  | none => return coversTrue && coversFalse
  | some arm =>
    if matchArmReachable scrutinee arms armIndex && literalBool arm.guard ≠ some false then do
      let guardTerminates ← expressionTerminates metadata arm.guard
      let bodyTerminates ← statementsTerminate metadata arm.body
      if !guardTerminates && !bodyTerminates then return false
      if arm.guard.isAbsent || guardTerminates || literalBool arm.guard = some true then
        let (trueKnown, trueMatches, trueCatchall) := boolPattern arm.pattern true
        let (falseKnown, falseMatches, falseCatchall) := boolPattern arm.pattern false
        let coversTrue := coversTrue || trueKnown && trueMatches
        let coversFalse := coversFalse || falseKnown && falseMatches
        if trueCatchall || falseCatchall || coversTrue && coversFalse then return true
        askFor (.coverArmsLoop metadata scrutinee arms (armIndex + 1) coversTrue coversFalse)
      else askFor (.coverArmsLoop metadata scrutinee arms (armIndex + 1) coversTrue coversFalse)
    else askFor (.coverArmsLoop metadata scrutinee arms (armIndex + 1) coversTrue coversFalse)

def catchErrorArmsLoopBody (arms : List MatchArm) (armIndex : Nat) : Ask Bool :=
  match arms[armIndex]? with
  | none => return false
  | some arm =>
    if catchArmReachable arms armIndex && literalBool arm.guard ≠ some false then do
      let guardTerminates ← expressionTerminates metadata arm.guard
      let bodyTerminates ← statementsTerminate metadata arm.body
      if !guardTerminates && !bodyTerminates then return false
      let unconditional :=
        arm.guard.isAbsent || literalBool arm.guard = some true || guardTerminates
      if unconditional && patternIsErrorCatchall arm.pattern then return true
      askFor (.catchErrorArmsLoop metadata arms (armIndex + 1))
    else askFor (.catchErrorArmsLoop metadata arms (armIndex + 1))

end Terminates

/-! ## Whether a raise can reach a catch -/

section Raises

variable (context : CatchContext)

/-- Expressions that are evaluated one after the other: the first raise counts that nothing before
it stops. -/
def raiseThen (expression : Expr) (next : Ask Bool) : Ask Bool := do
  if ← catchableRaise context expression then return true
  if ← expressionTerminates (some context) expression then return false
  next

def catchableRaiseFieldValues : List FieldInit → Ask Bool
  | [] => return false
  | field :: rest => raiseThen context field.value (catchableRaiseFieldValues rest)

def catchableRaiseBody : Expr → Ask Bool
  | .call callee arguments _ => do
    if ← catchableRaise context callee then return true
    if !abortCallee callee then
      if ← expressionTerminates (some context) callee then return false
      let facts ← catchableRaiseSequence context arguments
      return facts.foundRaise || facts.reachesEnd && catchableRaiseCallee callee
    else
      let facts ← catchableRaiseSequence context arguments
      return facts.foundRaise || facts.reachesEnd && catchableRaiseCallee callee
  | .staticEffectCall _ _ candidates arguments _ => do
    let children := effectRuntimeChildren candidates arguments
    return (← catchableRaiseSequence context children).foundRaise
  | .ifExpr condition thenValue elseValue =>
    raiseThen context condition <|
      match literalBool condition with
      | some true => catchableRaise context thenValue
      | some false => catchableRaise context elseValue
      | none => orElse (catchableRaise context thenValue) (catchableRaise context elseValue)
  | .matchExpr scrutinee arms _ =>
    raiseThen context scrutinee (askFor (.raiseMatchArmsLoop context scrutinee arms 0))
  | .block statements value _ => do
    if ← catchableRaiseStatements context statements then return true
    if ← statementsTerminate (some context) statements then return false
    catchableRaise context value
  | .paren inner | .unary _ inner | .move inner | .regionNew inner _ => catchableRaise context inner
  | .binary left operator right =>
    raiseThen context left <|
      let rightRequired := if operator = .kwAnd then literalBool left ≠ some false
        else if operator = .kwOr then literalBool left ≠ some true else true
      if rightRequired then catchableRaise context right else return false
  | .field object _ | .scope object _ => catchableRaise context object
  | .index object index => raiseThen context object (catchableRaise context index)
  | .indexN object indices => raiseThen context object do
      return (← catchableRaiseSequence context indices).foundRaise
  | .slice object low high =>
    raiseThen context object (raiseThen context low (catchableRaise context high))
  | .array elements | .tuple elements | .setLit elements => do
    return (← catchableRaiseSequence context elements).foundRaise
  | .dictLit entries => catchableRaiseEntries context entries
  | .construct _ fields => catchableRaiseFieldValues context fields
  | .recordUpdate base fields => raiseThen context base (catchableRaiseFieldValues context fields)
  | .getElse guarded recovery =>
    raiseThen context guarded (catchableRaiseStatements context recovery)
  | .catchExpr guarded arms _ => do
    let guardedAborts ← expressionTerminates (some context) guarded
    let guardedMayRaise ← catchableRaise context guarded
    if guardedAborts && !guardedMayRaise then return false
    askFor (.raiseCatchArmsLoop context arms guardedAborts guardedMayRaise false 0)
  | .comprehension _ iterable condition body =>
    raiseThen context iterable <|
      if emptyIterable iterable then return false
      else raiseThen context condition <|
        if literalBool condition = some false then return false else catchableRaise context body
  | .refinement base predicate => raiseThen context base (catchableRaise context predicate)
  | _ => return false

/-- A guard that is never true: the literal `false`, or one that is sure not to end. -/
def guardFails (guard : Expr) : Ask Bool :=
  if literalBool guard = some false then return true else expressionTerminates (some context) guard

def presentGuardFails (guard : Expr) : Ask Bool :=
  if guard.isAbsent then return false else guardFails context guard

def raiseMatchArmsLoopBody (scrutinee : Expr) (arms : List MatchArm) (armIndex : Nat) : Ask Bool :=
  match arms[armIndex]? with
  | none => return false
  | some arm =>
    if !matchArmReachable scrutinee arms armIndex then
      askFor (.raiseMatchArmsLoop context scrutinee arms (armIndex + 1))
    else do
      if ← catchableRaise context arm.guard then return true
      if ← presentGuardFails context arm.guard then
        askFor (.raiseMatchArmsLoop context scrutinee arms (armIndex + 1))
      else
        if ← catchableRaiseStatements context arm.body then return true
        if arm.guard.isAbsent && patternIsMatchCatchall arm.pattern then return false
        askFor (.raiseMatchArmsLoop context scrutinee arms (armIndex + 1))

/-- Whether an arm of a catch can run: the arm of the success only if the guarded code can end, the
others only if it can raise. -/
def catchArmRuns (arms : List MatchArm) (aborts mayRaise : Bool) (armIndex : Nat) : Bool :=
  catchArmReachable arms armIndex && !(aborts && armIndex = 0) && !(0 < armIndex && !mayRaise)

def raiseCatchArmsLoopBody (arms : List MatchArm)
    (guardedAborts guardedMayRaise errorsHandled : Bool) (armIndex : Nat) : Ask Bool :=
  match arms[armIndex]? with
  | none => return guardedMayRaise && !errorsHandled
  | some arm =>
    if catchArmRuns arms guardedAborts guardedMayRaise armIndex then do
      if ← catchableRaise context arm.guard then return true
      if ← presentGuardFails context arm.guard then
        askFor (.raiseCatchArmsLoop context arms guardedAborts guardedMayRaise errorsHandled
          (armIndex + 1))
      else
        if ← catchableRaiseStatements context arm.body then return true
        let handled := 0 < armIndex && (arm.guard.isAbsent || literalBool arm.guard = some true) &&
          patternIsErrorCatchall arm.pattern
        askFor (.raiseCatchArmsLoop context arms guardedAborts guardedMayRaise
          (errorsHandled || handled) (armIndex + 1))
    else
      askFor (.raiseCatchArmsLoop context arms guardedAborts guardedMayRaise errorsHandled
        (armIndex + 1))

/-- A statement whose end is reached unless it leaves its block. -/
def summaryOf (statement : Stmt) (foundRaise : Bool) : Ask Summary := do
  return ⟨!(← statementTerminates (some context) statement), foundRaise⟩

def summaryThen (expression : Expr) (next : Ask Summary) : Ask Summary := do
  if ← catchableRaise context expression then return ⟨false, true⟩
  if ← expressionTerminates (some context) expression then return ⟨false, false⟩
  next

def raiseStatementSummaryBody (statement : Stmt) : Ask Summary :=
  match statement with
  | .expr expression _ => do
    let foundRaise ← catchableRaise context expression
    summaryOf context statement foundRaise
  | .returnStmt none _ => return ⟨false, false⟩
  | .returnStmt (some value) _ => do return ⟨false, ← catchableRaise context value⟩
  | .varDecl _ typeExpression value _ => do
    let foundRaise ← orElse (catchableRaise context typeExpression) (catchableRaise context value)
    summaryOf context statement foundRaise
  | .assign target _ value _ => summaryThen context target do
    let valueRaise ← catchableRaise context value
    summaryOf context statement valueRaise
  | .ifStmt condition thenBody elseBody _ => summaryThen context condition <|
    match literalBool condition with
    | some true => catchableRaiseStatementsSummary context thenBody
    | some false => catchableRaiseStatementsSummary context elseBody
    | none => do
      let thenFacts ← catchableRaiseStatementsSummary context thenBody
      let elseFacts ← catchableRaiseStatementsSummary context elseBody
      return ⟨thenFacts.reachesEnd || elseFacts.reachesEnd,
        thenFacts.foundRaise || elseFacts.foundRaise⟩
  | .whileStmt condition body _ => summaryThen context condition <|
    if literalBool condition = some false then return ⟨true, false⟩
    else do
      let facts ← catchableRaiseStatementsSummary context body
      summaryOf context statement facts.foundRaise
  | .forStmt _ _ iterable body _ => summaryThen context iterable <|
    if emptyIterable iterable then return ⟨true, false⟩
    else do
      let facts ← catchableRaiseStatementsSummary context body
      summaryOf context statement facts.foundRaise
  | .block _ _ _ body _ => do
    let facts ← catchableRaiseStatementsSummary context body
    summaryOf context statement facts.foundRaise
  | .matchStmt scrutinee arms line => do
    let scrutineeMayRaise ← catchableRaise context scrutinee
    let scrutineeAborts ← expressionTerminates (some context) scrutinee
    if !context.markerMatches line then
      if scrutineeMayRaise then return ⟨false, true⟩
      if scrutineeAborts then return ⟨false, false⟩
      let armRaise : Bool ← askFor (.raiseMatchArmsLoop context scrutinee arms 0)
      summaryOf context statement armRaise
    else
      let (errorsHandled, handlerRaise) ← (askFor (.summaryCatchArmsLoop context arms
        scrutineeAborts scrutineeMayRaise false false 0) : Ask (Bool × Bool))
      summaryOf context statement (handlerRaise || scrutineeMayRaise && !errorsHandled)
  | .contract _ expression _ => do
    let foundRaise ← catchableRaise context expression
    summaryOf context statement foundRaise
  | _ => summaryOf context statement false

def summaryCatchArmsLoopBody (arms : List MatchArm)
    (scrutineeAborts scrutineeMayRaise errorsHandled handlerRaise : Bool) (armIndex : Nat) :
    Ask (Bool × Bool) :=
  let goOn (errorsHandled handlerRaise : Bool) : Ask (Bool × Bool) :=
    askFor (.summaryCatchArmsLoop context arms scrutineeAborts scrutineeMayRaise errorsHandled
      handlerRaise (armIndex + 1))
  match arms[armIndex]? with
  | none => return (errorsHandled, handlerRaise)
  | some arm =>
    if catchArmReachable arms armIndex && !(scrutineeAborts && armIndex = 0) &&
        !(scrutineeAborts && 0 < armIndex && !scrutineeMayRaise) then do
      let guardRaise ← catchableRaise context arm.guard
      if ← guardFails context arm.guard then goOn errorsHandled (handlerRaise || guardRaise)
      else
        let facts ← catchableRaiseStatementsSummary context arm.body
        let handled := 0 < armIndex && (arm.guard.isAbsent || literalBool arm.guard = some true) &&
          patternIsErrorCatchall arm.pattern
        goOn (errorsHandled || handled) (handlerRaise || guardRaise || facts.foundRaise)
    else goOn errorsHandled handlerRaise

end Raises

/-! ## Whether a break leaves a loop -/

section Breaks

variable (context : CatchContext) (depth : Nat) (labels : List Bytes)

def expressionHasBreakBody : Expr → Ask Bool
  | .getElse guarded recovery =>
    orElse (expressionHasBreakForLoop context depth labels guarded)
      (statementsHaveBreakForLoop context depth labels recovery)
  | .block statements value _ =>
    orElse (statementsHaveBreakForLoop context depth labels statements)
      (expressionHasBreakForLoop context depth labels value)
  | .matchExpr scrutinee arms _ | .catchExpr scrutinee arms _ =>
    orElse (expressionHasBreakForLoop context depth labels scrutinee)
      (anyOf (fun arm => orElse (expressionHasBreakForLoop context depth labels arm.guard)
        (statementsHaveBreakForLoop context depth labels arm.body)) arms)
  | .ifExpr first second third | .slice first second third | .comprehension _ first second third =>
    orElse (expressionHasBreakForLoop context depth labels first)
      (orElse (expressionHasBreakForLoop context depth labels second)
        (expressionHasBreakForLoop context depth labels third))
  | .binary left _ right | .index left right | .refinement left right =>
    orElse (expressionHasBreakForLoop context depth labels left)
      (expressionHasBreakForLoop context depth labels right)
  | .call head arguments _ | .indexN head arguments | .staticEffectCall head _ _ arguments _ =>
    orElse (expressionHasBreakForLoop context depth labels head)
      (anyOf (expressionHasBreakForLoop context depth labels) arguments)
  | .field inner _ | .scope inner _ | .unary _ inner | .move inner | .paren inner
  | .regionNew inner _ => expressionHasBreakForLoop context depth labels inner
  | .array elements | .tuple elements | .setLit elements =>
    anyOf (expressionHasBreakForLoop context depth labels) elements
  | .dictLit entries => anyOf (fun entry =>
    orElse (expressionHasBreakForLoop context depth labels entry.key)
      (expressionHasBreakForLoop context depth labels entry.value)) entries
  | .construct base fields | .recordUpdate base fields =>
    orElse (expressionHasBreakForLoop context depth labels base)
      (anyOf (fun field => expressionHasBreakForLoop context depth labels field.value) fields)
  | _ => return false

def breakThen (expression : Expr) (next : Ask Bool) : Ask Bool := do
  if ← expressionHasBreakForLoop context depth labels expression then return true
  if ← expressionTerminates (some context) expression then return false
  next

def statementHasBreakBody : Stmt → Ask Bool
  | .breakStmt label _ => return if label.isEmpty then depth = 0 else !labels.contains label
  | .expr value _ | .varDecl _ _ value _ | .contract _ value _ =>
    expressionHasBreakForLoop context depth labels value
  | .assign target _ value _ =>
    orElse (expressionHasBreakForLoop context depth labels target)
      (expressionHasBreakForLoop context depth labels value)
  | .returnStmt (some returned) _ => expressionHasBreakForLoop context depth labels returned
  | .ifStmt condition thenBody elseBody _ => breakThen context depth labels condition <|
    match literalBool condition with
    | some true => statementsHaveBreakForLoop context depth labels thenBody
    | some false => statementsHaveBreakForLoop context depth labels elseBody
    | none => orElse (statementsHaveBreakForLoop context depth labels thenBody)
        (statementsHaveBreakForLoop context depth labels elseBody)
  | .block kind clause _ body _ =>
    statementsHaveBreakForLoop context depth
      (if kind = ascii "label" then labels ++ clause else labels) body
  | .matchStmt scrutinee arms line => do
    if ← expressionHasBreakForLoop context depth labels scrutinee then return true
    let isCatchMatch := context.markerMatches line
    let scrutineeAborts ← expressionTerminates (some context) scrutinee
    let scrutineeMayRaise ← andAlso (return isCatchMatch) (catchableRaise context scrutinee)
    if scrutineeAborts && (!isCatchMatch || !scrutineeMayRaise) then return false
    askFor (.breakArmsLoop context depth labels scrutinee arms isCatchMatch scrutineeAborts
      scrutineeMayRaise 0)
  | .whileStmt condition body _ => breakThen context depth labels condition <|
    if literalBool condition = some false then return false
    else statementsHaveBreakForLoop context (depth + 1) labels body
  | .forStmt _ _ iterable body _ => breakThen context depth labels iterable <|
    statementsHaveBreakForLoop context (depth + 1) labels body
  | _ => return false

def statementsHaveBreakBody : List Stmt → Ask Bool
  | [] => return false
  | statement :: rest => do
    if ← (askFor (.statementHasBreak context depth labels statement) : Ask Bool) then return true
    if ← statementTerminates (some context) statement then return false
    statementsHaveBreakBody rest

def breakArmsLoopBody (scrutinee : Expr) (arms : List MatchArm)
    (isCatchMatch scrutineeAborts scrutineeMayRaise : Bool) (armIndex : Nat) : Ask Bool :=
  let goOn : Ask Bool := askFor (.breakArmsLoop context depth labels scrutinee arms isCatchMatch
    scrutineeAborts scrutineeMayRaise (armIndex + 1))
  match arms[armIndex]? with
  | none => return false
  | some arm =>
    let reachable := (if isCatchMatch then catchArmReachable arms armIndex
      else matchArmReachable scrutinee arms armIndex) &&
      !(isCatchMatch && scrutineeAborts && armIndex = 0) &&
      !(isCatchMatch && scrutineeAborts && 0 < armIndex && !scrutineeMayRaise)
    if reachable then do
      if ← expressionHasBreakForLoop context depth labels arm.guard then return true
      if literalBool arm.guard ≠ some false then
        if ← expressionTerminates (some context) arm.guard then goOn
        else
          if ← statementsHaveBreakForLoop context depth labels arm.body then return true
          goOn
      else goOn
    else goOn

end Breaks

def body : (query : Query) → Ask query.Answer
  | .expressionTerminates metadata expression => expressionTerminatesBody metadata expression
  | .statementTerminates metadata statement => statementTerminatesBody metadata statement
  | .statementsTerminate metadata statements => anyOf (statementTerminates metadata) statements
  | .matchArmsTerminate metadata scrutinee arms => matchArmsTerminateBody metadata scrutinee arms
  | .literalArmsLoop metadata scrutinee arms armIndex =>
    literalArmsLoopBody metadata scrutinee arms armIndex
  | .coverArmsLoop metadata scrutinee arms armIndex coversTrue coversFalse =>
    coverArmsLoopBody metadata scrutinee arms armIndex coversTrue coversFalse
  | .catchErrorArmsLoop metadata arms armIndex => catchErrorArmsLoopBody metadata arms armIndex
  | .catchableRaise context expression => catchableRaiseBody context expression
  | .raiseMatchArmsLoop context scrutinee arms armIndex =>
    raiseMatchArmsLoopBody context scrutinee arms armIndex
  | .raiseCatchArmsLoop context arms aborts mayRaise handled armIndex =>
    raiseCatchArmsLoopBody context arms aborts mayRaise handled armIndex
  | .raiseStatementSummary context statement => raiseStatementSummaryBody context statement
  | .summaryCatchArmsLoop context arms aborts mayRaise handled raise armIndex =>
    summaryCatchArmsLoopBody context arms aborts mayRaise handled raise armIndex
  | .expressionHasBreak context depth labels expression =>
    expressionHasBreakBody context depth labels expression
  | .statementHasBreak context depth labels statement =>
    statementHasBreakBody context depth labels statement
  | .statementsHaveBreak context depth labels statements =>
    statementsHaveBreakBody context depth labels statements
  | .breakArmsLoop context depth labels scrutinee arms isCatchMatch aborts mayRaise armIndex =>
    breakArmsLoopBody context depth labels scrutinee arms isCatchMatch aborts mayRaise armIndex

end Elisa.Semantic.RegionFlow
