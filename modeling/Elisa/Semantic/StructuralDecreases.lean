import Elisa.Semantic.Diagnostics
import Elisa.Semantic.StatementExecution

/-!
# Recursion on the parts of a value

`check_structural_decreases` looks at functions with a clause `decreases t` for a parameter of enum
type.  It collects the names that matches on `t`, and on names so collected, bind, and wants every
recursive call to pass one of them.
-/

namespace Elisa.Semantic.Decreases

open Ast Lexer

mutual

def decreasesPatternBindings : Pattern → List Bytes
  | .binding name => [name]
  | .asName name inner => name :: allPatternBindings inner
  | .typeBind _ binder => [binder]
  | .variant _ fields | .struct _ fields => allPatternBindings fields
  | .field _ inner => allPatternBindings inner
  | .tuple elements => allPatternBindings elements
  | .or options => allPatternBindings options
  | _ => []

def allPatternBindings : List Pattern → List Bytes
  | [] => []
  | pattern :: rest => decreasesPatternBindings pattern ++ allPatternBindings rest

end

/-- What has been collected.  The subject itself is no smaller than itself. -/
structure Collected where
  destructurable : List Bytes
  smaller : List Bytes

def Collected.bind (known : Collected) (names : List Bytes) : Collected where
  destructurable := known.destructurable ++ names
  smaller := known.smaller ++ names

mutual

def decreasesCollectSmaller : List Stmt → Collected → Collected
  | [], known => known
  | statement :: rest, known => decreasesCollectSmaller rest (collectStatement statement known)

def collectStatement : Stmt → Collected → Collected
  | .matchStmt scrutinee arms _, known =>
    collectArms
      (scrutinee.identNameOf ≠ [] && known.destructurable.contains scrutinee.identNameOf) arms known
  | .ifStmt _ thenBody elseBody _, known =>
    decreasesCollectSmaller elseBody (decreasesCollectSmaller thenBody known)
  | .whileStmt _ body _, known => decreasesCollectSmaller body known
  | .block _ _ _ body _, known => decreasesCollectSmaller body known
  | _, known => known

def collectArms (destructures : Bool) : List MatchArm → Collected → Collected
  | [], known => known
  | .mk pattern body _ _ :: rest, known =>
    collectArms destructures rest (decreasesCollectSmaller body
      (if destructures then known.bind (decreasesPatternBindings pattern) else known))

end

section Verdict

variable (own : Bytes) (position : Nat) (smaller : List Bytes)

mutual

/-- Whether a recursive call passes something else than a collected name. -/
def decreasesCallIsUnproven : Expr → Bool
  | .call callee arguments _ =>
    (callee.identNameOf = own && arguments[position]?.any fun argument =>
        !smaller.contains argument.identNameOf) ||
      anyIsUnproven arguments
  | .binary left _ right => decreasesCallIsUnproven left || decreasesCallIsUnproven right
  | .paren inner => decreasesCallIsUnproven inner
  | .unary _ operand => decreasesCallIsUnproven operand
  | _ => false

def anyIsUnproven : List Expr → Bool
  | [] => false
  | expression :: rest => decreasesCallIsUnproven expression || anyIsUnproven rest

end

mutual

def decreasesBodyIsUnproven : List Stmt → Bool
  | [] => false
  | statement :: rest => statementIsUnproven statement || decreasesBodyIsUnproven rest

def statementIsUnproven : Stmt → Bool
  | .returnStmt (some returned) _ => decreasesCallIsUnproven own position smaller returned
  | .expr expression _ => decreasesCallIsUnproven own position smaller expression
  | .varDecl _ _ value _ => decreasesCallIsUnproven own position smaller value
  | .assign _ _ value _ => decreasesCallIsUnproven own position smaller value
  | .matchStmt _ arms _ => armsAreUnproven arms
  | .ifStmt _ thenBody elseBody _ =>
    decreasesBodyIsUnproven thenBody || decreasesBodyIsUnproven elseBody
  | .whileStmt _ body _ => decreasesBodyIsUnproven body
  | .block _ _ _ body _ => decreasesBodyIsUnproven body
  | _ => false

def armsAreUnproven : List MatchArm → Bool
  | [] => false
  | .mk _ body _ _ :: rest => decreasesBodyIsUnproven body || armsAreUnproven rest

end

end Verdict

def decreasesSubject : List Stmt → Bytes
  | [] => []
  | .contract kind expression _ :: rest =>
    if kind = ascii "decreases" ∧ expression.identNameOf ≠ [] then expression.identNameOf
    else decreasesSubject rest
  | _ :: rest => decreasesSubject rest

def bareTypeName : Expr → Bytes
  | .unary operator operand => if operator = .kwMutable then bareTypeName operand else []
  | .ident name => name
  | _ => []

def subjectPosition (enumNames : List Bytes) (subject : Bytes) (params : List Param) : Option Nat :=
  params.findIdx? fun param =>
    param.name = subject && enumNames.contains (bareTypeName param.typeExpression)

def smallerNames (subject : Bytes) (body : List Stmt) : List Bytes :=
  (decreasesCollectSmaller body { destructurable := [subject], smaller := [] }).smaller

def checkFunction (enumNames : List Bytes) (name : Bytes) (params : List Param) (body : List Stmt)
    (pos : Pos) : List Diagnostic :=
  let subject := decreasesSubject body
  if subject = [] then []
  else
    match subjectPosition enumNames subject params with
    | none => []
    | some position =>
      if decreasesBodyIsUnproven name position (smallerNames subject body) body then
        [{ kind := .structuralDecreasesUnproven, name, line := pos.line }]
      else []

mutual

def checkStructuralDecreasesWalk (enumNames : List Bytes) : List Decl → List Diagnostic
  | [] => []
  | declaration :: rest =>
    checkDeclaration enumNames declaration ++ checkStructuralDecreasesWalk enumNames rest

def checkDeclaration (enumNames : List Bytes) : Decl → List Diagnostic
  | .func name params _ body pos => checkFunction enumNames name params body pos
  | .module _ body _ => checkStructuralDecreasesWalk enumNames body
  | .scoped body _ => checkStructuralDecreasesWalk enumNames body
  | .other => []

end

def checkStructuralDecreases (enumNames : List Bytes) (declarations : List Decl) :
    List Diagnostic :=
  if enumNames.isEmpty then [] else checkStructuralDecreasesWalk enumNames declarations

end Elisa.Semantic.Decreases
