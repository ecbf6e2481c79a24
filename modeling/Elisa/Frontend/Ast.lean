import Elisa.Lexer.Cursor

/-!
# The syntax tree

The nodes of `ast_nodes.elisa` and the side tables they hold (`ast_side_tables.elisa`), as a tree
instead of a store of handles.  Statements, and the arms of a match, carry the position of their
head; of the expressions only those with arms do.
-/

namespace Elisa.Ast

open Lexer (TokenKind)

/-- A stretch of the source. -/
structure Pos where
  line : Nat
  column : Nat
  offset : Nat
  endLine : Nat
  endColumn : Nat
  endOffset : Nat
  deriving DecidableEq

/-- The position of a node that no token of the source stands for. -/
def Pos.none : Pos := ⟨0, 0, 0, 0, 0, 0⟩

def Pos.atLine (line : Nat) : Pos := ⟨line, 0, 0, line, 0, 0⟩

inductive Pattern where
  | wildcard
  | literal (text : Bytes)
  | binding (name : Bytes)
  | pin (name : Bytes)
  | variant (path : Bytes) (fields : List Pattern)
  | struct (path : Bytes) (fields : List Pattern)
  | field (selector : Bytes) (inner : List Pattern)
  | tuple (elements : List Pattern)
  | rest (name : Bytes)
  | or (options : List Pattern)
  | typeBind (type binder : Bytes)
  | range (lo hi : Bytes) (inclusive : Bool)
  | asName (name : Bytes) (inner : List Pattern)
  | other (text : Bytes)

mutual

inductive Expr where
  | invalid
  | absent
  | intLit (value : Int64)
  | floatLit (text : Bytes)
  | stringLit (text : Bytes)
  | charLit (text : Bytes)
  | boolLit (value : Bool)
  | ident (name : Bytes)
  | call (callee : Expr) (arguments : List Expr) (argumentNames : List Bytes)
  | staticEffectCall (effectType : Expr) (operation : Bytes)
      (candidates : List StaticEffectCandidate) (arguments : List Expr)
      (argumentNames : List Bytes)
  | field (object : Expr) (field : Bytes)
  | scope (base : Expr) (name : Bytes)
  | shorthandMember (parts : List Bytes)
  | index (object index : Expr)
  | slice (object low high : Expr)
  | indexN (object : Expr) (arguments : List Expr)
  | binary (left : Expr) (operator : TokenKind) (right : Expr)
  | unary (operator : TokenKind) (operand : Expr)
  | move (operand : Expr)
  | regionNew (operand : Expr) (region : Bytes)
  | paren (inner : Expr)
  | array (elements : List Expr)
  | tuple (elements : List Expr)
  | setLit (elements : List Expr)
  | dictLit (entries : List DictEntry)
  | construct (type : Expr) (fields : List FieldInit)
  | recordUpdate (base : Expr) (fields : List FieldInit)
  | ifExpr (condition thenExpr elseExpr : Expr)
  | matchExpr (scrutinee : Expr) (arms : List MatchArm) (pos : Pos)
  | catchExpr (guarded : Expr) (arms : List MatchArm) (pos : Pos)
  | comprehension (var : Bytes) (iterable condition body : Expr)
  | refinement (base predicate : Expr)
  | getElse (guarded : Expr) (recovery : List Stmt)
  | lambda (params : List Bytes) (body : List Stmt)
  | block (stmts : List Stmt) (value : Expr) (captures : List Bytes)

inductive Stmt where
  | invalid
  | expr (expression : Expr) (pos : Pos)
  | block (kind : Bytes) (clause : List Bytes) (binding : Bytes) (body : List Stmt) (pos : Pos)
  | varDecl (name : Bytes) (typeExpression value : Expr) (pos : Pos)
  | assign (target : Expr) (operator : TokenKind) (value : Expr) (pos : Pos)
  | ifStmt (condition : Expr) (thenBody elseBody : List Stmt) (pos : Pos)
  | whileStmt (condition : Expr) (body : List Stmt) (pos : Pos)
  | forStmt (bind : Bytes) (loopVars : List Bytes) (iterable : Expr) (body : List Stmt) (pos : Pos)
  | returnStmt (value : Option Expr) (pos : Pos)
  | breakStmt (label : Bytes) (pos : Pos)
  | continueStmt (label : Bytes) (pos : Pos)
  | matchStmt (scrutinee : Expr) (arms : List MatchArm) (pos : Pos)
  | contract (kind : Bytes) (expression : Expr) (pos : Pos)

inductive MatchArm where
  | mk (pattern : Pattern) (body : List Stmt) (guard : Expr) (pos : Pos)

/-- The value of a field in a construction or a record update. -/
inductive FieldInit where
  | mk (name : Bytes) (value : Expr) (isCopyBase : Bool)

/-- A key of a dictionary literal with its value. -/
inductive DictEntry where
  | mk (key value : Expr)

/-- A handler that an effect operation may go to, with what its call captures. -/
inductive StaticEffectCandidate where
  | mk (effectType : Expr) (callee : Bytes) (captures : List Expr)

end

structure Param where
  name : Bytes
  typeExpression : Expr

/-- Declarations: those that hold statements, and the scopes that hold those. -/
inductive Decl where
  | func (name : Bytes) (params : List Param) (returnType : Option Expr) (body : List Stmt)
      (pos : Pos)
  | module (name : Bytes) (body : List Decl) (pos : Pos)
  | scoped (body : List Decl) (pos : Pos)
  | other

namespace MatchArm

def pattern : MatchArm → Pattern
  | mk pattern _ _ _ => pattern

def body : MatchArm → List Stmt
  | mk _ body _ _ => body

def guard : MatchArm → Expr
  | mk _ _ guard _ => guard

def pos : MatchArm → Pos
  | mk _ _ _ pos => pos

@[simp] theorem pattern_mk (p : Pattern) (b : List Stmt) (g : Expr) (at_ : Pos) :
    (mk p b g at_).pattern = p := rfl

@[simp] theorem body_mk (p : Pattern) (b : List Stmt) (g : Expr) (at_ : Pos) :
    (mk p b g at_).body = b := rfl

@[simp] theorem guard_mk (p : Pattern) (b : List Stmt) (g : Expr) (at_ : Pos) :
    (mk p b g at_).guard = g := rfl

end MatchArm

namespace FieldInit

def value : FieldInit → Expr
  | mk _ value _ => value

end FieldInit

namespace DictEntry

def key : DictEntry → Expr
  | mk key _ => key

def value : DictEntry → Expr
  | mk _ value => value

end DictEntry

namespace StaticEffectCandidate

def captures : StaticEffectCandidate → List Expr
  | mk _ _ captures => captures

end StaticEffectCandidate

namespace Expr

def isAbsent : Expr → Bool
  | absent => true
  | _ => false

/-- The name of an identifier, in parentheses or not, and no name otherwise
(`ident_name_of`). -/
def identNameOf : Expr → Bytes
  | ident name => name
  | paren inner => identNameOf inner
  | _ => []

end Expr

namespace Stmt

def pos : Stmt → Pos
  | invalid => Pos.none
  | expr _ pos | block _ _ _ _ pos | varDecl _ _ _ pos | assign _ _ _ pos | ifStmt _ _ _ pos
  | whileStmt _ _ pos | forStmt _ _ _ _ pos | returnStmt _ pos | breakStmt _ pos
  | continueStmt _ pos | matchStmt _ _ pos | contract _ _ pos => pos

end Stmt

end Elisa.Ast
