import Mathlib.Data.List.Nodup
import Elisa.Backend.ConstFold

/-!
# Resolving the constants of a file

`foldConsts` (`codegen_const_folding_exprs.elisa`) folds the initialisers of the constants of a
file, in passes over the declarations, until one resolves nothing more.  It works on the table that
the registration of the constants leaves: one row for each owner and name, with a type, and with the
text of a literal.  A constant of a floating-point type is folded by `foldConstFloatExpr`, every
other one by `foldConstExpr`, and each reads the constants of the other kind as far as their rows
carry a value for it.

A name is looked up from `visibility.current_owner`: a fold sets it to the module of the constant, a
qualified name to the module that the qualifier names, and each puts back what it found.
`FloatArithmetic` stands for `f64` and the decimal parser of LLVM, an alias table for
`module_alias_chain_target`.
-/

namespace Elisa.Backend.Constants

/-- `f64`, with the value LLVM reads off a literal. -/
structure FloatArithmetic (F : Type) where
  ofText : Bytes → F
  ofInt : Int64 → F
  zero : F
  isZero : F → Bool
  add : F → F → F
  sub : F → F → F
  mul : F → F → F
  div : F → F → F

/-! ## Declarations -/

inductive ConstKind where
  | scalar (type : ScalarType)
  | float
  | cstr
  | sview
  | other
deriving DecidableEq

/-- An initialiser.  A string literal carries its lengths, decoded, with and without what follows
its first NUL; a field the value of the enum member it spells, if it spells one; a cast whether its
type is a floating-point one.  `other` is everything both folders reject. -/
inductive Initializer where
  | intLit (value : Int64)
  | boolLit (value : Bool)
  | charLit (code : UInt8)
  | floatLit (text : Bytes)
  | stringLit (bytes untilNul : Int64)
  | ident (name : Bytes)
  | scope (module name : Bytes)
  | nestedScope (root module name : Bytes)
  | field (receiver : Initializer) (isLen : Bool) (member : Option Int64)
  | paren (inner : Initializer)
  | unary (operator : TokenKind) (operand : Initializer)
  | cast (object : Initializer) (toFloat : Bool)
  | binary (left : Initializer) (operator : TokenKind) (right : Initializer)
  | conditional (condition thenValue elseValue : Initializer)
  | other
deriving DecidableEq

/-- The expression under any parentheses (`paren_stripped_expression`). -/
def Initializer.stripped : Initializer → Initializer
  | .paren inner => inner.stripped
  | e => e

def Initializer.isPath : Initializer → Bool
  | .ident _ | .scope _ _ | .nestedScope _ _ _ => true
  | _ => false

structure Constant where
  name : Bytes
  value : Initializer
deriving DecidableEq

/-- A declaration.  A nested module carries its qualified name.  A mutable global is declared alike,
but has no row. -/
inductive Declaration where
  | const (constant : Constant)
  | module (name : Bytes) (body : List Declaration)
  | other

/-- A constant and the module it belongs to, `[]` at the top level. -/
structure Owned where
  owner : Bytes
  constant : Constant
deriving DecidableEq

abbrev Key := Bytes × Bytes

def Owned.key (c : Owned) : Key := (c.owner, c.constant.name)

mutual

/-- The constants a declaration holds, at any depth, each with its module. -/
def declaredOf (owner : Bytes) : Declaration → List Owned
  | .const constant => [⟨owner, constant⟩]
  | .module name body => declared name body
  | .other => []

def declared (owner : Bytes) : List Declaration → List Owned
  | [] => []
  | declaration :: decls => declaredOf owner declaration ++ declared owner decls

end

/-! ## The constant table -/

/-- The decoded length of a string literal, and the part of it before the first NUL. -/
structure TextLiteral where
  bytes : Int64
  untilNul : Int64
deriving DecidableEq

/-- A row.  `floatText` is the text of a floating-point literal, `text` a string literal, and
`literalTyped` says that the literal gives the constant its type. -/
structure Row (F : Type) where
  owner : Bytes
  name : Bytes
  kind : ConstKind
  value : Int64
  floatText : Bytes
  floatValue : Option F
  text : Option TextLiteral
  literalTyped : Bool
  resolved : Bool
deriving DecidableEq

variable {F : Type}

def Row.key (row : Row F) : Key := (row.owner, row.name)

/-- The constant table: one row for each owner and name. -/
structure Table (F : Type) where
  rows : List (Row F)
  distinct : (rows.map Row.key).Nodup

/-- What a module alias stands for in a module. -/
abbrev Aliases := Bytes → Bytes → Option Bytes

def qualifiedOwnerMatches (candidate head rest : Bytes) : Bool :=
  head ≠ [] ∧ rest ≠ [] ∧ candidate = head ++ [colon, colon] ++ rest

def updateRow (key : Key) (f : Row F → Row F) (rows : List (Row F)) : List (Row F) :=
  rows.map fun row => if row.key = key then f row else row

theorem map_key_updateRow (key : Key) {f : Row F → Row F} (hf : ∀ row, (f row).key = row.key)
    (rows : List (Row F)) : (updateRow key f rows).map Row.key = rows.map Row.key := by
  simp only [updateRow, List.map_map]
  apply List.map_congr_left
  intro row _
  simp only [Function.comp_apply]
  split
  · exact hf row
  · rfl

namespace Table

def indexOfIn (table : Table F) (owner name : Bytes) : Option (Row F) :=
  table.rows.find? fun row => row.key = (owner, name)

/-- `const_index_of`: the row a bare name stands for.  The enclosing module wins, then the top
level, then any module. -/
def indexOf (table : Table F) (currentOwner name : Bytes) : Option (Row F) :=
  (if currentOwner = [] then none else table.indexOfIn currentOwner name) <|>
    table.indexOfIn [] name <|> table.rows.find? fun row => row.name = name

def ownerOf (table : Table F) (head rest : Bytes) : Option Bytes :=
  (table.rows.find? fun row => qualifiedOwnerMatches row.owner head rest).map Row.owner

def scopeOwner (table : Table F) (aliases : Aliases) (currentOwner module : Bytes) : Bytes :=
  match (aliases currentOwner module).filter (· ≠ module) with
  | some target => target
  | none =>
    if currentOwner = [] then module
    else (table.ownerOf currentOwner module).getD module

end Table

/-! ## The folders -/

/-- What `.len` of a text constant counts: every byte, or those before the first NUL. -/
def Row.textLength (row : Row F) : Option Int64 :=
  row.text.bind fun text =>
    if row.literalTyped then some text.bytes
    else
      match row.kind with
      | .sview => some text.bytes
      | .cstr => some text.untilNul
      | _ => none

/-- The value an integer fold reads off a row: a resolved constant of an integer or `bool` type. -/
def Row.intValue? (row : Row F) : Option Int64 :=
  match row.kind with
  | .scalar _ => if row.resolved then some row.value else none
  | _ => none

/-- The value a floating-point fold reads off a row: its own, that of its literal, or the integer
of a resolved integer constant. -/
def Row.floatValue? (floats : FloatArithmetic F) (row : Row F) : Option F :=
  match row.floatValue with
  | some value => some value
  | none =>
    if row.floatText ≠ [] then some (floats.ofText row.floatText)
    else
      match row.kind with
      | .scalar .bool => none
      | .scalar _ => if row.resolved then some (floats.ofInt row.value) else none
      | _ => none

def foldFloatUnaryValue (floats : FloatArithmetic F) (operator : TokenKind) (operand : F) : F :=
  match operator with
  | .minus => floats.sub floats.zero operand
  | .plus => operand
  -- Any other operator yields zero, and the fold still counts as done.
  | _ => floats.zero

def foldFloatBinaryValues (floats : FloatArithmetic F) (left : F) (operator : TokenKind)
    (right : F) : Option F :=
  match operator with
  | .plus => some (floats.add left right)
  | .minus => some (floats.sub left right)
  | .star => some (floats.mul left right)
  | .slash => if floats.isZero right then none else some (floats.div left right)
  | _ => none

section
variable (table : Table F) (aliases : Aliases)

mutual

/-- `fold_const_expr`, with `fold_const_atom`.  The second argument and the second result are the
current owner. -/
def foldConstExpr : Initializer → Bytes → Option Int64 × Bytes
  | .intLit value, owner => (some value, owner)
  | .boolLit value, owner => (some (flag (value = true)), owner)
  | .charLit code, owner => (some code.toUInt64.toInt64, owner)
  | .ident name, owner => ((table.indexOf owner name).bind Row.intValue?, owner)
  | .scope module name, saved =>
    let owner := table.scopeOwner aliases saved module
    ((table.indexOf owner name).bind Row.intValue?, saved)
  | .nestedScope root module name, saved =>
    match table.ownerOf root module with
    | some owner => ((table.indexOf owner name).bind Row.intValue?, saved)
    | none => (none, saved)
  | .field receiver isLen member, owner =>
    let (length, owner) := if isLen then constEvalStringLen receiver owner else (none, owner)
    (length <|> (if receiver.isPath then member else none), owner)
  | .paren inner, owner => foldConstExpr inner owner
  | .unary operator operand, owner =>
    let (operandValue, owner) := foldConstExpr operand owner
    (operandValue.bind (foldConstUnaryValue operator), owner)
  | .cast object _, owner => foldConstExpr object owner
  | .binary left operator right, owner =>
    let (leftValue, owner) := foldConstExpr left owner
    let (rightValue, owner) := foldConstExpr right owner
    (leftValue.bind fun l => rightValue.bind fun r => foldConstBinaryValues l operator r, owner)
  | .floatLit _, owner | .stringLit _ _, owner | .conditional _ _ _, owner | .other, owner =>
    (none, owner)

/-- `const_eval_string_len`: the length of a text that is known when the program is compiled. -/
def constEvalStringLen : Initializer → Bytes → Option Int64 × Bytes
  | .paren inner, owner => constEvalStringLen inner owner
  | .stringLit bytes _, owner => (some bytes, owner)
  | .ident name, owner => ((table.indexOf owner name).bind Row.textLength, owner)
  | .conditional condition thenValue elseValue, owner =>
    let (conditionValue, owner) := foldConstExpr condition owner
    match conditionValue with
    | none => (none, owner)
    | some value =>
      if value ≠ 0 then constEvalStringLen thenValue owner
      else constEvalStringLen elseValue owner
  | .intLit _, owner | .boolLit _, owner | .charLit _, owner | .floatLit _, owner
  | .scope _ _, owner | .nestedScope _ _ _, owner | .field _ _ _, owner | .unary _ _, owner
  | .cast _ _, owner | .binary _ _ _, owner | .other, owner => (none, owner)

end

def foldConstFloatExpr (floats : FloatArithmetic F) : Initializer → Bytes → Option F × Bytes
  | .floatLit text, owner => (some (floats.ofText text), owner)
  | .intLit value, owner => (some (floats.ofInt value), owner)
  | .paren inner, owner => foldConstFloatExpr floats inner owner
  | .ident name, owner => ((table.indexOf owner name).bind (Row.floatValue? floats), owner)
  | .scope module name, saved =>
    let owner := table.scopeOwner aliases saved module
    ((table.indexOf owner name).bind (Row.floatValue? floats), saved)
  | .nestedScope root module name, saved =>
    match table.ownerOf root module with
    | some owner => ((table.indexOf owner name).bind (Row.floatValue? floats), saved)
    | none => (none, saved)
  | .unary operator operand, owner =>
    let (operandValue, owner) := foldConstFloatExpr floats operand owner
    (operandValue.map (foldFloatUnaryValue floats operator), owner)
  | .cast object true, owner => foldConstFloatExpr floats object owner
  | .binary left operator right, owner =>
    let (leftValue, owner) := foldConstFloatExpr floats left owner
    let (rightValue, owner) := foldConstFloatExpr floats right owner
    (leftValue.bind fun l => rightValue.bind fun r => foldFloatBinaryValues floats l operator r,
      owner)
  | .cast _ false, owner | .boolLit _, owner | .charLit _, owner | .stringLit _ _, owner
  | .field _ _ _, owner | .conditional _ _ _, owner | .other, owner => (none, owner)

end

/-! ## Folding the declared constants -/

def Row.storeInt (value : Int64) (row : Row F) : Row F :=
  { row with value := value, resolved := true }

def Row.storeFloat (value : F) (row : Row F) : Row F :=
  { row with floatValue := some value, resolved := true }

def Table.update (table : Table F) (key : Key) (f : Row F → Row F)
    (hf : ∀ row, (f row).key = row.key) : Table F where
  rows := updateRow key f table.rows
  distinct := by
    rw [map_key_updateRow key hf]
    exact table.distinct

/-- What a fold pass works on: the table, the current owner, and whether the pass made
progress. -/
structure FoldState (F : Type) where
  table : Table F
  currentOwner : Bytes
  progressed : Bool

section
variable (floats : FloatArithmetic F) (aliases : Aliases)

def foldConst (c : Owned) (state : FoldState F) : FoldState F :=
  match state.table.indexOfIn c.owner c.constant.name with
  | none => state
  | some row =>
    if row.resolved then state
    else
      let saved := state.currentOwner
      match row.kind with
      | .float =>
        let (folded, _) :=
          foldConstFloatExpr state.table aliases floats c.constant.value c.owner
        match folded with
        | none => { state with currentOwner := saved }
        | some value =>
          ⟨state.table.update c.key (Row.storeFloat value) fun _ => rfl, saved, true⟩
      | _ =>
        let (folded, _) := foldConstExpr state.table aliases c.constant.value c.owner
        match folded with
        | none => { state with currentOwner := saved }
        | some value =>
          ⟨state.table.update c.key (Row.storeInt value) fun _ => rfl, saved, true⟩

def foldPass (top : List Declaration) (table : Table F) (currentOwner : Bytes) : FoldState F :=
  (declared [] top).foldr (foldConst floats aliases) ⟨table, currentOwner, false⟩

def foldConstsLoop (top : List Declaration) : Nat → Table F → Bytes → FoldState F
  | 0, table, currentOwner => ⟨table, currentOwner, true⟩
  | passes + 1, table, currentOwner =>
    let state := foldPass floats aliases top table currentOwner
    if state.progressed then foldConstsLoop top passes state.table state.currentOwner else state

/-- Passes over the declarations until one makes no progress, at most as many as there are
rows. -/
def foldConsts (top : List Declaration) (table : Table F) (currentOwner : Bytes) : FoldState F :=
  foldConstsLoop floats aliases top table.rows.length table currentOwner

end

end Elisa.Backend.Constants
