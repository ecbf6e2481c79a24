import Elisa.Backend.ConstFold

/-!
# Static-if selection

A file keeps the declarations of every branch of every `static if`, and a table has a row for each
branch.  Which branches are live is decided by `selected_static_if_rows` (`codegen_static_if.elisa`)
in one loop over the rows (`selectRowsLoop`); the declarations of the selected branches are kept by
`flattenStaticBranches`.

What a condition evaluates to is a function of its row here; in the source it is `fold_const_expr`
under the constants known so far.
-/

namespace Elisa.Backend

/-! ## Files -/

inductive BranchKind where
  | chainHead
  | chainContinuation
  | fallback
deriving DecidableEq

/-- A row of the static-if table: one branch, in source order.  `offset` is the
source position that identifies the scope of its body. -/
structure StaticIfRow where
  kind : BranchKind
  depth : Nat
  cond : ConstExpr
  module : Bytes
  offset : Nat
deriving DecidableEq

structure ConstDecl where
  name : Bytes
  type : Option ScalarType
  value : ConstExpr
deriving DecidableEq

/-- A declaration.  A scope is the body of a static branch or of an `impl`; a
nested module carries its qualified name. -/
inductive Decl where
  | const (decl : ConstDecl)
  | scoped (body : List Decl) (offset : Nat)
  | module (name : Bytes) (body : List Decl)
  | other

structure SourceFile where
  topDecls : List Decl
  staticIfRows : List StaticIfRow

/-! ## Keeping the selected branches -/

mutual

def flattenDecl (branchOffsets takenOffsets : List Nat) : Decl → List Decl
  | .scoped body offset =>
    if offset ∈ branchOffsets ∧ offset ∉ takenOffsets then []
    else flattenStaticBranches branchOffsets takenOffsets body
  | .module name body => [.module name (flattenStaticBranches branchOffsets takenOffsets body)]
  | .const decl => [.const decl]
  | .other => [.other]

def flattenStaticBranches (branchOffsets takenOffsets : List Nat) : List Decl → List Decl
  | [] => []
  | declaration :: decls =>
    flattenDecl branchOffsets takenOffsets declaration ++
      flattenStaticBranches branchOffsets takenOffsets decls

end

def staticIfOffsetsForRows (file : SourceFile) (takenRows : List Nat) : List Nat :=
  takenRows.filterMap fun row => file.staticIfRows[row]?.map StaticIfRow.offset

/-! ## Selecting branches -/

inductive RowAction where
  | skip
  | selectFallback
  | evaluateCondition
deriving DecidableEq

def rowAction (kind : BranchKind) (previouslySatisfied : Bool) : RowAction :=
  if previouslySatisfied ∧ kind ≠ .chainHead then .skip
  else if kind = .chainHead ∨ kind = .chainContinuation then .evaluateCondition
  else if kind = .fallback then .selectFallback
  else .skip

/-- A condition that does not fold counts as false. -/
def conditionSelectsBranch (condition : Option Int64) : Bool :=
  match condition with
  | some value => value != 0
  | none => false

/-- The row loop.  Whether a chain is satisfied is recorded by nesting depth. -/
def selectRowsLoop (evaluate : StaticIfRow → Option Int64) :
    List StaticIfRow → Nat → (Nat → Bool) → List Nat
  | [], _, _ => []
  | row :: rows, index, satisfied =>
    let satisfied :=
      if row.kind = .chainHead then Function.update satisfied row.depth false else satisfied
    match rowAction row.kind (satisfied row.depth) with
    | .skip => selectRowsLoop evaluate rows (index + 1) satisfied
    | .selectFallback =>
      index :: selectRowsLoop evaluate rows (index + 1)
        (Function.update satisfied row.depth true)
    | .evaluateCondition =>
      if conditionSelectsBranch (evaluate row) then
        index :: selectRowsLoop evaluate rows (index + 1)
          (Function.update satisfied row.depth true)
      else selectRowsLoop evaluate rows (index + 1) satisfied

end Elisa.Backend
