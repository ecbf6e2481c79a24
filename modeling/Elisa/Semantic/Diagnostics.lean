import Elisa.Frontend.Ast

/-!
# Diagnostics

What the semantic checks report (`Diagnostic` and `DiagnosticKind` of `semantic_types.elisa`), with
the kinds that the checks of this development report.
-/

namespace Elisa.Semantic

inductive DiagnosticKind where
  | unreachableMatchArm
  | contradictoryRequires
  | loopInvariantNotPreserved
  | structuralDecreasesUnproven
  | matchArmEnumType
  | nonExhaustiveMatch
  | nonExhaustiveOpenExternEnum
  | progressRecursiveCycle
  deriving DecidableEq

/-- A finding.  `pos` is the stretch it is about, where the check had one at hand. -/
structure Diagnostic where
  name : Bytes
  line : Nat
  pos : Ast.Pos := Ast.Pos.none
  kind : DiagnosticKind
  expected : Bytes := []
  actual : Bytes := []
  detail : Bytes := []
  deriving DecidableEq

end Elisa.Semantic
