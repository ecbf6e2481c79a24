import Elisa.Lib.KeyedRows
import Elisa.Semantic.ConstantFolding
import Elisa.Semantic.Diagnostics
import Mathlib.Data.List.Induction

/-!
# Preconditions that contradict each other

`check_requires_contradictory.elisa` collects the comparisons of a variable with a constant from the
`requires` clauses of a function, narrows an interval of signed 64-bit numbers with each, and warns
where an interval is empty.

What a clause means is said at the types of the variables (`clauseHolds`); the intervals are about
other numbers wherever a constant folds to something else than its value at the type.  Where the
bounds are read right (`Comparison.ReadRight`) a warning is never wrong, and on signed 64-bit
variables it is given exactly when it should be (`rcWalk_right`).
-/

namespace Elisa.Semantic

open Ast Lexer Lib Lib.CheckedInt64 List

/-! ## The check -/

structure Bounds where
  lo : Int
  hi : Int
  deriving DecidableEq

def rcNegInf : Int := -9223372036854775807 - 1

def rcPosInf : Int := 9223372036854775807

def Bounds.full : Bounds := ⟨rcNegInf, rcPosInf⟩

/-- What a comparison of the variable with a value leaves of its interval. -/
def Bounds.narrow (operator : TokenKind) (value : Int) (bounds : Bounds) : Bounds :=
  match operator with
  | .gt =>
    match linearAddSafe value 1 with
    | some successor => { bounds with lo := max bounds.lo successor }
    | none => ⟨rcPosInf, rcNegInf⟩
  | .gtEq => { bounds with lo := max bounds.lo value }
  | .lt =>
    match linearSubSafe value 1 with
    | some predecessor => { bounds with hi := min bounds.hi predecessor }
    | none => ⟨rcPosInf, rcNegInf⟩
  | .ltEq => { bounds with hi := min bounds.hi value }
  | .eqEq => ⟨max bounds.lo value, min bounds.hi value⟩
  | _ => bounds

abbrev BoundsTable := List (Bytes × Bounds)

def rcApplyAtom (variable_ : Bytes) (operator : TokenKind) (value : Int) :
    BoundsTable → BoundsTable :=
  KeyedRows.modify Bounds.full variable_ (Bounds.narrow operator value)

def rcFlipOperator : TokenKind → TokenKind
  | .gt => .lt
  | .lt => .gt
  | .gtEq => .ltEq
  | .ltEq => .gtEq
  | operator => operator

/-- Record the comparison of an operand with another, if it is a variable and the other folds. -/
def rcApplyOperand (operand : Expr) (operator : TokenKind) (other : Expr) (table : BoundsTable) :
    BoundsTable :=
  match operand with
  | .ident name =>
    match foldConstInt other with
    | some value => rcApplyAtom name operator value table
    | none => table
  | _ => table

/-- Split a predicate into atoms and record them. -/
def rcCollectPredicate : Expr → BoundsTable → BoundsTable
  | .paren inner, table => rcCollectPredicate inner table
  | .binary left operator right, table =>
    if operator = .kwAnd then rcCollectPredicate right (rcCollectPredicate left table)
    else rcApplyOperand right (rcFlipOperator operator) left
      (rcApplyOperand left operator right table)
  | _, table => table

def requiresOf : List Stmt → List Expr
  | [] => []
  | .contract kind expression _ :: rest =>
    if kind = ascii "requires" then expression :: requiresOf rest else requiresOf rest
  | _ :: rest => requiresOf rest

def rcTable (body : List Stmt) : BoundsTable :=
  (requiresOf body).foldl (fun table predicate => rcCollectPredicate predicate table) []

def rcContradictory (body : List Stmt) : Bool :=
  (rcTable body).any fun row => row.2.lo > row.2.hi

mutual

def rcWalk : List Decl → List Diagnostic
  | [] => []
  | declaration :: rest => rcDeclaration declaration ++ rcWalk rest

def rcDeclaration : Decl → List Diagnostic
  | .func functionName _ _ body pos =>
    if rcContradictory body then
      [{ kind := .contradictoryRequires, name := functionName, line := pos.line }]
    else []
  | .module _ moduleBody _ => rcWalk moduleBody
  | .scoped scopedBody _ => rcWalk scopedBody
  | .other => []

end

/-! ## What the clauses mean -/

def relationOf : TokenKind → Option (Int → Int → Prop)
  | .eqEq => some (· = ·)
  | .bangEq => some (· ≠ ·)
  | .lt => some (· < ·)
  | .gt => some (· > ·)
  | .ltEq => some (· ≤ ·)
  | .gtEq => some (· ≥ ·)
  | _ => none

section Meaning

variable (types : Bytes → IntegerType) (other : Expr → Prop) (env : Bytes → Int)

/-- Whether `operand operator constant` holds, computed at the type of the variable.  What a
comparison of anything else means is left open. -/
def operandHolds (relation : Int → Int → Prop) (name : Bytes) (constant : Expr) : Prop :=
  ∃ value, evaluateConst (types name) constant = some value ∧ relation (env name) value

def comparisonHolds (left : Expr) (operator : TokenKind) (right : Expr) : Prop :=
  match relationOf operator, left, right with
  | some relation, .ident name, constant =>
    if isConstant constant then operandHolds types env relation name constant
    else other (.binary left operator right)
  | some relation, constant, .ident name =>
    if isConstant constant then operandHolds types env (fun v k => relation k v) name constant
    else other (.binary left operator right)
  | _, _, _ => other (.binary left operator right)

/-- Whether a clause holds.  `other` is what is not a comparison of a variable with a constant. -/
def clauseHolds : Expr → Prop
  | .paren inner => clauseHolds inner
  | .binary left operator right =>
    if operator = .kwAnd then clauseHolds left ∧ clauseHolds right
    else comparisonHolds types other env left operator right
  | expression => other expression

end Meaning

/-! ## The comparisons of a clause -/

structure Comparison where
  name : Bytes
  operator : TokenKind
  constant : Expr

def operandComparisons (operand : Expr) (operator : TokenKind) (other : Expr) : List Comparison :=
  match operand with
  | .ident name => [⟨name, operator, other⟩]
  | _ => []

def comparisonsOf : Expr → List Comparison
  | .paren inner => comparisonsOf inner
  | .binary left operator right =>
    if operator = .kwAnd then comparisonsOf left ++ comparisonsOf right
    else operandComparisons left operator right ++
      operandComparisons right (rcFlipOperator operator) left
  | _ => []

def requiredComparisons (body : List Stmt) : List Comparison :=
  (requiresOf body).flatMap comparisonsOf

def Comparison.record (table : BoundsTable) (comparison : Comparison) : BoundsTable :=
  match foldConstInt comparison.constant with
  | some value => rcApplyAtom comparison.name comparison.operator value table
  | none => table

theorem rcApplyOperand_eq (operand : Expr) (operator : TokenKind) (other : Expr)
    (table : BoundsTable) : rcApplyOperand operand operator other table =
      (operandComparisons operand operator other).foldl Comparison.record table := by
  cases operand with
  | ident name => rfl
  | _ => rfl

theorem rcCollectPredicate_eq (predicate : Expr) (table : BoundsTable) :
    rcCollectPredicate predicate table =
      (comparisonsOf predicate).foldl Comparison.record table := by
  fun_induction rcCollectPredicate predicate table with
  | case1 table inner ih => rw [ih, comparisonsOf]
  | case2 table left right ihLeft ihRight =>
    rw [ihRight, ihLeft, comparisonsOf, if_pos rfl, foldl_append]
  | case3 table left operator right notAnd =>
    rw [comparisonsOf, if_neg notAnd, foldl_append, rcApplyOperand_eq, rcApplyOperand_eq]
  | case4 expression table notParen notBinary =>
    rw [comparisonsOf]
    · rfl
    · exact notParen
    · exact notBinary

theorem rcTable_eq (body : List Stmt) :
    rcTable body = (requiredComparisons body).foldl Comparison.record [] := by
  rw [rcTable, requiredComparisons, foldl_flatMap]
  simp only [rcCollectPredicate_eq]

def boundsAfter (comparisons : List Comparison) (name : Bytes) : Bounds :=
  KeyedRows.valueAt Bounds.full (comparisons.foldl Comparison.record []) name

theorem record_nodup {table : BoundsTable} (once : (table.map Prod.fst).Nodup)
    (comparison : Comparison) : ((comparison.record table).map Prod.fst).Nodup := by
  rw [Comparison.record]
  split
  · exact KeyedRows.nodup_modify _ once
  · exact once

theorem foldl_record_nodup (comparisons : List Comparison) {table : BoundsTable}
    (once : (table.map Prod.fst).Nodup) :
    ((comparisons.foldl Comparison.record table).map Prod.fst).Nodup := by
  induction comparisons generalizing table with
  | nil => exact once
  | cons first rest ih => exact ih (record_nodup once first)

theorem rcContradictory_iff (body : List Stmt) :
    rcContradictory body = true ↔
      ∃ name, (boundsAfter (requiredComparisons body) name).hi <
        (boundsAfter (requiredComparisons body) name).lo := by
  rw [rcContradictory, any_eq_true, rcTable_eq]
  simp only [gt_iff_lt, decide_eq_true_eq]
  exact KeyedRows.exists_row_iff (P := fun bounds : Bounds => bounds.hi < bounds.lo)
    (@foldl_record_nodup _ [] nodup_nil) (by decide)

theorem boundsAfter_snoc (comparisons : List Comparison) (comparison : Comparison)
    (name : Bytes) :
    boundsAfter (comparisons ++ [comparison]) name =
      match foldConstInt comparison.constant with
      | some value =>
        if name = comparison.name then
          (boundsAfter comparisons name).narrow comparison.operator value
        else boundsAfter comparisons name
      | none => boundsAfter comparisons name := by
  rw [boundsAfter, foldl_append, foldl_cons, foldl_nil, Comparison.record]
  split
  next value folds =>
    rw [rcApplyAtom, KeyedRows.valueAt_modify]
    split
    next same => rw [same]; rfl
    next => rfl
  next => rfl

/-! ## What the intervals say -/

def isBounding (operator : TokenKind) : Bool :=
  operator = .gt ∨ operator = .gtEq ∨ operator = .lt ∨ operator = .ltEq ∨ operator = .eqEq

def Satisfies (operator : TokenKind) (number value : Int) : Prop :=
  ∀ relation, relationOf operator = some relation → relation value number

def Bounds.Contains (bounds : Bounds) (value : Int) : Prop :=
  bounds.lo ≤ value ∧ value ≤ bounds.hi

variable {value : Int}

theorem linearAddSafe_one (fits : InRange value) :
    linearAddSafe value 1 = if value = linearI64Max then none else some (value + 1) := by
  rw [linearAddSafe]
  refine if_congr ?_ rfl rfl
  simp only [linearI64Max, linearI64Min, InRange] at *
  omega

theorem linearSubSafe_one (fits : InRange value) :
    linearSubSafe value 1 = if value = linearI64Min then none else some (value - 1) := by
  rw [linearSubSafe]
  refine if_congr ?_ rfl rfl
  simp only [linearI64Max, linearI64Min, InRange] at *
  omega

variable {number : Int}

theorem Bounds.narrow_gt (fits : InRange number) (bounds : Bounds) :
    bounds.narrow .gt number = if number = linearI64Max then ⟨rcPosInf, rcNegInf⟩
      else { bounds with lo := max bounds.lo (number + 1) } := by
  rw [narrow, linearAddSafe_one fits]
  by_cases greatest : number = linearI64Max
  · rw [if_pos greatest, if_pos greatest]
  · rw [if_neg greatest, if_neg greatest]

theorem Bounds.narrow_lt (fits : InRange number) (bounds : Bounds) :
    bounds.narrow .lt number = if number = linearI64Min then ⟨rcPosInf, rcNegInf⟩
      else { bounds with hi := min bounds.hi (number - 1) } := by
  rw [narrow, linearSubSafe_one fits]
  by_cases least : number = linearI64Min
  · rw [if_pos least, if_pos least]
  · rw [if_neg least, if_neg least]

variable {operator : TokenKind} {bounds : Bounds}

theorem Bounds.narrow_contains (bounding : isBounding operator = true) (fits : InRange number)
    (fitsV : InRange value) :
    (bounds.narrow operator number).Contains value ↔
      bounds.Contains value ∧ Satisfies operator number value := by
  have gt_iff_ : Satisfies .gt number value ↔ number < value := by simp [Satisfies, relationOf]
  have lt_iff_ : Satisfies .lt number value ↔ value < number := by simp [Satisfies, relationOf]
  simp only [InRange] at fitsV
  cases operator with
  | gt =>
    rw [Bounds.narrow_gt fits, gt_iff_]
    by_cases greatest : number = linearI64Max
    · rw [if_pos greatest]
      simp only [Bounds.Contains, rcPosInf, rcNegInf, linearI64Max] at *
      omega
    · rw [if_neg greatest]
      simp only [Bounds.Contains]
      omega
  | lt =>
    rw [Bounds.narrow_lt fits, lt_iff_]
    by_cases least : number = linearI64Min
    · rw [if_pos least]
      simp only [Bounds.Contains, rcPosInf, rcNegInf, linearI64Min] at *
      omega
    · rw [if_neg least]
      simp only [Bounds.Contains]
      omega
  | gtEq | ltEq | eqEq =>
    simp only [Bounds.Contains, Bounds.narrow, Satisfies, relationOf, Option.some.injEq,
      forall_eq']
    omega
  | _ => cases bounding

theorem Bounds.narrow_within (fits : InRange number)
    (within : linearI64Min ≤ bounds.lo ∧ bounds.hi ≤ linearI64Max) :
    linearI64Min ≤ (bounds.narrow operator number).lo ∧
      (bounds.narrow operator number).hi ≤ linearI64Max := by
  cases operator with
  | gt =>
    rw [Bounds.narrow_gt fits]
    split
    · decide
    · exact ⟨le_max_of_le_left within.1, within.2⟩
  | lt =>
    rw [Bounds.narrow_lt fits]
    split
    · decide
    · exact ⟨within.1, min_le_of_left_le within.2⟩
  | gtEq => exact ⟨le_max_of_le_left within.1, within.2⟩
  | ltEq => exact ⟨within.1, min_le_of_left_le within.2⟩
  | eqEq => exact ⟨le_max_of_le_left within.1, min_le_of_left_le within.2⟩
  | _ => exact within

/-- What the interval says of a value of any type.  There is none above the largest signed number,
so an upper limit that is that number is none. -/
structure Bounds.Allows (bounds : Bounds) (value : Int) : Prop where
  above : bounds.lo ≤ value
  below : bounds.hi < linearI64Max → value ≤ bounds.hi
  limited : bounds.lo ≤ linearI64Max

theorem Bounds.Allows.nonempty (allows : bounds.Allows value) : ¬ bounds.hi < bounds.lo := by
  intro empty
  have below := allows.below (Int.lt_of_lt_of_le empty allows.limited)
  have above := allows.above
  omega

/-- A value that satisfies a comparison stays allowed, where a strict lower bound is not the
largest signed number. -/
theorem Bounds.Allows.narrow (allows : bounds.Allows value) (fits : InRange number)
    (satisfies : Satisfies operator number value) (least : linearI64Min ≤ value)
    (strict : operator = .gt → number ≠ linearI64Max) :
    (bounds.narrow operator number).Allows value := by
  obtain ⟨above, below, limited⟩ := allows
  cases operator with
  | gt =>
    have satisfies := satisfies _ rfl
    have notGreatest := strict rfl
    rw [Bounds.narrow_gt fits, if_neg notGreatest]
    simp only [InRange, linearI64Max] at *
    exact ⟨max_le above satisfies, below, max_le limited (by simp only [linearI64Max]; omega)⟩
  | lt =>
    have satisfies := satisfies _ rfl
    have notLeast : number ≠ linearI64Min := by omega
    rw [Bounds.narrow_lt fits, if_neg notLeast]
    refine ⟨above, fun small => ?_, limited⟩
    simp only at small ⊢
    omega
  | gtEq | ltEq | eqEq =>
    have satisfies := satisfies _ rfl
    simp only [InRange, linearI64Max] at *
    constructor <;> simp only [Bounds.narrow, linearI64Max] <;> omega
  | _ => exact ⟨above, below, limited⟩

/-! ## What the comparisons mean -/

section Clauses

variable {types : Bytes → IntegerType} {other : Expr → Prop} {env : Bytes → Int}

def Comparison.Holds (types : Bytes → IntegerType) (env : Bytes → Int) (comparison : Comparison) :
    Prop :=
  isConstant comparison.constant = true → ∀ relation,
    relationOf comparison.operator = some relation →
      operandHolds types env relation comparison.name comparison.constant

variable {relation : Int → Int → Prop}

theorem relationOf_flip (h : relationOf (rcFlipOperator operator) = some relation) :
    relationOf operator = some fun value number => relation number value := by
  cases operator with
  | eqEq | bangEq =>
    obtain rfl := Option.some.inj h
    simp only [relationOf, Option.some.injEq]
    funext value number
    exact propext (by simp only [ne_eq, eq_comm])
  | lt | gt | ltEq | gtEq =>
    obtain rfl := Option.some.inj h
    rfl
  | _ => cases h

theorem not_and_of_relation (h : relationOf operator = some relation) : operator ≠ .kwAnd := by
  rintro rfl
  cases h

variable {constant : Expr}

theorem clauseHolds_left {name : Bytes} (h : relationOf operator = some relation)
    (literal : isConstant constant = true) :
    clauseHolds types other env (.binary (.ident name) operator constant) ↔
      operandHolds types env relation name constant := by
  rw [clauseHolds, if_neg (not_and_of_relation h)]
  simp only [comparisonHolds, h, literal, if_true]

theorem clauseHolds_right {name : Bytes} (h : relationOf operator = some relation)
    (literal : isConstant constant = true) :
    clauseHolds types other env (.binary constant operator (.ident name)) ↔
      operandHolds types env (fun value number => relation number value) name constant := by
  rw [clauseHolds, if_neg (not_and_of_relation h)]
  cases constant with
  | ident => cases literal
  | _ => simp only [comparisonHolds, h, literal, if_true]

theorem comparisons_hold {predicate : Expr} (holds : clauseHolds types other env predicate) :
    ∀ comparison ∈ comparisonsOf predicate, comparison.Holds types env := by
  fun_induction comparisonsOf predicate with
  | case1 inner ih => exact ih (by rwa [clauseHolds] at holds)
  | case2 left right ihLeft ihRight =>
    rw [clauseHolds, if_pos rfl] at holds
    intro comparison mem
    rcases mem_append.mp mem with mem | mem
    · exact ihLeft holds.1 comparison mem
    · exact ihRight holds.2 comparison mem
  | case3 left operator right notAnd =>
    intro comparison mem literal relation h
    rcases mem_append.mp mem with mem | mem
    · cases left with
      | ident name =>
        obtain rfl := mem_singleton.mp mem
        exact (clauseHolds_left h literal).mp holds
      | _ => cases mem
    · cases right with
      | ident name =>
        obtain rfl := mem_singleton.mp mem
        exact (clauseHolds_right (relationOf_flip h) literal).mp holds
      | _ => cases mem
  | case4 => simp

/-! ## Where the bounds are read right -/

/-- The constant folds to the value it has at the type of the variable, and it is no strict lower
bound that only values without a sign can exceed. -/
structure Comparison.ReadRight (types : Bytes → IntegerType) (comparison : Comparison) : Prop where
  value : ∀ number, foldConstInt comparison.constant = some number → ∀ value,
    evaluateConst (types comparison.name) comparison.constant = some value → value = number
  strict : comparison.operator = .gt → foldConstInt comparison.constant = some linearI64Max →
    ¬ (types comparison.name).Holds (linearI64Max + 1)

theorem IntegerType.holds_of_le {type : IntegerType} {least : Int} (holds : type.Holds value)
    (positive : 0 ≤ least) (le : least ≤ value) : type.Holds least := by
  have power : (0 : Int) ≤ 2 ^ (type.bits - 1) := by positivity
  rw [IntegerType.Holds] at holds ⊢
  split at holds
  next signed =>
    rw [if_pos signed]
    omega
  next unsigned =>
    rw [if_neg unsigned]
    omega

variable {comparison : Comparison}

theorem Comparison.ReadRight.satisfies (right : comparison.ReadRight types)
    (holds : comparison.Holds types env) (folds : foldConstInt comparison.constant = some number) :
    Satisfies comparison.operator number (env comparison.name) := by
  intro relation h
  obtain ⟨value, evaluates, related⟩ := holds (isConstant_of_fold _ folds) relation h
  rwa [right.value number folds value evaluates] at related

theorem narrow_of_not_bounding (open_ : isBounding operator = false) :
    bounds.narrow operator number = bounds := by
  cases operator with
  | gt | gtEq | lt | ltEq | eqEq => cases open_
  | _ => rfl

theorem boundsAfter_allows (typed : ∀ name, (types name).Holds (env name))
    (comparisons : List Comparison)
    (right : ∀ comparison ∈ comparisons, isBounding comparison.operator = true →
      comparison.ReadRight types)
    (holds : ∀ comparison ∈ comparisons, comparison.Holds types env) (name : Bytes) :
    (boundsAfter comparisons name).Allows (env name) := by
  induction comparisons using List.reverseRecOn with
  | nil =>
    have limited : rcNegInf ≤ linearI64Max := by decide
    exact ⟨(typed name).least, fun small => absurd small (Int.lt_irrefl _), limited⟩
  | append_singleton comparisons last ih =>
    have before := ih (fun c mem => right c (mem_append_left _ mem))
      fun c mem => holds c (mem_append_left _ mem)
    have mem : last ∈ comparisons ++ [last] := mem_append_right _ (mem_singleton.mpr rfl)
    rw [boundsAfter_snoc]
    split
    next number folds =>
      split
      next same =>
        cases bounding : isBounding last.operator with
        | false =>
          rw [narrow_of_not_bounding bounding]
          exact before
        | true =>
          have readRight := right last mem bounding
          have satisfies := readRight.satisfies (holds last mem) folds
          have fits := (evaluateConst_of_fold _ folds).1
          rw [same] at before ⊢
          refine before.narrow fits satisfies (typed _).least ?_
          rintro gt rfl
          have exceeds : linearI64Max < env last.name := satisfies _ (by rw [gt, relationOf])
          exact readRight.strict gt folds
            (IntegerType.holds_of_le (typed _) (by decide) (Int.add_one_le_of_lt exceeds))
      next => exact before
    next => exact before

/-! ## Comparisons of signed 64-bit variables -/

/-- A comparison other than `!=` of a signed 64-bit variable with a constant that folds. -/
structure Comparison.Judged (types : Bytes → IntegerType) (comparison : Comparison) : Prop where
  bounding : isBounding comparison.operator = true
  type : types comparison.name = .int64
  folds : ∃ number, foldConstInt comparison.constant = some number

/-- A conjunction of such comparisons. -/
def isConjunction (types : Bytes → IntegerType) : Expr → Prop
  | .paren inner => isConjunction types inner
  | .binary left operator right =>
    if operator = .kwAnd then isConjunction types left ∧ isConjunction types right
    else (∃ name, left = .ident name ∧ Comparison.Judged types ⟨name, operator, right⟩) ∨
      ∃ name, right = .ident name ∧ Comparison.Judged types ⟨name, rcFlipOperator operator, left⟩
  | _ => False

theorem Comparison.Judged.readRight (judged : comparison.Judged types) :
    comparison.ReadRight types := by
  refine ⟨fun number folds value evaluates => ?_, fun _ _ => ?_⟩
  · rw [judged.type, (evaluateConst_of_fold _ folds).2] at evaluates
    exact (Option.some.inj evaluates).symm
  · rw [judged.type]
    decide

theorem Comparison.Judged.holds (judged : comparison.Judged types)
    (folds : foldConstInt comparison.constant = some number)
    (satisfies : Satisfies comparison.operator number (env comparison.name)) :
    comparison.Holds types env := by
  intro _ relation h
  refine ⟨number, ?_, satisfies relation h⟩
  rw [judged.type]
  exact (evaluateConst_of_fold _ folds).2

theorem boundsAfter_contains (comparisons : List Comparison)
    (judged : ∀ comparison ∈ comparisons, comparison.Judged types) (name : Bytes)
    (fits : InRange value) :
    (boundsAfter comparisons name).Contains value ↔ ∀ comparison ∈ comparisons,
      comparison.name = name → ∀ number, foldConstInt comparison.constant = some number →
        Satisfies comparison.operator number value := by
  induction comparisons using List.reverseRecOn with
  | nil =>
    refine iff_of_true ⟨fits.1, ?_⟩ (by simp)
    exact Int.le_of_lt_add_one fits.2
  | append_singleton comparisons last ih =>
    have before := ih fun c mem => judged c (mem_append_left _ mem)
    have here := judged last (mem_append_right _ (mem_singleton.mpr rfl))
    obtain ⟨number, folds⟩ := here.folds
    rw [boundsAfter_snoc, folds]
    simp only [mem_append, mem_singleton, or_imp, forall_and, forall_eq, ← before, folds,
      Option.some.injEq, forall_eq']
    split
    next same =>
      rw [Bounds.narrow_contains here.bounding (evaluateConst_of_fold _ folds).1 fits]
      simp [same]
    next apart => simp [Ne.symm apart]

theorem operandComparisons_of_folds {other : Expr}
    (folds : ∃ number, foldConstInt constant = some number) :
    operandComparisons constant operator other = [] := by
  obtain ⟨number, folds⟩ := folds
  cases constant with
  | ident name => simp [foldConstInt, whereSignedLiteral] at folds
  | _ => rfl

theorem relation_of_bounding (bounding : isBounding operator = true) :
    ∃ relation, relationOf operator = some relation := by
  cases operator with
  | gt | gtEq | lt | ltEq | eqEq => exact ⟨_, rfl⟩
  | _ => cases bounding

theorem conjunction_spec {predicate : Expr} (conjunction : isConjunction types predicate) :
    (∀ comparison ∈ comparisonsOf predicate, comparison.Judged types) ∧
      ((∀ comparison ∈ comparisonsOf predicate, comparison.Holds types env) →
        clauseHolds types other env predicate) := by
  fun_induction isConjunction types predicate with
  | case1 inner ih =>
    rw [comparisonsOf, clauseHolds]
    exact ih conjunction
  | case2 left right ihLeft ihRight =>
    rw [comparisonsOf, if_pos rfl, clauseHolds, if_pos rfl]
    rw [forall_mem_append, forall_mem_append]
    obtain ⟨judgedLeft, holdsLeft⟩ := ihLeft conjunction.1
    obtain ⟨judgedRight, holdsRight⟩ := ihRight conjunction.2
    exact ⟨⟨judgedLeft, judgedRight⟩, fun all => ⟨holdsLeft all.1, holdsRight all.2⟩⟩
  | case3 left operator right notAnd =>
    rw [comparisonsOf, if_neg notAnd]
    rcases conjunction with ⟨name, rfl, judged⟩ | ⟨name, rfl, judged⟩
    · rw [operandComparisons_of_folds judged.folds, append_nil]
      simp only [operandComparisons, mem_singleton, forall_eq]
      refine ⟨judged, fun holds => ?_⟩
      obtain ⟨number, folds⟩ := judged.folds
      obtain ⟨relation, h⟩ := relation_of_bounding judged.bounding
      have literal := isConstant_of_fold _ folds
      exact (clauseHolds_left h literal).mpr (holds literal relation h)
    · rw [operandComparisons_of_folds judged.folds, nil_append]
      simp only [operandComparisons, mem_singleton, forall_eq]
      refine ⟨judged, fun holds => ?_⟩
      obtain ⟨number, folds⟩ := judged.folds
      obtain ⟨relation, h⟩ := relation_of_bounding judged.bounding
      have literal := isConstant_of_fold _ folds
      exact (clauseHolds_right (relationOf_flip h) literal).mpr (holds literal relation h)
  | case4 => exact conjunction.elim

end Clauses

/-! ## The warnings -/

/-- No values of the types of the variables satisfy the clauses of a body. -/
def Unsatisfiable (types : Bytes → IntegerType) (other : (Bytes → Int) → Expr → Prop)
    (body : List Stmt) : Prop :=
  ∀ env, (∀ name, (types name).Holds (env name)) →
    ¬ ∀ clause ∈ requiresOf body, clauseHolds types (other env) env clause

section Warnings

variable {types : Bytes → IntegerType} {other : (Bytes → Int) → Expr → Prop} {body : List Stmt}

theorem rcWalk_func {name : Bytes} {params : List Param} {returnType : Option Expr} {pos : Pos} :
    rcWalk [.func name params returnType body pos] ≠ [] ↔ rcContradictory body = true := by
  simp [rcWalk, rcDeclaration]

theorem unsatisfiable_of_contradictory {body : List Stmt}
    (right : ∀ comparison ∈ requiredComparisons body, isBounding comparison.operator = true →
      comparison.ReadRight types)
    (contradictory : rcContradictory body = true) : Unsatisfiable types other body := by
  intro env typed holds
  obtain ⟨name, empty⟩ := (rcContradictory_iff body).mp contradictory
  refine (boundsAfter_allows typed _ right ?_ name).nonempty empty
  intro comparison mem
  obtain ⟨clause, here, mem⟩ := mem_flatMap.mp mem
  exact comparisons_hold (holds clause here) comparison mem

theorem boundsAfter_within (comparisons : List Comparison) (name : Bytes) :
    linearI64Min ≤ (boundsAfter comparisons name).lo ∧
      (boundsAfter comparisons name).hi ≤ linearI64Max := by
  induction comparisons using List.reverseRecOn with
  | nil => exact ⟨Int.le_refl _, Int.le_refl _⟩
  | append_singleton comparisons last ih =>
    rw [boundsAfter_snoc]
    split
    next number folds =>
      split
      next same =>
        have fits := (evaluateConst_of_fold _ folds).1
        exact Bounds.narrow_within fits ih
      next => exact ih
    next => exact ih

/-- The lower ends of the intervals, and zero for the variables without one. -/
def lowerEnds (comparisons : List Comparison) (name : Bytes) : Int :=
  if ∃ comparison ∈ comparisons, comparison.name = name then (boundsAfter comparisons name).lo
  else 0

theorem IntegerType.holds_zero (type : IntegerType) : type.Holds 0 := by
  have power : (0 : Int) < 2 ^ (type.bits - 1) := by positivity
  have power' : (0 : Int) < 2 ^ type.bits := by positivity
  rw [Holds]
  split
  · omega
  · omega

theorem judged_of_conjunctions
    (conjunctions : ∀ clause ∈ requiresOf body, isConjunction types clause) :
    ∀ comparison ∈ requiredComparisons body, comparison.Judged types := by
  intro comparison mem
  obtain ⟨clause, here, mem⟩ := mem_flatMap.mp mem
  have spec :=
    @conjunction_spec types (fun _ => True) (fun _ => 0) clause (conjunctions clause here)
  exact spec.1 comparison mem

theorem contradictory_of_unsatisfiable
    (conjunctions : ∀ clause ∈ requiresOf body, isConjunction types clause)
    (unsatisfiable : Unsatisfiable types other body) : rcContradictory body = true := by
  have judged := judged_of_conjunctions conjunctions
  by_contra none
  have nonempty (name : Bytes) : (boundsAfter (requiredComparisons body) name).lo ≤
      (boundsAfter (requiredComparisons body) name).hi := by
    rw [rcContradictory_iff, not_exists] at none
    exact Int.not_lt.mp (none name)
  have fits (name : Bytes) : InRange (boundsAfter (requiredComparisons body) name).lo := by
    obtain ⟨least, greatest⟩ := boundsAfter_within (requiredComparisons body) name
    have := nonempty name
    simp only [InRange, linearI64Min, linearI64Max] at *
    omega
  refine unsatisfiable (lowerEnds (requiredComparisons body)) (fun name => ?_) ?_
  · rw [lowerEnds]
    split
    next compared =>
      obtain ⟨comparison, mem, rfl⟩ := compared
      rw [(judged comparison mem).type, holds_int64]
      exact fits comparison.name
    next => exact IntegerType.holds_zero _
  · intro clause here
    refine (conjunction_spec (conjunctions clause here)).2 fun comparison mem => ?_
    have mem : comparison ∈ requiredComparisons body := mem_flatMap.mpr ⟨clause, here, mem⟩
    obtain ⟨number, folds⟩ := (judged comparison mem).folds
    refine (judged comparison mem).holds folds ?_
    rw [lowerEnds, if_pos ⟨comparison, mem, rfl⟩]
    have contains : (boundsAfter (requiredComparisons body) comparison.name).Contains _ :=
      ⟨Int.le_refl _, nonempty comparison.name⟩
    exact (boundsAfter_contains _ judged comparison.name (fits comparison.name)).mp contains
      comparison mem rfl number folds

/-- A function is warned of only if its clauses cannot be satisfied, where every bound has its value
at the type of its variable; and exactly then, where the clauses are conjunctions of comparisons of
signed 64-bit variables. -/
theorem rcWalk_right (types : Bytes → IntegerType) (other : (Bytes → Int) → Expr → Prop)
    (name : Bytes) (params : List Param) (returnType : Option Expr) (body : List Stmt)
    (pos : Pos) :
    ((∀ comparison ∈ requiredComparisons body, isBounding comparison.operator = true →
        comparison.ReadRight types) →
      rcWalk [.func name params returnType body pos] ≠ [] → Unsatisfiable types other body) ∧
    ((∀ clause ∈ requiresOf body, isConjunction types clause) →
      (rcWalk [.func name params returnType body pos] ≠ [] ↔
        Unsatisfiable types other body)) := by
  refine ⟨fun right reported => ?_, fun conjunctions => ⟨fun reported => ?_, fun none => ?_⟩⟩
  · exact unsatisfiable_of_contradictory right (rcWalk_func.mp reported)
  · have right := judged_of_conjunctions conjunctions
    exact unsatisfiable_of_contradictory (fun comparison mem _ => (right comparison mem).readRight)
      (rcWalk_func.mp reported)
  · exact rcWalk_func.mpr (contradictory_of_unsatisfiable conjunctions none)

end Warnings

/-- `requires x <= 18446744073709551615` and `requires x > 0` on `x: u64`.  The literal is read
as -1. -/
def greatestUnsigned : List Stmt :=
  [.contract (ascii "requires") (.binary (.ident (ascii "x")) .ltEq (.intLit (-1))) (Pos.atLine 2),
    .contract (ascii "requires") (.binary (.ident (ascii "x")) .gt (.intLit 0)) (Pos.atLine 3)]

theorem greatestUnsigned_warned :
    ¬ (rcWalk [.func (ascii "f") [⟨ascii "x", .ident (ascii "u64")⟩] none greatestUnsigned
        (Pos.atLine 1)] ≠ [] →
      Unsatisfiable (fun _ => .uint64) (fun _ _ => False) greatestUnsigned) := by
  intro right
  have reported : rcWalk [.func (ascii "f") [⟨ascii "x", .ident (ascii "u64")⟩] none
      greatestUnsigned (Pos.atLine 1)] ≠ [] := by
    decide +kernel
  have holds_one : IntegerType.uint64.Holds 1 := by decide
  refine right reported (fun _ => 1) (fun _ => holds_one) fun clause here => ?_
  have cases_ : clause = .binary (.ident (ascii "x")) .ltEq (.intLit (-1)) ∨
      clause = .binary (.ident (ascii "x")) .gt (.intLit 0) := by
    simpa [requiresOf, greatestUnsigned] using here
  rcases cases_ with rfl | rfl
  · exact (clauseHolds_left rfl rfl).mpr ⟨18446744073709551615, by decide, by decide⟩
  · exact (clauseHolds_left rfl rfl).mpr ⟨0, by decide, by decide⟩

end Elisa.Semantic
