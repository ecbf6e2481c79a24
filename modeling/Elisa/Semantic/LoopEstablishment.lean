import Elisa.Semantic.Diagnostics
import Elisa.Semantic.StatementExecution

/-!
# Loop invariants that are false on entry

`lip_check_establishment` looks for loops with an invariant `v % c == k` and for the constant that
`v` starts from, in a table of the declarations of one list of statements.  An assignment to a
variable makes its rows unknown; what a nested list does is not looked at, and of several
declarations of a name the first one counts.

A report about a loop and the statements before it (`Site`) is right on every run on which those
statements leave the variable alone, except for the assignments that the check sees (`EntryKept`),
and where the type of the variable reads the constants as the check does.
-/

namespace Elisa.Semantic

open Ast Lexer Lib List

/-! ## The check -/

/-- An integer literal, in parentheses or not. -/
def lipLiteralInt : Expr → Option Int64
  | .intLit value => some value
  | .paren inner => lipLiteralInt inner
  | _ => none

/-- An invariant `v % c == k`. -/
structure ModularInvariant where
  name : Bytes
  modulus : Int64
  remainder : Int64
  deriving DecidableEq

def lipModularInvariant : Expr → Option ModularInvariant
  | .paren inner => lipModularInvariant inner
  | .binary (.binary modLeft modOperator modRight) operator right =>
    if operator ≠ .eqEq ∨ modOperator ≠ .percent then none
    else
      match lipLiteralInt right, lipLiteralInt modRight with
      | some remainder, some modulus =>
        if modLeft.identNameOf ≠ [] ∧ modulus ≠ 0 then
          some { name := modLeft.identNameOf, modulus, remainder }
        else none
      | _, _ => none
  | _ => none

/-- The value of a variable whose value is not known. -/
def lipUnknown : Int64 := 4000000001

/-- The declarations of a list, with the constants they start from. -/
abbrev InitTable := List (Bytes × Int64)

def lipAfter (inits : InitTable) : Stmt → InitTable
  | .varDecl name _ value _ =>
    if name ≠ [] then inits ++ [(name, (lipLiteralInt value).getD lipUnknown)] else inits
  | .assign target _ _ _ =>
    inits.map fun row => if row.1 = target.identNameOf then (row.1, lipUnknown) else row
  | _ => inits

def InitTable.entry (inits : InitTable) (name : Bytes) : Option Int64 :=
  (inits.find? fun row => row.1 = name).map Prod.snd

/-- What is reported of a statement of a loop's body; the remainder may trap. -/
def lipReport (inits : InitTable) : Stmt → Option (List Diagnostic)
  | .contract kind expression pos =>
    if kind ≠ ascii "invariant" then some []
    else
      match lipModularInvariant expression with
      | none => some []
      | some invariant =>
        match inits.entry invariant.name with
        | none => some []
        | some entryValue =>
          if entryValue = lipUnknown then some []
          else
            (CheckedInt64.rem entryValue invariant.modulus).map fun remainder =>
              if remainder ≠ invariant.remainder then
                [{ kind := .loopInvariantNotPreserved, name := invariant.name, line := pos.line }]
              else []
  | _ => some []

def lipReports (inits : InitTable) : List Stmt → Option (List Diagnostic)
  | [] => some []
  | statement :: rest => do
    let found ← lipReport inits statement
    let later ← lipReports inits rest
    return found ++ later

mutual

def lipCheckFrom (inits : InitTable) : List Stmt → Option (List Diagnostic)
  | [] => some []
  | statement :: rest => do
    let found ← lipCheckStatement inits statement
    let later ← lipCheckFrom (lipAfter inits statement) rest
    return found ++ later

def lipCheckStatement (inits : InitTable) : Stmt → Option (List Diagnostic)
  | .whileStmt _ body _ => do
    let found ← lipReports inits body
    let nested ← lipCheckFrom [] body
    return found ++ nested
  | .ifStmt _ thenBody elseBody _ => do
    let found ← lipCheckFrom [] thenBody
    let later ← lipCheckFrom [] elseBody
    return found ++ later
  | .block _ _ _ body _ => lipCheckFrom [] body
  | .forStmt _ _ _ body _ => lipCheckFrom [] body
  | _ => some []

end

def lipCheckEstablishment (statements : List Stmt) : Option (List Diagnostic) :=
  lipCheckFrom [] statements

def initsBehind (statements : List Stmt) : InitTable := statements.foldl lipAfter []

/-! ## Where a report comes from -/

/-- The lists of a statement that the check goes into. -/
inductive Walks : Stmt → List Stmt → Prop
  | whileBody {condition : Expr} {body : List Stmt} {pos : Pos} :
    Walks (.whileStmt condition body pos) body
  | thenBody {condition : Expr} {thenBody elseBody : List Stmt} {pos : Pos} :
    Walks (.ifStmt condition thenBody elseBody pos) thenBody
  | elseBody {condition : Expr} {thenBody elseBody : List Stmt} {pos : Pos} :
    Walks (.ifStmt condition thenBody elseBody pos) elseBody
  | blockBody {kind binding : Bytes} {clause : List Bytes} {body : List Stmt} {pos : Pos} :
    Walks (.block kind clause binding body pos) body
  | forBody {bind : Bytes} {loopVars : List Bytes} {iterable : Expr}
      {body : List Stmt} {pos : Pos} :
    Walks (.forStmt bind loopVars iterable body pos) body

/-- A statement somewhere in a list or in a nested one, and the statements before it in its own
list. -/
inductive Site : List Stmt → List Stmt → Stmt → Prop
  | here {before rest : List Stmt} {statement : Stmt} :
    Site (before ++ statement :: rest) before statement
  | inside {statements body before : List Stmt} {outer statement : Stmt} (mem : outer ∈ statements)
      (walks : Walks outer body) (site : Site body before statement) :
    Site statements before statement

/-- An invariant of a loop that a report is about, with the constant the variable starts from. -/
structure Reported (before : List Stmt) (body : List Stmt) (expression : Expr)
    (invariant : ModularInvariant) (entryValue : Int64) (diagnostic : Diagnostic) : Prop where
  contract : ∃ pos, .contract (ascii "invariant") expression pos ∈ body ∧ diagnostic =
    { kind := .loopInvariantNotPreserved, name := invariant.name, line := pos.line }
  shape : lipModularInvariant expression = some invariant
  entry : (initsBehind before).entry invariant.name = some entryValue
  known : entryValue ≠ lipUnknown
  broken : ∃ remainder, CheckedInt64.rem entryValue invariant.modulus = some remainder ∧
    remainder ≠ invariant.remainder

variable {diagnostic : Diagnostic} {found : List Diagnostic}

theorem lipReport_some {inits : InitTable} {statement : Stmt}
    (report : lipReport inits statement = some found) (mem : diagnostic ∈ found) :
    ∃ expression pos invariant entryValue remainder,
      statement = .contract (ascii "invariant") expression pos ∧
      diagnostic =
        { kind := .loopInvariantNotPreserved, name := invariant.name, line := pos.line } ∧
      lipModularInvariant expression = some invariant ∧
      inits.entry invariant.name = some entryValue ∧ entryValue ≠ lipUnknown ∧
      CheckedInt64.rem entryValue invariant.modulus = some remainder ∧
      remainder ≠ invariant.remainder := by
  have nothing {found : List Diagnostic} (empty : some [] = some found) : diagnostic ∉ found := by
    rw [← Option.some.inj empty]
    exact not_mem_nil
  unfold lipReport at report
  split at report
  next kind expression pos =>
    split at report
    next => exact absurd mem (nothing report)
    next isInvariant =>
    rw [not_not] at isInvariant
    split at report
    next => exact absurd mem (nothing report)
    next invariant shape =>
    split at report
    next => exact absurd mem (nothing report)
    next entryValue entry =>
    split at report
    next => exact absurd mem (nothing report)
    next known =>
    obtain ⟨remainder, computed, rfl⟩ := Option.map_eq_some_iff.mp report
    split at mem
    next broken =>
      exact ⟨expression, pos, invariant, entryValue, remainder, by rw [isInvariant],
        mem_singleton.mp mem, shape, entry, known, computed, broken⟩
    next => exact absurd mem not_mem_nil
  next => exact absurd mem (nothing report)

theorem append_some {first second : Option (List Diagnostic)}
    (both : (do return (← first) ++ (← second)) = some found) (mem : diagnostic ∈ found) :
    (∃ list, first = some list ∧ diagnostic ∈ list) ∨
      ∃ list, second = some list ∧ diagnostic ∈ list := by
  cases first with
  | none => cases both
  | some before =>
    cases second with
    | none => cases both
    | some behind =>
      obtain rfl := Option.some.inj both
      rcases mem_append.mp mem with here | there
      · exact .inl ⟨before, rfl, here⟩
      · exact .inr ⟨behind, rfl, there⟩

theorem lipReports_reported {before body : List Stmt}
    (reports : lipReports (initsBehind before) body = some found) (mem : diagnostic ∈ found) :
    ∃ expression invariant entryValue,
      Reported before body expression invariant entryValue diagnostic := by
  induction body generalizing found with
  | nil =>
    obtain rfl := Option.some.inj reports
    cases mem
  | cons statement rest ih =>
    rcases append_some reports mem with ⟨list, report, here⟩ | ⟨list, later, there⟩
    · obtain ⟨expression, pos, invariant, entryValue, remainder, rfl, eq, shape, entry, known,
        computed, broken⟩ := lipReport_some report here
      exact ⟨expression, invariant, entryValue, ⟨pos, mem_cons_self, eq⟩, shape, entry, known,
        remainder, computed, broken⟩
    · obtain ⟨expression, invariant, entryValue, ⟨pos, inBody, eq⟩, shape, entry, known, broken⟩ :=
        ih later there
      exact ⟨expression, invariant, entryValue, ⟨pos, mem_cons_of_mem _ inBody, eq⟩, shape,
        entry, known, broken⟩

def ReportedIn (statements : List Stmt) (diagnostic : Diagnostic) : Prop :=
  ∃ before condition body pos expression invariant entryValue,
    Site statements before (.whileStmt condition body pos) ∧
      Reported before body expression invariant entryValue diagnostic

variable {statements : List Stmt}

theorem ReportedIn.inside {body : List Stmt} {outer : Stmt} (mem : outer ∈ statements)
    (walks : Walks outer body) (reported : ReportedIn body diagnostic) :
    ReportedIn statements diagnostic := by
  obtain ⟨before, condition, inner, pos, expression, invariant, entryValue, site, report⟩ :=
    reported
  exact ⟨before, condition, inner, pos, expression, invariant, entryValue, .inside mem walks site,
    report⟩

theorem initsBehind_append {before : List Stmt} {statement : Stmt} :
    initsBehind (before ++ [statement]) = lipAfter (initsBehind before) statement := by
  rw [initsBehind, foldl_append]
  rfl

mutual

theorem lipCheckFrom_reported : ∀ (before statements : List Stmt) {found : List Diagnostic}
    {diagnostic : Diagnostic}, lipCheckFrom (initsBehind before) statements = some found →
    diagnostic ∈ found → ReportedIn (before ++ statements) diagnostic
  | before, [], found, diagnostic, check, mem => by
    rw [lipCheckFrom] at check
    obtain rfl := Option.some.inj check
    cases mem
  | before, statement :: rest, found, diagnostic, check, mem => by
    rw [lipCheckFrom] at check
    rcases append_some check mem with ⟨list, here, inList⟩ | ⟨list, later, inList⟩
    · exact lipCheckStatement_reported before statement rest here inList
    · rw [← initsBehind_append] at later
      have := lipCheckFrom_reported (before ++ [statement]) rest later inList
      rwa [append_assoc] at this

theorem lipCheckStatement_reported : ∀ (before : List Stmt) (statement : Stmt) (rest : List Stmt)
    {found : List Diagnostic} {diagnostic : Diagnostic},
    lipCheckStatement (initsBehind before) statement = some found → diagnostic ∈ found →
    ReportedIn (before ++ statement :: rest) diagnostic
  | before, .whileStmt condition body pos, rest, found, diagnostic, check, mem => by
    rw [lipCheckStatement] at check
    rcases append_some check mem with ⟨list, own, inList⟩ | ⟨list, nested, inList⟩
    · obtain ⟨expression, invariant, entryValue, report⟩ := lipReports_reported own inList
      exact ⟨before, condition, body, pos, expression, invariant, entryValue, .here, report⟩
    · exact .inside (mem_append_right _ mem_cons_self) .whileBody
        (lipCheckFrom_reported [] body nested inList)
  | before, .ifStmt condition thenBody elseBody pos, rest, found, diagnostic, check, mem => by
    rw [lipCheckStatement] at check
    rcases append_some check mem with ⟨list, nested, inList⟩ | ⟨list, nested, inList⟩
    · exact .inside (mem_append_right _ mem_cons_self) .thenBody
        (lipCheckFrom_reported [] thenBody nested inList)
    · exact .inside (mem_append_right _ mem_cons_self) .elseBody
        (lipCheckFrom_reported [] elseBody nested inList)
  | before, .block kind clause binding body pos, rest, found, diagnostic, check, mem => by
    rw [lipCheckStatement] at check
    exact .inside (mem_append_right _ mem_cons_self) .blockBody
      (lipCheckFrom_reported [] body check mem)
  | before, .forStmt bind loopVars iterable body pos, rest, found, diagnostic, check, mem => by
    rw [lipCheckStatement] at check
    exact .inside (mem_append_right _ mem_cons_self) .forBody
      (lipCheckFrom_reported [] body check mem)
  | before, .invalid, rest, found, diagnostic, check, mem
  | before, .expr _ _, rest, found, diagnostic, check, mem
  | before, .varDecl _ _ _ _, rest, found, diagnostic, check, mem
  | before, .assign _ _ _ _, rest, found, diagnostic, check, mem
  | before, .returnStmt _ _, rest, found, diagnostic, check, mem
  | before, .breakStmt _ _, rest, found, diagnostic, check, mem
  | before, .continueStmt _ _, rest, found, diagnostic, check, mem
  | before, .matchStmt _ _ _, rest, found, diagnostic, check, mem
  | before, .contract _ _ _, rest, found, diagnostic, check, mem => by
    rw [lipCheckStatement] at check
    · obtain rfl := Option.some.inj check
      cases mem
    all_goals nofun

end

/-! ## Runs up to a loop -/

/-- A statement that a run has passed, and the scopes around it. -/
structure Passed where
  statement : Stmt
  before : Scope
  after : Scope

/-- A run over a list, statement by statement. -/
inductive Passes (M : Machine) : List Stmt → Scope → List Passed → Scope → Prop
  | nil {σ : Scope} : Passes M [] σ [] σ
  | cons {statement : Stmt} {rest : List Stmt} {σ σ₁ σ₂ : Scope} {events : List Event}
      {steps : List Passed} (head : Exec M (.one statement) σ events .normal σ₁)
      (tail : Passes M rest σ₁ steps σ₂) :
    Passes M (statement :: rest) σ (⟨statement, σ, σ₁⟩ :: steps) σ₂

def assignsTo (name : Bytes) : Stmt → Bool
  | .assign target _ _ _ => target.identNameOf = name
  | _ => false

/-- The variable of an invariant is declared as an integer of a type that reads the constants as the
check does. -/
def ReadsAlike (M : Machine) (invariant : ModularInvariant) (typeExpression value : Expr) : Prop :=
  ∃ type, M.typeOf typeExpression value = some type ∧
    (∀ literal, lipLiteralInt value = some literal → type.wrap literal.toInt = literal.toInt) ∧
    type.wrap invariant.modulus.toInt = invariant.modulus.toInt ∧
    type.wrap invariant.remainder.toInt = invariant.remainder.toInt

/-- From its first declaration in the list on, no statement changes the variable but the assignments
to its name. -/
def EntryKept (M : Machine) (invariant : ModularInvariant) : List Passed → Prop
  | [] => True
  | step :: later =>
    match step.statement with
    | .varDecl name typeExpression value _ =>
      if name = invariant.name then
        ReadsAlike M invariant typeExpression value ∧
          ∀ next ∈ later, assignsTo name next.statement = false →
            next.after.number name = next.before.number name
      else EntryKept M invariant later
    | _ => EntryKept M invariant later

/-! ### The table -/

section Table

variable {inits : InitTable} {name : Bytes} {statement : Stmt}

theorem entry_append {row : Bytes × Int64} : InitTable.entry (inits ++ [row]) name =
    (inits.entry name).or (if row.1 = name then some row.2 else none) := by
  rw [InitTable.entry, InitTable.entry, find?_append]
  cases inits.find? fun row => row.1 = name with
  | some found => rfl
  | none =>
    rw [Option.none_or, find?_singleton]
    split <;> simp_all

theorem entry_map {target : Bytes} :
    InitTable.entry (inits.map fun row => if row.1 = target then (row.1, lipUnknown)
      else row) name =
      (inits.entry name).map fun value => if name = target then lipUnknown else value := by
  have same : ((fun row : Bytes × Int64 => decide (row.1 = name)) ∘
      fun row => if row.1 = target then (row.1, lipUnknown) else row) =
        fun row => decide (row.1 = name) := by
    funext row
    rw [Function.comp_apply]
    split <;> rfl
  rw [InitTable.entry, InitTable.entry, find?_map, same]
  cases found : inits.find? fun row => decide (row.1 = name) with
  | none => rfl
  | some row =>
    have key : row.1 = name := by simpa using find?_some found
    rw [Option.map_some, Option.map_some, Option.map_some, Option.map_some, key]
    split <;> rfl

theorem entry_lipAfter_some {value : Int64} (entry : inits.entry name = some value) :
    (lipAfter inits statement).entry name =
      some (if assignsTo name statement then lipUnknown else value) := by
  cases statement with
  | varDecl declared _ init _ =>
    rw [lipAfter]
    split
    · rw [entry_append, entry]
      rfl
    · exact entry
  | assign target _ _ _ =>
    rw [lipAfter, entry_map, entry, Option.map_some, assignsTo]
    refine congrArg some (if_congr ?_ rfl rfl)
    rw [decide_eq_true_eq]
    exact eq_comm
  | _ => exact entry

/-- The value that a statement starts a name from, if it declares it. -/
def initOf (name : Bytes) : Stmt → Option Int64
  | .varDecl declared _ value _ =>
    if declared = name then some ((lipLiteralInt value).getD lipUnknown) else none
  | _ => none

theorem entry_lipAfter_none (some_ : name ≠ []) (entry : inits.entry name = none) :
    (lipAfter inits statement).entry name = initOf name statement := by
  cases statement with
  | varDecl declared _ init _ =>
    rw [lipAfter, initOf]
    split
    next =>
      rw [entry_append, entry]
      rfl
    rename_i empty
    rw [not_not] at empty
    have other : declared ≠ name := fun same => some_ (same.symm.trans empty)
    rw [entry, if_neg other]
  | assign target _ _ _ =>
    rw [lipAfter, entry_map, entry]
    rfl
  | _ => exact entry

theorem entry_unknown (entry : inits.entry name = some lipUnknown) :
    InitTable.entry (statements.foldl lipAfter inits) name = some lipUnknown := by
  induction statements generalizing inits with
  | nil => exact entry
  | cons statement rest ih =>
    refine ih ?_
    rw [entry_lipAfter_some entry, ite_self]

end Table

/-! ### The value on entry -/

section Entry

variable {M : Machine}

theorem index_declare (σ : Scope) (name : Bytes) (cell : Cell) :
    (σ.declare name cell).index name = some σ.length := by
  induction σ with
  | nil => simp [Scope.declare, Scope.index]
  | cons entry rest ih =>
    rw [Scope.declare] at ih
    rw [Scope.declare, cons_append, Scope.index, ih]
    rfl

theorem number_declare (σ : Scope) (name : Bytes) (cell : Cell) :
    (σ.declare name cell).number name = cell := by
  rw [Scope.number, index_declare, Option.bind_some, Scope.cell, Scope.declare,
    getElem?_concat_length]
  rfl

variable {type : IntegerType} {σ σ' : Scope} {value : Int}

theorem computes_literal (expression : Expr) {literal : Int64}
    (is : lipLiteralInt expression = some literal) (run : Computes M type expression σ value σ') :
    value = type.wrap literal.toInt ∧ σ' = σ := by
  induction run with
  | literal =>
    obtain rfl := Option.some.inj is
    exact ⟨rfl, rfl⟩
  | paren _ ih => exact ih is
  | @other inner σ σ' value open_ =>
    exfalso
    cases inner with
    | intLit => cases open_
    | paren => cases open_
    | _ => cases is
  | _ => cases is

variable {expression : Expr}

theorem computes_name {type' : IntegerType} {name : Bytes} {x : Int}
    (is : expression.identNameOf = name) (some_ : name ≠ [])
    (number : σ.number name = some (type', x)) (run : Computes M type expression σ value σ') :
    type' = type ∧ x = value ∧ σ' = σ := by
  induction run with
  | @ident own σ value here =>
    change own = name at is
    rw [← is, here] at number
    cases number
    exact ⟨rfl, rfl, rfl⟩
  | paren _ ih => exact ih is number
  | @other expression σ σ' value open_ =>
    exfalso
    cases expression with
    | ident own =>
      change own = name at is
      rw [isComputed, is, number] at open_
      cases open_
    | paren => cases open_
    | _ => exact some_ is.symm
  | _ => exact absurd is.symm some_

theorem number_of_entry {name : Bytes} {entryValue value : Int64} {cell : Cell} {inits : InitTable}
    {steps : List Passed} (passes : Passes M statements σ steps σ')
    (kept : ∀ next ∈ steps, assignsTo name next.statement = false → next.after.number name =
      next.before.number name)
    (start : inits.entry name = some value) (number : σ.number name = cell)
    (entry : InitTable.entry (statements.foldl lipAfter inits) name = some entryValue)
    (known : entryValue ≠ lipUnknown) : entryValue = value ∧ σ'.number name = cell := by
  induction passes generalizing inits with
  | nil =>
    rw [foldl_nil, start] at entry
    exact ⟨(Option.some.inj entry).symm, number⟩
  | @cons statement rest σ σ₁ σ₂ events steps head tail ih =>
    rw [foldl_cons] at entry
    have next := @entry_lipAfter_some inits name statement value start
    cases assigned : assignsTo name statement with
    | true =>
      rw [assigned, if_pos rfl] at next
      rw [entry_unknown next] at entry
      exact absurd (Option.some.inj entry).symm known
    | false =>
      rw [assigned, if_neg Bool.false_ne_true] at next
      have same := kept ⟨statement, σ, σ₁⟩ mem_cons_self assigned
      exact ih (fun step mem => kept step (mem_cons_of_mem _ mem)) next (same.trans number) entry

variable {invariant : ModularInvariant}

theorem number_on_entry {entryValue : Int64} {inits : InitTable} {steps : List Passed}
    (some_ : invariant.name ≠ []) (passes : Passes M statements σ steps σ')
    (kept : EntryKept M invariant steps) (fresh : inits.entry invariant.name = none)
    (entry : InitTable.entry (statements.foldl lipAfter inits) invariant.name = some entryValue)
    (known : entryValue ≠ lipUnknown) :
    ∃ type, σ'.number invariant.name = some (type, entryValue.toInt) ∧
      type.wrap invariant.modulus.toInt = invariant.modulus.toInt ∧
      type.wrap invariant.remainder.toInt = invariant.remainder.toInt := by
  induction passes generalizing inits with
  | nil =>
    rw [foldl_nil, fresh] at entry
    cases entry
  | @cons statement rest σ σ₁ σ₂ events steps head tail ih =>
    rw [foldl_cons] at entry
    have next := @entry_lipAfter_none inits invariant.name statement some_ fresh
    cases declares : initOf invariant.name statement with
    | none =>
      refine ih ?_ (next.trans declares) entry
      cases statement with
      | varDecl declared typeExpression init pos =>
        have other : declared ≠ invariant.name := fun same => by
          rw [initOf, if_pos same] at declares
          cases declares
        rw [EntryKept] at kept
        simpa only [if_neg other] using kept
      | _ => exact kept
    | some value =>
      cases statement with
      | varDecl declared typeExpression init pos =>
        have same : declared = invariant.name := by
          by_contra other
          rw [initOf, if_neg other] at declares
          cases declares
        rw [EntryKept] at kept
        simp only [if_pos same] at kept
        obtain ⟨⟨type, integer, literals, modulus, remainder⟩, undisturbed⟩ := kept
        subst same
        cases head with
        | varOther other => rw [other] at integer; cases integer
        | varDecl own run =>
          rw [own] at integer
          obtain rfl := Option.some.inj integer
          have start := next.trans declares
          obtain ⟨same_, number⟩ := number_of_entry tail undisturbed start
            (number_declare _ _ _) entry known
          rw [initOf, if_pos rfl] at declares
          cases literal : lipLiteralInt init with
          | none =>
            rw [literal, Option.getD_none] at declares
            exact absurd (same_.trans (Option.some.inj declares).symm) known
          | some constant =>
            rw [literal, Option.getD_some] at declares
            have computed := (computes_literal init literal run).1
            rw [literals constant literal] at computed
            rw [same_, ← Option.some.inj declares, ← computed]
            exact ⟨_, number, modulus, remainder⟩
      | _ => cases declares

theorem lipModularInvariant_name (shape : lipModularInvariant expression = some invariant) :
    invariant.name ≠ [] := by
  fun_induction lipModularInvariant expression with
  | case1 inner ih => exact ih shape
  | case3 modLeft modOperator modRight operator right here remainder modulus _ _ named =>
    obtain rfl := Option.some.inj shape
    exact named.1
  | _ => cases shape

theorem remainder_of_holds (shape : lipModularInvariant expression = some invariant)
    (number : σ.number invariant.name = some (type, value))
    (modulus : type.wrap invariant.modulus.toInt = invariant.modulus.toInt)
    (remainder : type.wrap invariant.remainder.toInt = invariant.remainder.toInt)
    (holds : Holds M σ expression) :
    value.tmod invariant.modulus.toInt = invariant.remainder.toInt := by
  have some_ := lipModularInvariant_name shape
  fun_induction lipModularInvariant expression with
  | case1 inner ih => exact ih shape holds
  | case3 modLeft modOperator modRight operator right here k c literalC literalK named =>
    obtain rfl := Option.some.inj shape
    rw [not_or, not_not, not_not] at here
    obtain ⟨rfl, rfl⟩ := here
    rw [Holds, if_neg (by decide), if_pos (.inl rfl)] at holds
    obtain ⟨type', x, y, σ₁, σ₂, -, left, right, equal⟩ := holds
    cases left with
    | other open_ => cases open_
    | @operate _ _ _ _ σ₃ _ a b _ first second result =>
      obtain ⟨rfl, rfl, rfl⟩ := computes_name rfl some_ number first
      obtain ⟨rfl, rfl⟩ := computes_literal _ literalC second
      obtain ⟨rfl, rfl⟩ := computes_literal _ literalK right
      rw [modulus] at result
      obtain ⟨quotient, -, rfl⟩ := Option.map_eq_some_iff.mp result
      rw [remainder] at equal
      exact of_decide_eq_true equal
  | _ => cases shape

end Entry

/-- Every report is about an invariant that is false whenever the loop is reached, on every run on
which the statements before the loop leave its variable alone behind the first declaration, except
for the assignments to its name. -/
theorem lipCheckEstablishment_false {statements : List Stmt} {found : List Diagnostic}
    {diagnostic : Diagnostic} (check : lipCheckEstablishment statements = some found)
    (mem : diagnostic ∈ found) :
    ∃ before condition body pos expression invariant entryValue,
      Site statements before (.whileStmt condition body pos) ∧
      Reported before body expression invariant entryValue diagnostic ∧
      ∀ (M : Machine) (σ σ' : Scope) (steps : List Passed), Passes M before σ steps σ' →
        EntryKept M invariant steps → ¬ Holds M σ' expression := by
  obtain ⟨before, condition, body, pos, expression, invariant, entryValue, site, reported⟩ :=
    lipCheckFrom_reported [] statements check mem
  refine ⟨before, condition, body, pos, expression, invariant, entryValue, site, reported,
    fun M σ σ' steps passes kept holds => ?_⟩
  obtain ⟨-, shape, entry, known, remainder, computed, broken⟩ := reported
  obtain ⟨type, number, modulus, reads⟩ :=
    number_on_entry (lipModularInvariant_name shape) passes kept rfl entry known
  have equal := remainder_of_holds shape number modulus reads holds
  obtain ⟨quotient, -, rfl⟩ := Option.map_eq_some_iff.mp computed
  refine broken (Int64.toInt_inj.mp ?_)
  rw [Int64.toInt_mod]
  exact equal

/-! ## A nested assignment -/

def evenInvariant : Expr :=
  .binary (.binary (.ident (ascii "i")) .percent (.intLit 2)) .eqEq (.intLit 0)

def oneDeclaration : Stmt := .varDecl (ascii "i") (.ident (ascii "i64")) (.intLit 1) (.atLine 2)

/-- `i <- 2`, or `i = 2`, under a condition. -/
def nestedAssignment (operator : TokenKind) : Stmt :=
  .ifStmt (.ident (ascii "c"))
    [.assign (.ident (ascii "i")) operator (.intLit 2) (.atLine 4)] [] (.atLine 3)

/-- `i: i64 = 1`, the assignment, and a loop with the invariant. -/
def evenLoop (operator : TokenKind) : List Stmt :=
  [oneDeclaration, nestedAssignment operator,
    .whileStmt (.binary (.ident (ascii "i")) .lt (.intLit 10))
      [.contract (ascii "invariant") evenInvariant (.atLine 6)] (.atLine 5)]

def evenReport : Diagnostic :=
  { kind := .loopInvariantNotPreserved, name := ascii "i", line := 6 }

/-- Conditions are true, and all declarations are of signed 64-bit integers. -/
def trueMachine : Machine where
  typeOf _ _ := some .int64
  inline _ := false
  computes _ _ _ _ _ := False
  evaluates _ σ σ' := σ' = σ
  decides _ σ truth σ' := truth = true ∧ σ' = σ
  stores _ _ _ _ _ := False
  selects _ _ _ _ _ := False

def scopeOf (value : Int) : Scope := [(ascii "i", some (.int64, value))]

theorem passes_evenLoop {operator : TokenKind} {value : Int} {later : Scope} {events : List Event}
    (assigned : Exec trueMachine
      (.one (.assign (.ident (ascii "i")) operator (.intLit 2) (.atLine 4))) (scopeOf 1) events
      .normal (scopeOf value ++ later)) :
    Passes trueMachine [oneDeclaration, nestedAssignment operator] []
      [⟨oneDeclaration, [], scopeOf 1⟩, ⟨nestedAssignment operator, scopeOf 1, scopeOf value⟩]
      (scopeOf value) := by
  have declared : Exec trueMachine (.one oneDeclaration) [] [] .normal (scopeOf 1) :=
    .varDecl rfl .literal
  have body : Exec trueMachine
      (.nested [] [.assign (.ident (ascii "i")) operator (.intLit 2) (.atLine 4)]) (scopeOf 1) _
      .normal ((scopeOf value ++ later).take (scopeOf 1).length) :=
    .nested (.cons assigned .nil) .deferNone
  have nested : Exec trueMachine (.one (nestedAssignment operator)) (scopeOf 1) _ .normal
      (scopeOf value) := .ifStmt ⟨rfl, rfl⟩ body
  exact .cons declared (.cons nested .nil)

theorem not_site_of_leaf {statements before : List Stmt} {statement : Stmt}
    (leaf : ∀ s ∈ statements, s ≠ statement ∧ ∀ body, ¬ Walks s body) :
    ¬ Site statements before statement := by
  rintro (_ | ⟨mem, walks, -⟩)
  · exact (leaf _ (mem_append_right _ mem_cons_self)).1 rfl
  · exact (leaf _ mem).2 _ walks

theorem site_evenLoop {operator : TokenKind} {before body : List Stmt} {condition : Expr}
    {pos : Pos} (site : Site (evenLoop operator) before (.whileStmt condition body pos)) :
    before = [oneDeclaration, nestedAssignment operator] ∧
      body = [.contract (ascii "invariant") evenInvariant (.atLine 6)] := by
  generalize same : evenLoop operator = statements at site
  cases site with
  | here =>
    rcases before with _ | ⟨_, _ | ⟨_, _ | ⟨_, _⟩⟩⟩ <;>
      simp_all [evenLoop, oneDeclaration, nestedAssignment]
  | inside mem walks site =>
    exfalso
    rw [← same, evenLoop, mem_cons, mem_cons, mem_singleton] at mem
    rcases mem with rfl | rfl | rfl
    · cases walks
    · cases walks with
      | thenBody => exact not_site_of_leaf (by simp; nofun) site
      | elseBody => exact not_site_of_leaf (by simp) site
    · cases walks
      exact not_site_of_leaf (by simp; nofun) site

/-- `i = 2` under a condition declares another `i`. -/
theorem evenLoop_false :
    ∃ found before steps, lipCheckEstablishment (evenLoop .assign) = some found ∧
    evenReport ∈ found ∧ Passes trueMachine before [] steps (scopeOf 1) ∧
      ¬ Holds trueMachine (scopeOf 1) evenInvariant := by
  have check : lipCheckEstablishment (evenLoop .assign) = some [evenReport] := by decide +kernel
  obtain ⟨before, condition, body, pos, expression, invariant, entryValue,
    site, reported, false_⟩ :=
    lipCheckEstablishment_false check mem_cons_self
  obtain ⟨rfl, rfl⟩ := site_evenLoop site
  obtain ⟨⟨line, mem, -⟩, shape, -⟩ := reported
  obtain ⟨-, rfl, -⟩ := Stmt.contract.inj (mem_singleton.mp mem)
  have shadow : Exec trueMachine
      (.one (.assign (.ident (ascii "i")) .assign (.intLit 2) (.atLine 4))) (scopeOf 1) [] .normal
      (scopeOf 1 ++ scopeOf 2) := .declare rfl (.varDecl rfl .literal)
  have passes := passes_evenLoop shadow
  refine ⟨_, _, _, check, mem_cons_self, passes, false_ _ _ _ _ passes ?_⟩
  obtain rfl := Option.some.inj ((by decide +kernel :
    lipModularInvariant evenInvariant = some ⟨ascii "i", 2, 0⟩).symm.trans shape)
  rw [EntryKept, oneDeclaration]
  refine (if_pos rfl).mpr ⟨⟨.int64, rfl, ?_, rfl, rfl⟩, ?_⟩
  · intro literal is
    obtain rfl := Option.some.inj is
    rfl
  · intro next mem _
    rw [mem_singleton.mp mem]

theorem holds_evenInvariant : Holds trueMachine (scopeOf 2) evenInvariant := by
  rw [evenInvariant, Holds, if_neg (by decide), if_pos (.inl rfl)]
  exact ⟨_, 0, 0, _, _, rfl, .operate (.ident rfl) .literal rfl, .literal, rfl⟩

/-- The loop is reported, and with the condition true its invariant holds on entry. -/
theorem nestedAssignment_reported : ¬ ∀ statements found,
    lipCheckEstablishment statements = some found → ∀ diagnostic ∈ found,
    ∀ before condition body pos expression invariant entryValue,
      Site statements before (.whileStmt condition body pos) →
      Reported before body expression invariant entryValue diagnostic →
      ∀ (M : Machine) (σ σ' : Scope) (steps : List Passed), Passes M before σ steps σ' →
        ¬ Holds M σ' expression := by
  intro all
  have literal : Computes trueMachine .int64 (.intLit 2) (scopeOf 1) 2 (scopeOf 1) := .literal
  have assigned : Exec trueMachine
      (.one (.assign (.ident (ascii "i")) .lArrow (.intLit 2) (.atLine 4))) (scopeOf 1)
      [⟨0, .lArrow, .intLit 2, 1, 2, false⟩] .normal (scopeOf 2 ++ []) :=
    .assign literal (show (scopeOf 1).index (ascii "i") = some 0 from rfl)
      (show (scopeOf 1).cell 0 = some (.int64, 1) from rfl) rfl
  refine all (evenLoop .lArrow) [evenReport] (by decide +kernel) evenReport mem_cons_self
    [oneDeclaration, nestedAssignment .lArrow] _ _ _ evenInvariant ⟨ascii "i", 2, 0⟩ 1
    (@Site.here [oneDeclaration, nestedAssignment .lArrow] [] _) ?_ trueMachine [] (scopeOf 2) _
    (passes_evenLoop assigned) holds_evenInvariant
  exact ⟨⟨_, mem_cons_self, rfl⟩, by decide +kernel, by decide +kernel, by decide +kernel,
    1, by decide +kernel, by decide +kernel⟩

end Elisa.Semantic
