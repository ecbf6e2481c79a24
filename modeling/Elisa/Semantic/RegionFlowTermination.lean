import Elisa.Semantic.RegionFlow

/-!
# When the flow queries return

Almost every call of the flow queries goes to a part of what it is asked about, or to the next arm
of a match.  The loop over the arms of a match on a literal goes back to its head, without a step,
at an arm that can be reached and whose guard is the literal `false`.  A match `Stalls` whose loop
gets there.  Every query returns on every part of a tree if and only if the tree has no such match.
-/

namespace Elisa.Semantic.RegionFlow

open Ast Lexer Lib Lib.Asking Progress List

/-! ## Parts of a tree -/

inductive Node where
  | expr (expression : Expr)
  | stmt (statement : Stmt)
  | stmts (statements : List Stmt)

namespace Node

def ofArm (arm : MatchArm) : List Node := [expr arm.guard, stmts arm.body]

def ofEntry (entry : DictEntry) : List Node := [expr entry.key, expr entry.value]

def ofField (field : FieldInit) : Node := expr field.value

def children : Node → List Node
  | expr (.call callee arguments _) => expr callee :: arguments.map expr
  | expr (.staticEffectCall effectType _ candidates arguments _) =>
    expr effectType :: (effectRuntimeChildren candidates arguments).map expr
  | expr (.field inner _) | expr (.scope inner _) | expr (.unary _ inner) | expr (.move inner)
  | expr (.regionNew inner _) | expr (.paren inner) => [expr inner]
  | expr (.index left right) | expr (.binary left _ right) | expr (.refinement left right) =>
    [expr left, expr right]
  | expr (.slice first second third) | expr (.ifExpr first second third)
  | expr (.comprehension _ first second third) => [expr first, expr second, expr third]
  | expr (.indexN object arguments) => expr object :: arguments.map expr
  | expr (.array elements) | expr (.tuple elements) | expr (.setLit elements) => elements.map expr
  | expr (.dictLit entries) => entries.flatMap ofEntry
  | expr (.construct base fields) | expr (.recordUpdate base fields) =>
    expr base :: fields.map ofField
  | expr (.matchExpr scrutinee arms _) | expr (.catchExpr scrutinee arms _) =>
    expr scrutinee :: arms.flatMap ofArm
  | expr (.getElse guarded recovery) => [expr guarded, stmts recovery]
  | expr (.lambda _ body) => [stmts body]
  | expr (.block statements value _) => [stmts statements, expr value]
  | expr _ => []
  | stmt (.expr value _) | stmt (.contract _ value _) | stmt (.returnStmt (some value) _) =>
    [expr value]
  | stmt (.block _ _ _ body _) => [stmts body]
  | stmt (.varDecl _ left right _) | stmt (.assign left _ right _) => [expr left, expr right]
  | stmt (.ifStmt condition thenBody elseBody _) =>
    [expr condition, stmts thenBody, stmts elseBody]
  | stmt (.whileStmt head body _) | stmt (.forStmt _ _ head body _) => [expr head, stmts body]
  | stmt (.matchStmt scrutinee arms _) => expr scrutinee :: arms.flatMap ofArm
  | stmt _ => []
  | stmts statements => statements.map stmt

noncomputable def size : Node → Nat
  | expr expression => sizeOf expression
  | stmt statement => sizeOf statement
  | stmts statements => sizeOf statements

/-- A place is another one or under it. -/
inductive Part : Node → Node → Prop
  | refl (node : Node) : Part node node
  | child {part child node : Node} : child ∈ node.children → Part part child → Part part node

end Node

/-! ## Sizes -/

section Sizes

variable {node : Node} {arms : List MatchArm} {expressions : List Expr} {fields : List FieldInit}
  {entries : List DictEntry} {candidates : List StaticEffectCandidate}

theorem sizeOf_guard (arm : MatchArm) : sizeOf arm.guard < sizeOf arm := by
  cases arm with
  | mk pattern body guard pos =>
    simp only [MatchArm.guard_mk, MatchArm.mk.sizeOf_spec]
    omega

theorem sizeOf_body (arm : MatchArm) : sizeOf arm.body < sizeOf arm := by
  cases arm with
  | mk pattern body guard pos =>
    simp only [MatchArm.body_mk, MatchArm.mk.sizeOf_spec]
    omega

theorem size_ofArm {arm : MatchArm} (mem : arm ∈ arms) (inArm : node ∈ Node.ofArm arm) :
    node.size < sizeOf arms := by
  have := sizeOf_lt_of_mem mem
  rcases mem_pair.mp inArm with rfl | rfl
  · exact (sizeOf_guard arm).trans this
  · exact (sizeOf_body arm).trans this

theorem size_ofEntry {entry : DictEntry} (mem : entry ∈ entries)
    (inEntry : node ∈ Node.ofEntry entry) : node.size < sizeOf entries := by
  have := sizeOf_lt_of_mem mem
  cases entry with
  | mk key value =>
    simp only [DictEntry.mk.sizeOf_spec] at this
    rcases mem_pair.mp inEntry with rfl | rfl
    · simp only [Node.size, DictEntry.key]
      omega
    · simp only [Node.size, DictEntry.value]
      omega

theorem size_ofField {field : FieldInit} (mem : field ∈ fields) :
    (Node.ofField field).size < sizeOf fields := by
  have := sizeOf_lt_of_mem mem
  cases field with
  | mk name value isCopyBase =>
    simp only [FieldInit.mk.sizeOf_spec] at this
    simp only [Node.ofField, Node.size, FieldInit.value]
    omega

theorem sizeOf_capture {candidate : StaticEffectCandidate} (mem : candidate ∈ candidates)
    {capture : Expr} (inCandidate : capture ∈ candidate.captures) :
      sizeOf capture < sizeOf candidates := by
  have := sizeOf_lt_of_mem mem
  cases candidate with
  | mk effectType callee captures =>
    have := sizeOf_lt_of_mem (show capture ∈ captures from inCandidate)
    simp only [StaticEffectCandidate.mk.sizeOf_spec] at *
    omega

theorem size_ofExpressions (mem : node ∈ expressions.map Node.expr) :
    node.size < sizeOf expressions := by
  obtain ⟨expression, found, rfl⟩ := mem_map.mp mem
  exact sizeOf_lt_of_mem found

theorem size_ofStatements {statements : List Stmt}
    (mem : node ∈ statements.map Node.stmt) : node.size < sizeOf statements := by
  obtain ⟨statement, found, rfl⟩ := mem_map.mp mem
  exact sizeOf_lt_of_mem found

theorem size_ofArms (mem : node ∈ arms.flatMap Node.ofArm) : node.size < sizeOf arms := by
  obtain ⟨arm, found, inArm⟩ := mem_flatMap.mp mem
  exact size_ofArm found inArm

theorem size_ofEntries (mem : node ∈ entries.flatMap Node.ofEntry) :
    node.size < sizeOf entries := by
  obtain ⟨entry, found, inEntry⟩ := mem_flatMap.mp mem
  exact size_ofEntry found inEntry

theorem size_ofFields (mem : node ∈ fields.map Node.ofField) : node.size < sizeOf fields := by
  obtain ⟨field, found, rfl⟩ := mem_map.mp mem
  exact size_ofField found

theorem size_ofEffect {arguments : List Expr}
    (mem : node ∈ (effectRuntimeChildren candidates arguments).map Node.expr) :
    node.size < sizeOf candidates + sizeOf arguments := by
  obtain ⟨expression, found, rfl⟩ := mem_map.mp mem
  simp only [effectRuntimeChildren, mem_append, mem_flatMap] at found
  rcases found with ⟨candidate, inCandidates, captured⟩ | argument
  · exact Nat.lt_add_right _ (sizeOf_capture inCandidates captured)
  · exact Nat.lt_add_left _ (sizeOf_lt_of_mem argument)

theorem Node.size_child {node child : Node} (mem : child ∈ node.children) :
    child.size < node.size := by
  unfold Node.children at mem
  rcases node with e | s | l
  · cases e <;> dsimp only at mem <;> grind [Node.size, → size_ofExpressions, → size_ofArms,
      → size_ofEntries, → size_ofFields, → size_ofEffect]
  · cases s with
    | returnStmt value pos => cases value <;> dsimp only at mem <;> grind [Node.size]
    | _ => dsimp only at mem; grind [Node.size, → size_ofArms]
  · exact size_ofStatements mem

theorem sizeOf_drop_le {α : Type} [SizeOf α] (list : List α) (count : Nat) :
    sizeOf (list.drop count) ≤ sizeOf list := by
  induction list generalizing count with
  | nil => simp
  | cons x rest ih =>
    cases count with
    | zero => exact Nat.le_refl _
    | succ count =>
      rw [drop_succ_cons, List.cons.sizeOf_spec]
      exact (ih count).trans (Nat.le_add_left _ _)

end Sizes

/-! ## Stalling matches -/

/-- The loop over the arms of a match on a literal does not step at the first arm it can reach. -/
def Stalls (scrutinee : Expr) (arms : List MatchArm) : Prop :=
  (literalBool scrutinee).isSome ∧ ∃ target arm, arms[target]? = some arm ∧
    matchArmReachable scrutinee arms target ∧ literalBool arm.guard = some false ∧
    ∀ prior < target, matchArmReachable scrutinee arms prior = false

/-- A match that stalls, as an expression or as a statement. -/
def Node.Stalling : Node → Prop
  | expr (.matchExpr scrutinee arms _) | stmt (.matchStmt scrutinee arms _) => Stalls scrutinee arms
  | _ => False

/-- No match in a tree stalls. -/
def Node.Unstalled (node : Node) : Prop := ∀ part, Node.Part part node → ¬ part.Stalling

theorem Node.Unstalled.child {node child : Node} (h : node.Unstalled)
    (mem : child ∈ node.children) : child.Unstalled :=
      fun part inChild => h part (.child mem inChild)

/-- Places below a bound: no match in them stalls, and a call on them is below the bound. -/
def Under (bound : Nat) (node : Node) : Prop := node.Unstalled ∧ 4 * node.size + 1 < bound

def ArmsUnder (bound : Nat) (arms : List MatchArm) : Prop :=
  (∀ node ∈ arms.flatMap Node.ofArm, node.Unstalled) ∧ 4 * sizeOf arms + 2 < bound

/-! ## Calls that get smaller -/

/-- No match in what a query is asked about stalls, and of the loop that can get stuck, the arms
behind it cannot be reached. -/
def Query.Calm : Query → Prop
  | .expressionTerminates _ expression | .catchableRaise _ expression
  | .expressionHasBreak _ _ _ expression => (Node.expr expression).Unstalled
  | .statementTerminates _ statement | .raiseStatementSummary _ statement
  | .statementHasBreak _ _ _ statement => (Node.stmt statement).Unstalled
  | .statementsTerminate _ statements | .statementsHaveBreak _ _ _ statements =>
    (Node.stmts statements).Unstalled
  | .matchArmsTerminate _ scrutinee arms =>
    ¬ Stalls scrutinee arms ∧ ∀ node ∈ arms.flatMap Node.ofArm, node.Unstalled
  | .literalArmsLoop _ scrutinee arms armIndex =>
    (¬ Stalls scrutinee arms ∧ (literalBool scrutinee).isSome ∧
      ∀ prior < armIndex, matchArmReachable scrutinee arms prior = false) ∧
    ∀ node ∈ arms.flatMap Node.ofArm, node.Unstalled
  | .coverArmsLoop _ _ arms _ _ _ | .catchErrorArmsLoop _ arms _ | .raiseMatchArmsLoop _ _ arms _
  | .raiseCatchArmsLoop _ arms _ _ _ _ | .summaryCatchArmsLoop _ arms _ _ _ _ _
  | .breakArmsLoop _ _ _ _ arms _ _ _ _ => ∀ node ∈ arms.flatMap Node.ofArm, node.Unstalled

/-- Calls go to parts, and the loops over arms to the arms that are left. -/
noncomputable def Query.weight : Query → Nat
  | .expressionTerminates _ expression | .catchableRaise _ expression
  | .expressionHasBreak _ _ _ expression => 4 * sizeOf expression
  | .statementTerminates _ statement | .statementHasBreak _ _ _ statement => 4 * sizeOf statement
  | .raiseStatementSummary _ statement => 4 * sizeOf statement + 1
  | .statementsTerminate _ statements | .statementsHaveBreak _ _ _ statements =>
    4 * sizeOf statements
  | .matchArmsTerminate _ _ arms => 4 * sizeOf arms + 2
  | .literalArmsLoop _ _ arms armIndex | .coverArmsLoop _ _ arms armIndex _ _
  | .catchErrorArmsLoop _ arms armIndex | .raiseMatchArmsLoop _ _ arms armIndex
  | .raiseCatchArmsLoop _ arms _ _ _ armIndex | .summaryCatchArmsLoop _ arms _ _ _ _ armIndex
  | .breakArmsLoop _ _ _ _ arms _ _ _ armIndex => 4 * sizeOf (arms.drop armIndex) + 1

def Below (bound : Nat) (query : Query) : Prop := query.Calm ∧ query.weight < bound

section Calls

variable {bound : Nat} {metadata : Option CatchContext} {context : CatchContext}
  {expression : Expr} {statement : Stmt} {statements : List Stmt}

theorem Under.of_child {node child : Node} (calm : node.Unstalled) (fits : 4 * node.size ≤ bound)
    (mem : child ∈ node.children) : Under bound child := by
  have := Node.size_child mem
  exact ⟨calm.child mem, by omega⟩

theorem Under.child {node child : Node} (under : Under bound node) (mem : child ∈ node.children) :
    Under bound child := .of_child under.1 (by have := under.2; omega) mem

theorem expressionTerminates_asks (under : Under bound (.expr expression)) :
    (expressionTerminates metadata expression).Asks (Below bound) :=
  (asks_call _).mpr ⟨under.1, Nat.lt_of_succ_lt under.2⟩

theorem statementTerminates_asks (under : Under bound (.stmt statement)) :
    (statementTerminates metadata statement).Asks (Below bound) :=
  (asks_call _).mpr ⟨under.1, Nat.lt_of_succ_lt under.2⟩

theorem statementsTerminate_asks (under : Under bound (.stmts statements)) :
    (statementsTerminate metadata statements).Asks (Below bound) :=
  (asks_call _).mpr ⟨under.1, Nat.lt_of_succ_lt under.2⟩

theorem catchableRaise_asks (under : Under bound (.expr expression)) :
    (catchableRaise context expression).Asks (Below bound) :=
  (asks_call _).mpr ⟨under.1, Nat.lt_of_succ_lt under.2⟩

theorem catchableRaiseSequence_asks {expressions : List Expr}
    (under : ∀ expression ∈ expressions, Under bound (.expr expression)) :
    (catchableRaiseSequence context expressions).Asks (Below bound) := by
  induction expressions with
  | nil => trivial
  | cons expression rest ih =>
    have first := under expression (.head _)
    refine (catchableRaise_asks first).bind fun _ => .ite trivial ?_
    refine (expressionTerminates_asks first).bind fun _ => .ite trivial ?_
    exact ih fun other mem => under other (.tail _ mem)

theorem catchableRaiseStatementsSummary_asks (under : Under bound (.stmts statements)) :
    (catchableRaiseStatementsSummary context statements).Asks (Below bound) := by
  have each : ∀ statement ∈ statements, Under bound (.stmt statement) := fun statement mem =>
    under.child (mem_map_of_mem mem)
  clear under
  induction statements with
  | nil => trivial
  | cons statement rest ih =>
    have first : (askFor (.raiseStatementSummary context statement)).Asks (Below bound) :=
      (asks_call _).mpr (each statement (.head _))
    refine first.bind fun _ => .ite trivial (.ite trivial ?_)
    exact ih fun other mem => each other (.tail _ mem)

theorem catchableRaiseStatements_asks (under : Under bound (.stmts statements)) :
    (catchableRaiseStatements context statements).Asks (Below bound) :=
  (catchableRaiseStatementsSummary_asks under).bind fun _ => trivial

theorem expressionHasBreak_asks {depth : Nat} {labels : List Bytes}
    (under : Under bound (.expr expression)) :
    (expressionHasBreakForLoop context depth labels expression).Asks (Below bound) :=
  (asks_call _).mpr ⟨under.1, Nat.lt_of_succ_lt under.2⟩

theorem statementsHaveBreak_asks {depth : Nat} {labels : List Bytes}
    (under : Under bound (.stmts statements)) :
    (statementsHaveBreakForLoop context depth labels statements).Asks (Below bound) :=
  (asks_call _).mpr ⟨under.1, Nat.lt_of_succ_lt under.2⟩

end Calls

/-! ## Arms -/

section Arms

variable {bound : Nat} {metadata : Option CatchContext} {context : CatchContext}
  {arms : List MatchArm} {arm : MatchArm} {armIndex : Nat}

section Arms

variable (under : ArmsUnder bound arms)
include under

theorem ArmsUnder.node {node : Node} (mem : node ∈ arms.flatMap Node.ofArm) : Under bound node := by
  have := size_ofArms mem
  have := under.2
  exact ⟨under.1 node mem, by omega⟩

theorem ArmsUnder.body (mem : arm ∈ arms) : Under bound (.stmts arm.body) :=
  under.node (mem_flatMap.mpr ⟨arm, mem, .tail _ (.head _)⟩)

theorem ArmsUnder.drop (start : Nat) : 4 * sizeOf (arms.drop start) + 1 < bound := by
  have := sizeOf_drop_le arms start
  have := under.2
  omega

theorem catchErrorArmsTerminate_asks : (catchErrorArmsTerminate metadata arms).Asks (Below bound) :=
  .ite trivial ((asks_call _).mpr ⟨under.1, under.drop 1⟩)

theorem catchArmsTerminate_asks : (catchArmsTerminate metadata arms).Asks (Below bound) := by
  refine .andAlso ?_ (catchErrorArmsTerminate_asks under)
  cases arms with
  | nil => trivial
  | cons success rest => exact statementsTerminate_asks (under.body (.head _))

theorem matchArmsTerminate_asks {scrutinee : Expr} (steps : ¬ Stalls scrutinee arms) :
    (matchArmsTerminate metadata scrutinee arms).Asks (Below bound) :=
  (asks_call _).mpr ⟨⟨steps, under.1⟩, under.2⟩

end Arms

theorem drop_arm (here : arms[armIndex]? = some arm) :
    arm ∈ arms ∧ sizeOf arm < sizeOf (arms.drop armIndex) ∧
      sizeOf (arms.drop (armIndex + 1)) < sizeOf (arms.drop armIndex) := by
  obtain ⟨inside, rfl⟩ := List.getElem?_eq_some_iff.mp here
  rw [drop_eq_getElem_cons inside, List.cons.sizeOf_spec]
  exact ⟨getElem_mem inside, by omega, by omega⟩

/-- What the arm of an index holds is below the bound of a loop over the arms. -/
theorem guard_under (calm : ∀ node ∈ arms.flatMap Node.ofArm, node.Unstalled)
    (here : arms[armIndex]? = some arm) :
    Under (4 * sizeOf (arms.drop armIndex) + 1) (.expr arm.guard) := by
  obtain ⟨mem, small, _⟩ := drop_arm here
  have := sizeOf_guard arm
  refine ⟨calm _ (mem_flatMap.mpr ⟨arm, mem, .head _⟩), ?_⟩
  rw [Node.size]
  omega

theorem body_under (calm : ∀ node ∈ arms.flatMap Node.ofArm, node.Unstalled)
    (here : arms[armIndex]? = some arm) :
    Under (4 * sizeOf (arms.drop armIndex) + 1) (.stmts arm.body) := by
  obtain ⟨mem, small, _⟩ := drop_arm here
  have := sizeOf_body arm
  refine ⟨calm _ (mem_flatMap.mpr ⟨arm, mem, .tail _ (.head _)⟩), ?_⟩
  rw [Node.size]
  omega

theorem next_under (here : arms[armIndex]? = some arm) :
    4 * sizeOf (arms.drop (armIndex + 1)) + 1 < 4 * sizeOf (arms.drop armIndex) + 1 := by
  obtain ⟨_, _, smaller⟩ := drop_arm here
  omega

end Arms

/-! ## The queries on a tree -/

section Trees

variable {bound : Nat} {metadata : Option CatchContext} {context : CatchContext}
  {expression : Expr} {statement : Stmt}

theorem armsUnder_of_expr {scrutinee : Expr} {arms : List MatchArm} {pos : Pos}
    (calm : (Node.expr (.matchExpr scrutinee arms pos)).Unstalled)
    (fits : 4 * sizeOf (Expr.matchExpr scrutinee arms pos) ≤ bound) : ArmsUnder bound arms := by
  rw [Expr.matchExpr.sizeOf_spec] at fits
  exact ⟨fun node mem => calm.child (.tail _ mem), by omega⟩

theorem armsUnder_of_catch {guarded : Expr} {arms : List MatchArm} {pos : Pos}
    (calm : (Node.expr (.catchExpr guarded arms pos)).Unstalled)
    (fits : 4 * sizeOf (Expr.catchExpr guarded arms pos) ≤ bound) : ArmsUnder bound arms := by
  rw [Expr.catchExpr.sizeOf_spec] at fits
  exact ⟨fun node mem => calm.child (.tail _ mem), by omega⟩

theorem armsUnder_of_stmt {scrutinee : Expr} {arms : List MatchArm} {pos : Pos}
    (calm : (Node.stmt (.matchStmt scrutinee arms pos)).Unstalled)
    (fits : 4 * sizeOf (Stmt.matchStmt scrutinee arms pos) ≤ bound) : ArmsUnder bound arms := by
  rw [Stmt.matchStmt.sizeOf_spec] at fits
  exact ⟨fun node mem => calm.child (.tail _ mem), by omega⟩

theorem anyOf_expressions {expressions : List Expr}
    (under : ∀ node ∈ expressions.map Node.expr, Under bound node) :
    (anyOf (expressionTerminates metadata) expressions).Asks (Below bound) :=
  .anyOf fun _ mem => expressionTerminates_asks (under _ (mem_map_of_mem mem))

theorem anyOf_fields {fields : List FieldInit}
    (under : ∀ node ∈ fields.map Node.ofField, Under bound node) :
    (anyOf (fun field => expressionTerminates metadata field.value) fields).Asks (Below bound) :=
  .anyOf fun _ mem => expressionTerminates_asks (under _ (mem_map_of_mem mem))

theorem expressionTerminatesBody_asks (calm : (Node.expr expression).Unstalled)
    (fits : 4 * sizeOf expression ≤ bound) :
    (expressionTerminatesBody metadata expression).Asks (Below bound) := by
  have under : ∀ child ∈ (Node.expr expression).children, Under bound child := fun child mem =>
    .of_child calm fits mem
  cases expression with
  | paren inner | unary _ inner | move inner | regionNew inner _ | field inner _ | scope inner _ =>
    exact expressionTerminates_asks (under _ (.head _))
  | getElse inner _ | comprehension _ inner _ _ =>
    exact expressionTerminates_asks (under _ (.head _))
  | call callee arguments _ =>
    refine .ite trivial (.orElse (expressionTerminates_asks (under _ (.head _))) ?_)
    exact anyOf_expressions fun node mem => under node (.tail _ mem)
  | staticEffectCall _ _ candidates arguments _ =>
    exact anyOf_expressions fun node mem => under node (.tail _ mem)
  | binary left operator right =>
    refine (expressionTerminates_asks (under _ (.head _))).bind fun _ => .ite trivial ?_
    exact .ite (expressionTerminates_asks (under _ (.tail _ (.head _)))) trivial
  | block statements value _ =>
    exact .orElse (statementsTerminate_asks (under _ (.head _)))
      (expressionTerminates_asks (under _ (.tail _ (.head _))))
  | ifExpr condition thenValue elseValue =>
    have thenAsks : (expressionTerminates metadata thenValue).Asks (Below bound) :=
      expressionTerminates_asks (under _ (.tail _ (.head _)))
    have elseAsks : (expressionTerminates metadata elseValue).Asks (Below bound) :=
      expressionTerminates_asks (under _ (.tail _ (.tail _ (.head _))))
    refine (expressionTerminates_asks (under _ (.head _))).bind fun _ => .ite trivial ?_
    rcases literalBool condition with - | - | -
    · exact .andAlso thenAsks elseAsks
    · exact elseAsks
    · exact thenAsks
  | matchExpr scrutinee arms pos =>
    refine .orElse (expressionTerminates_asks (under _ (.head _))) ?_
    exact matchArmsTerminate_asks (armsUnder_of_expr calm fits) (calm _ (.refl _))
  | index object index | refinement object index =>
    exact .orElse (expressionTerminates_asks (under _ (.head _)))
      (expressionTerminates_asks (under _ (.tail _ (.head _))))
  | indexN object indices =>
    refine .orElse (expressionTerminates_asks (under _ (.head _))) ?_
    exact anyOf_expressions fun node mem => under node (.tail _ mem)
  | slice object low high =>
    refine .orElse (expressionTerminates_asks (under _ (.head _))) (.orElse ?_ ?_)
    · exact expressionTerminates_asks (under _ (.tail _ (.head _)))
    · exact expressionTerminates_asks (under _ (.tail _ (.tail _ (.head _))))
  | array elements | tuple elements | setLit elements => exact anyOf_expressions under
  | dictLit entries =>
    refine .anyOf fun entry mem => .orElse ?_ ?_
    · exact expressionTerminates_asks (under _ (mem_flatMap.mpr ⟨entry, mem, .head _⟩))
    · exact expressionTerminates_asks
        (under _ (mem_flatMap.mpr ⟨entry, mem, .tail _ (.head _)⟩))
  | construct _ fields => exact anyOf_fields fun node mem => under node (.tail _ mem)
  | recordUpdate base fields =>
    refine .orElse (expressionTerminates_asks (under _ (.head _))) ?_
    exact anyOf_fields fun node mem => under node (.tail _ mem)
  | catchExpr guarded arms pos =>
    have arms := armsUnder_of_catch calm fits
    refine (expressionTerminates_asks (under _ (.head _))).bind fun _ => ?_
    refine (catchableRaise_asks (under _ (.head _))).bind fun _ => .ite trivial (.ite ?_ ?_)
    · exact (catchErrorArmsTerminate_asks arms).bind fun _ => catchArmsTerminate_asks arms
    · exact catchArmsTerminate_asks arms
  | _ => trivial

theorem statementTerminatesBody_asks (calm : (Node.stmt statement).Unstalled)
    (fits : 4 * sizeOf statement ≤ bound) :
    (statementTerminatesBody metadata statement).Asks (Below bound) := by
  have under : ∀ child ∈ (Node.stmt statement).children, Under bound child := fun child mem =>
    .of_child calm fits mem
  cases statement with
  | expr value _ | forStmt _ _ value _ _ => exact expressionTerminates_asks (under _ (.head _))
  | varDecl _ _ value _ => exact expressionTerminates_asks (under _ (.tail _ (.head _)))
  | assign target _ value _ =>
    exact .orElse (expressionTerminates_asks (under _ (.head _)))
      (expressionTerminates_asks (under _ (.tail _ (.head _))))
  | block _ _ _ body _ => exact statementsTerminate_asks (under _ (.head _))
  | matchStmt scrutinee arms line =>
    have armsUnder := armsUnder_of_stmt calm fits
    have scrutineeUnder := under _ (.head _)
    refine .ite ?_ (.orElse (expressionTerminates_asks scrutineeUnder) ?_)
    · refine (expressionTerminates_asks scrutineeUnder).bind fun _ => ?_
      refine (catchableRaise_asks scrutineeUnder).bind fun _ => .ite (.ite trivial ?_) ?_
      · exact catchErrorArmsTerminate_asks armsUnder
      · exact catchArmsTerminate_asks armsUnder
    · exact matchArmsTerminate_asks armsUnder (calm _ (.refl _))
  | ifStmt condition thenBody elseBody _ =>
    have thenAsks : (statementsTerminate metadata thenBody).Asks (Below bound) :=
      statementsTerminate_asks (under _ (.tail _ (.head _)))
    have elseAsks : (statementsTerminate metadata elseBody).Asks (Below bound) :=
      statementsTerminate_asks (under _ (.tail _ (.tail _ (.head _))))
    refine (expressionTerminates_asks (under _ (.head _))).bind fun _ => .ite trivial ?_
    rcases literalBool condition with - | - | -
    · exact .andAlso thenAsks elseAsks
    · exact elseAsks
    · exact thenAsks
  | whileStmt condition body _ =>
    refine (expressionTerminates_asks (under _ (.head _))).bind fun _ => .ite trivial ?_
    exact .ite (.negate (statementsHaveBreak_asks (under _ (.tail _ (.head _))))) trivial
  | _ => trivial

theorem raiseThen_asks {next : Ask Bool} (under : Under bound (.expr expression))
    (rest : next.Asks (Below bound)) : (raiseThen context expression next).Asks (Below bound) := by
  refine (catchableRaise_asks under).bind fun _ => .ite trivial ?_
  exact (expressionTerminates_asks under).bind fun _ => .ite trivial rest

theorem catchableRaiseFieldValues_asks {fields : List FieldInit}
    (under : ∀ node ∈ fields.map Node.ofField, Under bound node) :
    (catchableRaiseFieldValues context fields).Asks (Below bound) := by
  induction fields with
  | nil => trivial
  | cons field rest ih =>
    exact raiseThen_asks (under _ (.head _)) (ih fun node mem => under node (.tail _ mem))

theorem catchableRaiseEntries_asks {entries : List DictEntry}
    (under : ∀ node ∈ entries.flatMap Node.ofEntry, Under bound node) :
    (catchableRaiseEntries context entries).Asks (Below bound) := by
  induction entries with
  | nil => trivial
  | cons entry rest ih =>
    have key := under (.expr entry.key) (.head _)
    have value := under (.expr entry.value) (.tail _ (.head _))
    refine (catchableRaise_asks key).bind fun _ => .ite trivial ?_
    refine (expressionTerminates_asks key).bind fun _ => .ite trivial ?_
    refine (catchableRaise_asks value).bind fun _ => .ite trivial ?_
    refine (expressionTerminates_asks value).bind fun _ => .ite trivial ?_
    exact ih fun node mem => under node (.tail _ (.tail _ mem))

theorem sequenceRaises_asks {expressions : List Expr}
    (under : ∀ node ∈ expressions.map Node.expr, Under bound node) :
    (catchableRaiseSequence context expressions).Asks (Below bound) :=
  catchableRaiseSequence_asks fun _ mem => under _ (mem_map_of_mem mem)

theorem catchableRaiseBody_asks (calm : (Node.expr expression).Unstalled)
    (fits : 4 * sizeOf expression ≤ bound) :
    (catchableRaiseBody context expression).Asks (Below bound) := by
  have under : ∀ child ∈ (Node.expr expression).children, Under bound child := fun child mem =>
    .of_child calm fits mem
  cases expression with
  | paren inner | unary _ inner | move inner | regionNew inner _ | field inner _ | scope inner _ =>
    exact catchableRaise_asks (under _ (.head _))
  | call callee arguments _ =>
    have arguments : (catchableRaiseSequence context arguments).Asks (Below bound) :=
      sequenceRaises_asks fun node mem => under node (.tail _ mem)
    refine (catchableRaise_asks (under _ (.head _))).bind fun _ => .ite trivial (.ite ?_ ?_)
    · refine (expressionTerminates_asks (under _ (.head _))).bind fun _ => .ite trivial ?_
      exact arguments.bind fun _ => trivial
    · exact arguments.bind fun _ => trivial
  | staticEffectCall _ _ candidates arguments _ =>
    exact (sequenceRaises_asks fun node mem => under node (.tail _ mem)).bind fun _ => trivial
  | ifExpr condition thenValue elseValue =>
    have thenAsks : (catchableRaise context thenValue).Asks (Below bound) :=
      catchableRaise_asks (under _ (.tail _ (.head _)))
    have elseAsks : (catchableRaise context elseValue).Asks (Below bound) :=
      catchableRaise_asks (under _ (.tail _ (.tail _ (.head _))))
    refine raiseThen_asks (under _ (.head _)) ?_
    rcases literalBool condition with - | - | -
    · exact .orElse thenAsks elseAsks
    · exact elseAsks
    · exact thenAsks
  | matchExpr scrutinee arms _ =>
    have armsUnder := armsUnder_of_expr calm fits
    exact raiseThen_asks (under _ (.head _)) ((asks_call _).mpr ⟨armsUnder.1, armsUnder.drop 0⟩)
  | block statements value _ =>
    refine (catchableRaiseStatements_asks (under _ (.head _))).bind fun _ => .ite trivial ?_
    refine (statementsTerminate_asks (under _ (.head _))).bind fun _ => .ite trivial ?_
    exact catchableRaise_asks (under _ (.tail _ (.head _)))
  | binary left operator right =>
    refine raiseThen_asks (under _ (.head _)) (.ite ?_ trivial)
    exact catchableRaise_asks (under _ (.tail _ (.head _)))
  | index object index | refinement object index =>
    exact raiseThen_asks (under _ (.head _)) (catchableRaise_asks (under _ (.tail _ (.head _))))
  | indexN object indices =>
    refine raiseThen_asks (under _ (.head _)) ?_
    exact (sequenceRaises_asks fun node mem => under node (.tail _ mem)).bind fun _ => trivial
  | slice object low high =>
    refine raiseThen_asks (under _ (.head _)) (raiseThen_asks (under _ (.tail _ (.head _))) ?_)
    exact catchableRaise_asks (under _ (.tail _ (.tail _ (.head _))))
  | array elements | tuple elements | setLit elements =>
    exact (sequenceRaises_asks under).bind fun _ => trivial
  | dictLit entries => exact catchableRaiseEntries_asks under
  | construct _ fields =>
    exact catchableRaiseFieldValues_asks fun node mem => under node (.tail _ mem)
  | recordUpdate base fields =>
    refine raiseThen_asks (under _ (.head _)) ?_
    exact catchableRaiseFieldValues_asks fun node mem => under node (.tail _ mem)
  | getElse guarded recovery =>
    exact raiseThen_asks (under _ (.head _))
      (catchableRaiseStatements_asks (under _ (.tail _ (.head _))))
  | catchExpr guarded arms _ =>
    have armsUnder := armsUnder_of_catch calm fits
    refine (expressionTerminates_asks (under _ (.head _))).bind fun _ => ?_
    refine (catchableRaise_asks (under _ (.head _))).bind fun _ => .ite trivial ?_
    exact (asks_call _).mpr ⟨armsUnder.1, armsUnder.drop 0⟩
  | comprehension _ iterable condition body =>
    refine raiseThen_asks (under _ (.head _)) (.ite trivial ?_)
    refine raiseThen_asks (under _ (.tail _ (.head _))) (.ite trivial ?_)
    exact catchableRaise_asks (under _ (.tail _ (.tail _ (.head _))))
  | _ => trivial

theorem guardFails_asks (under : Under bound (.expr expression)) :
    (guardFails context expression).Asks (Below bound) :=
  .ite trivial (expressionTerminates_asks under)

theorem presentGuardFails_asks (under : Under bound (.expr expression)) :
    (presentGuardFails context expression).Asks (Below bound) :=
  .ite trivial (guardFails_asks under)

theorem summaryThen_asks {next : Ask Summary} (under : Under bound (.expr expression))
    (rest : next.Asks (Below bound)) :
    (summaryThen context expression next).Asks (Below bound) := by
  refine (catchableRaise_asks under).bind fun _ => .ite trivial ?_
  exact (expressionTerminates_asks under).bind fun _ => .ite trivial rest

theorem summaryOf_asks (calm : (Node.stmt statement).Unstalled)
    (fits : 4 * sizeOf statement < bound) (foundRaise : Bool) :
    (summaryOf context statement foundRaise).Asks (Below bound) :=
  Asks.bind ((asks_call _).mpr ⟨calm, fits⟩) fun _ => trivial

theorem raiseStatementSummaryBody_asks (calm : (Node.stmt statement).Unstalled)
    (fits : 4 * sizeOf statement < bound) :
    (raiseStatementSummaryBody context statement).Asks (Below bound) := by
  have under : ∀ child ∈ (Node.stmt statement).children, Under bound child := fun child mem =>
    .of_child calm (Nat.le_of_lt fits) mem
  have ends (foundRaise : Bool) : (summaryOf context statement foundRaise).Asks (Below bound) :=
    summaryOf_asks calm fits foundRaise
  cases statement with
  | expr value _ | contract _ value _ =>
    exact (catchableRaise_asks (under _ (.head _))).bind fun _ => ends _
  | returnStmt value _ =>
    cases value with
    | none => trivial
    | some value => exact (catchableRaise_asks (under _ (.head _))).bind fun _ => trivial
  | varDecl _ typeExpression value _ =>
    refine Asks.bind (.orElse (catchableRaise_asks (under _ (.head _))) ?_) fun _ => ends _
    exact catchableRaise_asks (under _ (.tail _ (.head _)))
  | assign target _ value _ =>
    refine summaryThen_asks (under _ (.head _)) ?_
    exact (catchableRaise_asks (under _ (.tail _ (.head _)))).bind fun _ => ends _
  | ifStmt condition thenBody elseBody _ =>
    have thenAsks : (catchableRaiseStatementsSummary context thenBody).Asks (Below bound) :=
      catchableRaiseStatementsSummary_asks (under _ (.tail _ (.head _)))
    have elseAsks : (catchableRaiseStatementsSummary context elseBody).Asks (Below bound) :=
      catchableRaiseStatementsSummary_asks (under _ (.tail _ (.tail _ (.head _))))
    refine summaryThen_asks (under _ (.head _)) ?_
    rcases literalBool condition with - | - | -
    · exact thenAsks.bind fun _ => elseAsks.bind fun _ => trivial
    · exact elseAsks
    · exact thenAsks
  | whileStmt condition body _ | forStmt _ _ condition body _ =>
    refine summaryThen_asks (under _ (.head _)) (.ite trivial ?_)
    exact (catchableRaiseStatementsSummary_asks (under _ (.tail _ (.head _)))).bind fun _ => ends _
  | block _ _ _ body _ =>
    exact (catchableRaiseStatementsSummary_asks (under _ (.head _))).bind fun _ => ends _
  | matchStmt scrutinee arms line =>
    have armsUnder := armsUnder_of_stmt calm (Nat.le_of_lt fits)
    refine (catchableRaise_asks (under _ (.head _))).bind fun _ => ?_
    refine (expressionTerminates_asks (under _ (.head _))).bind fun _ => .ite ?_ ?_
    · refine .ite trivial (.ite trivial (Asks.bind ?_ fun _ => ends _))
      exact (asks_call _).mpr ⟨armsUnder.1, armsUnder.drop 0⟩
    · refine Asks.bind ?_ fun _ => ends _
      exact (asks_call _).mpr ⟨armsUnder.1, armsUnder.drop 0⟩
  | _ => exact ends _

section Breaks

variable {depth : Nat} {labels : List Bytes}

theorem anyBreak_asks {expressions : List Expr}
    (under : ∀ node ∈ expressions.map Node.expr, Under bound node) :
    (anyOf (expressionHasBreakForLoop context depth labels) expressions).Asks (Below bound) :=
  .anyOf fun _ mem => expressionHasBreak_asks (under _ (mem_map_of_mem mem))

theorem expressionHasBreakBody_asks (calm : (Node.expr expression).Unstalled)
    (fits : 4 * sizeOf expression ≤ bound) :
    (expressionHasBreakBody context depth labels expression).Asks (Below bound) := by
  have under : ∀ child ∈ (Node.expr expression).children, Under bound child := fun child mem =>
    .of_child calm fits mem
  cases expression with
  | getElse guarded recovery =>
    exact .orElse (expressionHasBreak_asks (under _ (.head _)))
      (statementsHaveBreak_asks (under _ (.tail _ (.head _))))
  | block statements value _ =>
    exact .orElse (statementsHaveBreak_asks (under _ (.head _)))
      (expressionHasBreak_asks (under _ (.tail _ (.head _))))
  | matchExpr scrutinee arms _ | catchExpr scrutinee arms _ =>
    refine .orElse (expressionHasBreak_asks (under _ (.head _))) ?_
    refine .anyOf fun arm mem => .orElse ?_ ?_
    · exact expressionHasBreak_asks
        (under _ (.tail _ (mem_flatMap.mpr ⟨arm, mem, .head _⟩)))
    · exact statementsHaveBreak_asks
        (under _ (.tail _ (mem_flatMap.mpr ⟨arm, mem, .tail _ (.head _)⟩)))
  | ifExpr first second third | slice first second third | comprehension _ first second third =>
    refine .orElse (expressionHasBreak_asks (under _ (.head _))) (.orElse ?_ ?_)
    · exact expressionHasBreak_asks (under _ (.tail _ (.head _)))
    · exact expressionHasBreak_asks (under _ (.tail _ (.tail _ (.head _))))
  | binary left _ right | index left right | refinement left right =>
    exact .orElse (expressionHasBreak_asks (under _ (.head _)))
      (expressionHasBreak_asks (under _ (.tail _ (.head _))))
  | call head arguments _ | indexN head arguments =>
    refine .orElse (expressionHasBreak_asks (under _ (.head _))) ?_
    exact anyBreak_asks fun node mem => under node (.tail _ mem)
  | staticEffectCall head _ candidates arguments _ =>
    refine .orElse (expressionHasBreak_asks (under _ (.head _))) (anyBreak_asks fun node mem => ?_)
    refine under node (.tail _ ?_)
    rw [effectRuntimeChildren, map_append]
    exact mem_append_right _ mem
  | field inner _ | scope inner _ | unary _ inner | move inner | paren inner | regionNew inner _ =>
    exact expressionHasBreak_asks (under _ (.head _))
  | array elements | tuple elements | setLit elements => exact anyBreak_asks under
  | dictLit entries =>
    refine .anyOf fun entry mem => .orElse ?_ ?_
    · exact expressionHasBreak_asks (under _ (mem_flatMap.mpr ⟨entry, mem, .head _⟩))
    · exact expressionHasBreak_asks (under _ (mem_flatMap.mpr ⟨entry, mem, .tail _ (.head _)⟩))
  | construct base fields | recordUpdate base fields =>
    refine .orElse (expressionHasBreak_asks (under _ (.head _))) (.anyOf fun field mem => ?_)
    exact expressionHasBreak_asks
      (under (Node.ofField field) (.tail _ (mem_map_of_mem mem)))
  | _ => trivial

theorem breakThen_asks {next : Ask Bool} (under : Under bound (.expr expression))
    (rest : next.Asks (Below bound)) :
    (breakThen context depth labels expression next).Asks (Below bound) := by
  refine (expressionHasBreak_asks under).bind fun _ => .ite trivial ?_
  exact (expressionTerminates_asks under).bind fun _ => .ite trivial rest

theorem statementHasBreakBody_asks (calm : (Node.stmt statement).Unstalled)
    (fits : 4 * sizeOf statement ≤ bound) :
    (statementHasBreakBody context depth labels statement).Asks (Below bound) := by
  have under : ∀ child ∈ (Node.stmt statement).children, Under bound child := fun child mem =>
    .of_child calm fits mem
  cases statement with
  | expr value _ | contract _ value _ => exact expressionHasBreak_asks (under _ (.head _))
  | varDecl _ _ value _ => exact expressionHasBreak_asks (under _ (.tail _ (.head _)))
  | assign target _ value _ =>
    exact .orElse (expressionHasBreak_asks (under _ (.head _)))
      (expressionHasBreak_asks (under _ (.tail _ (.head _))))
  | returnStmt value _ =>
    cases value with
    | none => trivial
    | some value => exact expressionHasBreak_asks (under _ (.head _))
  | ifStmt condition thenBody elseBody _ =>
    have thenAsks : (statementsHaveBreakForLoop context depth labels thenBody).Asks (Below bound) :=
      statementsHaveBreak_asks (under _ (.tail _ (.head _)))
    have elseAsks : (statementsHaveBreakForLoop context depth labels elseBody).Asks (Below bound) :=
      statementsHaveBreak_asks (under _ (.tail _ (.tail _ (.head _))))
    refine breakThen_asks (under _ (.head _)) ?_
    rcases literalBool condition with - | - | -
    · exact .orElse thenAsks elseAsks
    · exact elseAsks
    · exact thenAsks
  | block kind clause _ body _ => exact statementsHaveBreak_asks (under _ (.head _))
  | matchStmt scrutinee arms line =>
    have armsUnder := armsUnder_of_stmt calm fits
    have scrutineeUnder := under _ (.head _)
    refine (expressionHasBreak_asks scrutineeUnder).bind fun _ => .ite trivial ?_
    refine (expressionTerminates_asks scrutineeUnder).bind fun _ => ?_
    have last (isCatch aborts mayRaise : Bool) : (askFor (.breakArmsLoop context depth labels
        scrutinee arms isCatch aborts mayRaise 0)).Asks (Below bound) :=
      (asks_call _).mpr ⟨armsUnder.1, armsUnder.drop 0⟩
    refine Asks.bind (.andAlso trivial (catchableRaise_asks scrutineeUnder)) fun _ => ?_
    exact .ite trivial (last _ _ _)
  | whileStmt condition body _ =>
    refine breakThen_asks (under _ (.head _)) (.ite trivial ?_)
    exact statementsHaveBreak_asks (under _ (.tail _ (.head _)))
  | forStmt _ _ iterable body _ =>
    exact breakThen_asks (under _ (.head _))
      (statementsHaveBreak_asks (under _ (.tail _ (.head _))))
  | _ => trivial

theorem statementsHaveBreakBody_asks {statements : List Stmt}
    (under : ∀ statement ∈ statements, Under bound (.stmt statement)) :
    (statementsHaveBreakBody context depth labels statements).Asks (Below bound) := by
  induction statements with
  | nil => trivial
  | cons statement rest ih =>
    have first := under statement (.head _)
    refine Asks.bind ((asks_call _).mpr ⟨first.1, Nat.lt_of_succ_lt first.2⟩) fun _ =>
      .ite trivial ?_
    refine (statementTerminates_asks first).bind fun _ => .ite trivial ?_
    exact ih fun other mem => under other (.tail _ mem)

end Breaks

end Trees

/-! ## The loops over arms -/

section Loops

variable {metadata : Option CatchContext} {context : CatchContext} {scrutinee : Expr}
  {arms : List MatchArm} {armIndex : Nat}

theorem matchArmsTerminateBody_asks (steps : ¬ Stalls scrutinee arms)
    (calm : ∀ node ∈ arms.flatMap Node.ofArm, node.Unstalled) :
    (matchArmsTerminateBody metadata scrutinee arms).Asks (Below (4 * sizeOf arms + 2)) := by
  refine .ite trivial ?_
  cases literal : literalBool scrutinee with
  | none => exact (asks_call _).mpr ⟨calm, Nat.lt_succ_self _⟩
  | some value =>
    refine (asks_call _).mpr ⟨⟨⟨steps, by rw [literal]; rfl, ?_⟩, calm⟩, Nat.lt_succ_self _⟩
    exact fun prior before => absurd before (Nat.not_lt_zero _)

theorem literalArmsLoopBody_asks
    (steps : ¬ Stalls scrutinee arms ∧ (literalBool scrutinee).isSome ∧
      ∀ prior < armIndex, matchArmReachable scrutinee arms prior = false)
    (calm : ∀ node ∈ arms.flatMap Node.ofArm, node.Unstalled) :
    (literalArmsLoopBody metadata scrutinee arms armIndex).Asks
      (Below (4 * sizeOf (arms.drop armIndex) + 1)) := by
  obtain ⟨steps, known, skipped⟩ := steps
  rw [literalArmsLoopBody]
  cases here : arms[armIndex]? with
  | none => trivial
  | some arm =>
    cases reachable : matchArmReachable scrutinee arms armIndex with
    | false =>
      refine (asks_call _).mpr ⟨⟨⟨steps, known, fun prior before => ?_⟩, calm⟩, next_under here⟩
      rcases Nat.lt_succ_iff_lt_or_eq.mp before with before | rfl
      · exact skipped prior before
      · exact reachable
    | true =>
      have guard : literalBool arm.guard ≠ some false := fun guard =>
        steps ⟨known, armIndex, arm, here, reachable, guard, skipped⟩
      simp only [if_pos, if_neg guard]
      refine (expressionTerminates_asks (guard_under calm here)).bind fun guardTerminates => ?_
      refine (statementsTerminate_asks (body_under calm here)).bind fun bodyTerminates => ?_
      -- whatever the answers are, the loop is left at the first arm that can be reached
      split
      next => trivial
      rename_i decided
      refine .ite trivial ?_
      rw [if_pos]
      · trivial
      · cases absent : arm.guard.isAbsent <;> cases guardTerminates <;> simp_all

/-- A query below the loop's own weight that goes on with the next arm. -/
theorem next_asks {next : Query} (here : arms[armIndex]? = some arm) (calm : next.Calm)
    (weight : next.weight = 4 * sizeOf (arms.drop (armIndex + 1)) + 1) :
    (askFor next).Asks (Below (4 * sizeOf (arms.drop armIndex) + 1)) :=
  (asks_call _).mpr ⟨calm, weight ▸ next_under here⟩

variable (calm : ∀ node ∈ arms.flatMap Node.ofArm, node.Unstalled)
include calm

theorem coverArmsLoopBody_asks {coversTrue coversFalse : Bool} :
    (coverArmsLoopBody metadata scrutinee arms armIndex coversTrue coversFalse).Asks
      (Below (4 * sizeOf (arms.drop armIndex) + 1)) := by
  rw [coverArmsLoopBody]
  cases here : arms[armIndex]? with
  | none => trivial
  | some arm =>
    refine .ite ?_ (next_asks here calm rfl)
    refine (expressionTerminates_asks (guard_under calm here)).bind fun _ => ?_
    refine (statementsTerminate_asks (body_under calm here)).bind fun _ => .ite trivial ?_
    exact .ite (.ite trivial (next_asks here calm rfl)) (next_asks here calm rfl)

theorem catchErrorArmsLoopBody_asks :
    (catchErrorArmsLoopBody metadata arms armIndex).Asks
      (Below (4 * sizeOf (arms.drop armIndex) + 1)) := by
  rw [catchErrorArmsLoopBody]
  cases here : arms[armIndex]? with
  | none => trivial
  | some arm =>
    refine .ite ?_ (next_asks here calm rfl)
    refine (expressionTerminates_asks (guard_under calm here)).bind fun _ => ?_
    refine (statementsTerminate_asks (body_under calm here)).bind fun _ => .ite trivial ?_
    exact .ite trivial (next_asks here calm rfl)

theorem raiseMatchArmsLoopBody_asks :
    (raiseMatchArmsLoopBody context scrutinee arms armIndex).Asks
      (Below (4 * sizeOf (arms.drop armIndex) + 1)) := by
  rw [raiseMatchArmsLoopBody]
  cases here : arms[armIndex]? with
  | none => trivial
  | some arm =>
    have guardUnder := guard_under calm here
    refine .ite (next_asks here calm rfl) ?_
    refine (catchableRaise_asks guardUnder).bind fun _ => .ite trivial ?_
    refine (presentGuardFails_asks guardUnder).bind fun _ => .ite (next_asks here calm rfl) ?_
    refine (catchableRaiseStatements_asks (body_under calm here)).bind fun _ => .ite trivial ?_
    exact .ite trivial (next_asks here calm rfl)

theorem raiseCatchArmsLoopBody_asks {aborts mayRaise handled : Bool} :
    (raiseCatchArmsLoopBody context arms aborts mayRaise handled armIndex).Asks
      (Below (4 * sizeOf (arms.drop armIndex) + 1)) := by
  rw [raiseCatchArmsLoopBody]
  cases here : arms[armIndex]? with
  | none => trivial
  | some arm =>
    have guardUnder := guard_under calm here
    refine .ite ?_ (next_asks here calm rfl)
    refine (catchableRaise_asks guardUnder).bind fun _ => .ite trivial ?_
    refine (presentGuardFails_asks guardUnder).bind fun _ => .ite (next_asks here calm rfl) ?_
    refine (catchableRaiseStatements_asks (body_under calm here)).bind fun _ => .ite trivial ?_
    exact next_asks here calm rfl

theorem summaryCatchArmsLoopBody_asks {aborts mayRaise handled raises : Bool} :
    (summaryCatchArmsLoopBody context arms aborts mayRaise handled raises armIndex).Asks
      (Below (4 * sizeOf (arms.drop armIndex) + 1)) := by
  rw [summaryCatchArmsLoopBody]
  cases here : arms[armIndex]? with
  | none => trivial
  | some arm =>
    have guardUnder := guard_under calm here
    refine .ite ?_ (next_asks here calm rfl)
    refine (catchableRaise_asks guardUnder).bind fun _ => ?_
    refine (guardFails_asks guardUnder).bind fun _ => .ite (next_asks here calm rfl) ?_
    refine (catchableRaiseStatementsSummary_asks (body_under calm here)).bind fun _ => ?_
    exact next_asks here calm rfl

theorem breakArmsLoopBody_asks {depth : Nat} {labels : List Bytes}
    {isCatch aborts mayRaise : Bool} :
    (breakArmsLoopBody context depth labels scrutinee arms isCatch aborts mayRaise armIndex).Asks
      (Below (4 * sizeOf (arms.drop armIndex) + 1)) := by
  rw [breakArmsLoopBody]
  cases here : arms[armIndex]? with
  | none => trivial
  | some arm =>
    have guardUnder := guard_under calm here
    refine .ite ?_ (next_asks here calm rfl)
    refine (expressionHasBreak_asks guardUnder).bind fun _ => .ite trivial ?_
    refine .ite ?_ (next_asks here calm rfl)
    refine (expressionTerminates_asks guardUnder).bind fun _ => .ite (next_asks here calm rfl) ?_
    refine (statementsHaveBreak_asks (body_under calm here)).bind fun _ => .ite trivial ?_
    exact next_asks here calm rfl

end Loops

theorem body_asks {query : Query} (calm : query.Calm) : (body query).Asks (Below query.weight) := by
  have statements {list : List Stmt} (calm : (Node.stmts list).Unstalled) :
      ∀ statement ∈ list, Under (4 * sizeOf list) (.stmt statement) := fun statement mem =>
    .of_child calm (Nat.le_refl _) (mem_map_of_mem mem)
  cases query with
  | expressionTerminates metadata expression =>
    exact expressionTerminatesBody_asks calm (Nat.le_refl _)
  | statementTerminates metadata statement =>
    exact statementTerminatesBody_asks calm (Nat.le_refl _)
  | statementsTerminate metadata list =>
    exact .anyOf fun statement mem => statementTerminates_asks (statements calm statement mem)
  | matchArmsTerminate metadata scrutinee arms => exact matchArmsTerminateBody_asks calm.1 calm.2
  | literalArmsLoop metadata scrutinee arms armIndex => exact literalArmsLoopBody_asks calm.1 calm.2
  | coverArmsLoop metadata scrutinee arms armIndex _ _ => exact coverArmsLoopBody_asks calm
  | catchErrorArmsLoop metadata arms armIndex => exact catchErrorArmsLoopBody_asks calm
  | catchableRaise context expression => exact catchableRaiseBody_asks calm (Nat.le_refl _)
  | raiseMatchArmsLoop context scrutinee arms armIndex => exact raiseMatchArmsLoopBody_asks calm
  | raiseCatchArmsLoop context arms _ _ _ armIndex => exact raiseCatchArmsLoopBody_asks calm
  | raiseStatementSummary context statement =>
    exact raiseStatementSummaryBody_asks calm (Nat.lt_succ_self _)
  | summaryCatchArmsLoop context arms _ _ _ _ armIndex => exact summaryCatchArmsLoopBody_asks calm
  | expressionHasBreak context depth labels expression =>
    exact expressionHasBreakBody_asks calm (Nat.le_refl _)
  | statementHasBreak context depth labels statement =>
    exact statementHasBreakBody_asks calm (Nat.le_refl _)
  | statementsHaveBreak context depth labels list =>
    exact statementsHaveBreakBody_asks (statements calm)
  | breakArmsLoop context depth labels scrutinee arms _ _ _ armIndex =>
    exact breakArmsLoopBody_asks calm

theorem returns_of_calm {query : Query} (calm : query.Calm) : Returns body query :=
  returns_of_smaller (fun _ => body_asks) calm

/-! ## Matches that stall -/

section Stuck

variable {metadata : Option CatchContext} {scrutinee : Expr} {arms : List MatchArm}

theorem answer_literal {answer : Bool} (known : (literalBool scrutinee).isSome)
    (answers : Answers body (.expressionTerminates metadata scrutinee) answer) :
    answer = false := by
  obtain ⟨rounds, found⟩ := answers
  induction rounds generalizing scrutinee with
  | zero => cases found
  | succ rounds ih =>
    cases scrutinee with
    | boolLit value => exact (Option.some.inj found).symm
    | paren inner =>
      obtain ⟨inside, asked, same⟩ := Option.bind_eq_some_iff.mp found
      cases same
      exact @ih inner known asked
    | _ => cases known

/-- The queries that a match with these arms gets stuck in: they come to the loop over the arms, or
are the loop at an arm it cannot go beyond. -/
inductive Stuck (metadata : Option CatchContext) (scrutinee : Expr) (arms : List MatchArm)
    (target : Nat) : Query → Prop
  | loop {armIndex : Nat} : armIndex ≤ target →
      Stuck metadata scrutinee arms target (.literalArmsLoop metadata scrutinee arms armIndex)
  | arms : Stuck metadata scrutinee arms target (.matchArmsTerminate metadata scrutinee arms)
  | expr (pos : Pos) : Stuck metadata scrutinee arms target
      (.expressionTerminates metadata (.matchExpr scrutinee arms pos))
  | stmt (pos : Pos) (plain : isCatchMatch metadata pos = false) :
      Stuck metadata scrutinee arms target
        (.statementTerminates metadata (.matchStmt scrutinee arms pos))

theorem comesTo_arms {P : Query → Prop} (known : (literalBool scrutinee).isSome)
    (asks : P (.matchArmsTerminate metadata scrutinee arms)) :
    ComesTo body P (orElse (expressionTerminates metadata scrutinee)
      (matchArmsTerminate metadata scrutinee arms)) := by
  refine Or.inr fun answer answers => ?_
  cases answer_literal known answers
  exact Or.inl asks

theorem not_returns_of_stalls (stalls : Stalls scrutinee arms) {query : Query}
    (stuck : ∀ target, Stuck metadata scrutinee arms target query) : ¬ Returns body query := by
  obtain ⟨known, target, arm, here, reachable, guard, skipped⟩ := stalls
  refine not_returns_of_circle (fun query stuck => ?_) (stuck target)
  cases stuck with
  | expr pos => exact comesTo_arms known .arms
  | stmt pos plain =>
    rw [body, statementTerminatesBody, plain]
    exact comesTo_arms known .arms
  | arms =>
    rw [body, matchArmsTerminateBody]
    have some : arms.isEmpty = false := by
      cases arms with
      | nil => cases here
      | cons _ _ => rfl
    rw [some, if_neg Bool.false_ne_true, if_pos known]
    exact Or.inl (.loop (Nat.zero_le _))
  | loop le =>
    rename_i armIndex
    rw [body, literalArmsLoopBody]
    rcases Nat.lt_or_eq_of_le le with before | rfl
    · obtain ⟨inside, _⟩ := List.getElem?_eq_some_iff.mp here
      rw [getElem?_eq_getElem (Nat.lt_trans before inside)]
      simp only [skipped armIndex before]
      exact Or.inl (.loop before)
    · rw [here]
      simp only [reachable, guard]
      exact Or.inl (.loop (Nat.le_refl _))

end Stuck

/-! ## The queries of a tree -/

inductive FlowQuery : Node → Query → Prop
  | expressionTerminates (metadata : Option CatchContext) (expression : Expr) :
      FlowQuery (.expr expression) (.expressionTerminates metadata expression)
  | catchableRaise (context : CatchContext) (expression : Expr) :
      FlowQuery (.expr expression) (.catchableRaise context expression)
  | expressionHasBreak (context : CatchContext) (depth : Nat) (labels : List Bytes)
      (expression : Expr) :
      FlowQuery (.expr expression) (.expressionHasBreak context depth labels expression)
  | statementTerminates (metadata : Option CatchContext) (statement : Stmt) :
      FlowQuery (.stmt statement) (.statementTerminates metadata statement)
  | raiseStatementSummary (context : CatchContext) (statement : Stmt) :
      FlowQuery (.stmt statement) (.raiseStatementSummary context statement)
  | statementHasBreak (context : CatchContext) (depth : Nat) (labels : List Bytes)
      (statement : Stmt) :
      FlowQuery (.stmt statement) (.statementHasBreak context depth labels statement)
  | statementsTerminate (metadata : Option CatchContext) (statements : List Stmt) :
      FlowQuery (.stmts statements) (.statementsTerminate metadata statements)
  | statementsHaveBreak (context : CatchContext) (depth : Nat) (labels : List Bytes)
      (statements : List Stmt) :
      FlowQuery (.stmts statements) (.statementsHaveBreak context depth labels statements)

theorem Node.Part.trans {part middle node : Node} (first : Node.Part part middle)
    (second : Node.Part middle node) : Node.Part part node := by
  induction second with
  | refl => exact first
  | child mem _ ih => exact .child mem ih

theorem FlowQuery.calm {node : Node} {query : Query} (asked : FlowQuery node query)
    (calm : node.Unstalled) : query.Calm := by
  cases asked <;> exact calm

/-- Every flow query returns on every part of a tree if and only if no match in the tree has a
literal for its scrutinee and the literal `false` for the guard of the first arm that can be
reached. -/
theorem flowQueries_return_iff (node : Node) :
    (∀ part, Node.Part part node → ∀ query, FlowQuery part query → Returns body query) ↔
      node.Unstalled := by
  constructor
  · intro returns part inTree stalling
    cases part with
    | expr expression =>
      cases expression with
      | matchExpr scrutinee arms pos =>
        have stuck (target : Nat) : Stuck none scrutinee arms target _ := .expr pos
        exact not_returns_of_stalls stalling stuck
          (returns _ inTree _ (.expressionTerminates none _))
      | _ => exact stalling
    | stmt statement =>
      cases statement with
      | matchStmt scrutinee arms pos =>
        have stuck (target : Nat) : Stuck none scrutinee arms target _ := .stmt pos rfl
        exact not_returns_of_stalls stalling stuck
          (returns _ inTree _ (.statementTerminates none _))
      | _ => exact stalling
    | stmts statements => exact stalling
  · intro calm part inTree query asked
    exact returns_of_calm (asked.calm fun inner inPart => calm inner (inPart.trans inTree))

/-- A match on `true` whose first arm has the pattern `true` and the guard `false`. -/
def guardedOutMatch : Expr :=
  .matchExpr (.boolLit true)
    [.mk (.literal (ascii "true")) [] (.boolLit false) Pos.none,
     .mk .wildcard [.returnStmt none Pos.none] .absent Pos.none] Pos.none

/-- Neither of the two queries that ask whether it leaves its block returns. -/
theorem guardedOutMatch_never_returns :
    ¬ Returns body (.expressionTerminates none guardedOutMatch) ∧
      ¬ Returns body (.expressionTerminates (some CatchContext.empty) guardedOutMatch) := by
  have stalls : Stalls (.boolLit true)
      [.mk (.literal (ascii "true")) [] (.boolLit false) Pos.none,
       .mk .wildcard [.returnStmt none Pos.none] .absent Pos.none] :=
    ⟨rfl, 0, _, rfl, by decide +kernel, rfl, fun prior before => absurd before (Nat.not_lt_zero _)⟩
  constructor
  · exact not_returns_of_stalls stalls fun _ => .expr _
  · exact not_returns_of_stalls stalls fun _ => .expr _

end Elisa.Semantic.RegionFlow
