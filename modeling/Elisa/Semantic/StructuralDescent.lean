import Mathlib.Data.List.Forall2
import Elisa.Lib.Terms
import Elisa.Semantic.StructuralDecreases

/-!
# Accepted recursion on parts descends

What `check_structural_decreases` is worth, on the runs of a function's body with a value for its
subject.  Of the names that have to do with the subject some may stand for its whole value
(`Whole`), others for parts of it (`Inner`).  The check does not make this division: a bare name, or
the name behind an `as`, is collected although it stands for the whole.  On a run whose calls the
check sees (`Seen`), with names that nothing else gives a value to (`Clean`), an accepted body
passes proper parts.
-/

namespace Elisa.Semantic.Decreases

open Ast Lexer Lib List

/-! ## Values and names -/

abbrev Value := Term Bytes

/-- The variables in scope, the newest first. -/
abbrev Env := List (Bytes × Value)

def lookup (env : Env) (name : Bytes) : Option Value := (env.find? (·.1 = name)).map Prod.snd

def update (name : Bytes) (value : Value) : Env → Env
  | [] => []
  | entry :: rest =>
    if entry.1 = name then (name, value) :: rest else entry :: update name value rest

inductive Binds : Pattern → Value → Bytes → Value → Prop
  | binding {name : Bytes} {value : Value} : Binds (.binding name) value name value
  | typeBind {type name : Bytes} {value : Value} : Binds (.typeBind type name) value name value
  | asName {name : Bytes} {inner : List Pattern} {value : Value} :
    Binds (.asName name inner) value name value
  | behindAs {outer name : Bytes} {inner : List Pattern} {pattern : Pattern} {value bound : Value}
      (mem : pattern ∈ inner) (binds : Binds pattern value name bound) :
    Binds (.asName outer inner) value name bound
  | field {selector name : Bytes} {inner : List Pattern} {pattern : Pattern} {value bound : Value}
      (mem : pattern ∈ inner) (binds : Binds pattern value name bound) :
    Binds (.field selector inner) value name bound
  | option {options : List Pattern} {name : Bytes} {pattern : Pattern} {value bound : Value}
      (mem : pattern ∈ options) (binds : Binds pattern value name bound) :
    Binds (.or options) value name bound
  | variant {path name : Bytes} {fields : List Pattern} {pattern : Pattern}
      {value part bound : Value} (mem : pattern ∈ fields) (isPart : part ∈ value.parts)
      (binds : Binds pattern part name bound) : Binds (.variant path fields) value name bound
  | struct {path name : Bytes} {fields : List Pattern} {pattern : Pattern}
      {value part bound : Value} (mem : pattern ∈ fields) (isPart : part ∈ value.parts)
      (binds : Binds pattern part name bound) : Binds (.struct path fields) value name bound
  | tuple {name : Bytes} {elements : List Pattern} {pattern : Pattern} {value part bound : Value}
      (mem : pattern ∈ elements) (isPart : part ∈ value.parts)
      (binds : Binds pattern part name bound) : Binds (.tuple elements) value name bound
  -- The value is a new sequence.
  | rest {name : Bytes} {value bound : Value} : Binds (.rest name) value name bound

/-- The names in a pattern, with whether they are inside of a payload. -/
inductive Binder : Pattern → Bool → Bytes → Prop
  | binding {name : Bytes} : Binder (.binding name) false name
  | typeBind {type name : Bytes} : Binder (.typeBind type name) false name
  | asName {name : Bytes} {inner : List Pattern} : Binder (.asName name inner) false name
  | behindAs {outer name : Bytes} {inner : List Pattern} {pattern : Pattern} {inside : Bool}
      (mem : pattern ∈ inner) (binder : Binder pattern inside name) :
    Binder (.asName outer inner) inside name
  | field {selector name : Bytes} {inner : List Pattern} {pattern : Pattern} {inside : Bool}
      (mem : pattern ∈ inner) (binder : Binder pattern inside name) :
    Binder (.field selector inner) inside name
  | option {options : List Pattern} {name : Bytes} {pattern : Pattern} {inside : Bool}
      (mem : pattern ∈ options) (binder : Binder pattern inside name) :
    Binder (.or options) inside name
  | variant {path name : Bytes} {fields : List Pattern} {pattern : Pattern} {inside : Bool}
      (mem : pattern ∈ fields) (binder : Binder pattern inside name) :
    Binder (.variant path fields) true name
  | struct {path name : Bytes} {fields : List Pattern} {pattern : Pattern} {inside : Bool}
      (mem : pattern ∈ fields) (binder : Binder pattern inside name) :
    Binder (.struct path fields) true name
  | tuple {name : Bytes} {elements : List Pattern} {pattern : Pattern} {inside : Bool}
      (mem : pattern ∈ elements) (binder : Binder pattern inside name) :
    Binder (.tuple elements) true name

/-- The names for the remaining elements of a sequence, which the check does not collect. -/
inductive RestName : Pattern → Bytes → Prop
  | rest {name : Bytes} : RestName (.rest name) name
  | behindAs {outer name : Bytes} {inner : List Pattern} {pattern : Pattern}
      (mem : pattern ∈ inner) (below : RestName pattern name) : RestName (.asName outer inner) name
  | field {selector name : Bytes} {inner : List Pattern} {pattern : Pattern}
      (mem : pattern ∈ inner) (below : RestName pattern name) :
    RestName (.field selector inner) name
  | option {options : List Pattern} {name : Bytes} {pattern : Pattern} (mem : pattern ∈ options)
      (below : RestName pattern name) : RestName (.or options) name
  | variant {path name : Bytes} {fields : List Pattern} {pattern : Pattern}
      (mem : pattern ∈ fields) (below : RestName pattern name) :
    RestName (.variant path fields) name
  | struct {path name : Bytes} {fields : List Pattern} {pattern : Pattern}
      (mem : pattern ∈ fields) (below : RestName pattern name) :
    RestName (.struct path fields) name
  | tuple {name : Bytes} {elements : List Pattern} {pattern : Pattern} (mem : pattern ∈ elements)
      (below : RestName pattern name) : RestName (.tuple elements) name

def StandsFor (pattern : Pattern) (value : Value) (name : Bytes) (bound : Value) : Prop :=
  RestName pattern name ∨ (Binder pattern false name ∧ bound = value) ∨
    (Binder pattern true name ∧ Term.Part bound value)

variable {bound : Value} {pattern : Pattern} {name : Bytes} {value : Value}

/-- What stands for a part, or for a part of it, is inside of the payload. -/
theorem StandsFor.payload {outer : Pattern} {part : Value}
    (found : StandsFor pattern part name bound) (isPart : part ∈ value.parts)
    (rest : RestName pattern name → RestName outer name)
    (inside : ∀ {b}, Binder pattern b name → Binder outer true name) :
    StandsFor outer value name bound := by
  have part_ : Term.Part part value := .single isPart
  rcases found with isRest | ⟨binder, rfl⟩ | ⟨binder, deeper⟩
  · exact .inl (rest isRest)
  · exact .inr (.inr ⟨inside binder, part_⟩)
  · exact .inr (.inr ⟨inside binder, deeper.trans part_⟩)

theorem standsFor_of_binds (binds : Binds pattern value name bound) :
    StandsFor pattern value name bound := by
  induction binds with
  | binding => exact .inr (.inl ⟨.binding, rfl⟩)
  | typeBind => exact .inr (.inl ⟨.typeBind, rfl⟩)
  | asName => exact .inr (.inl ⟨.asName, rfl⟩)
  | behindAs mem _ ih =>
    exact ih.imp (.behindAs mem) (Or.imp (.imp_left (.behindAs mem)) (.imp_left (.behindAs mem)))
  | field mem _ ih =>
    exact ih.imp (.field mem) (Or.imp (.imp_left (.field mem)) (.imp_left (.field mem)))
  | option mem _ ih =>
    exact ih.imp (.option mem) (Or.imp (.imp_left (.option mem)) (.imp_left (.option mem)))
  | variant mem isPart _ ih => exact ih.payload isPart (.variant mem) (.variant mem)
  | struct mem isPart _ ih => exact ih.payload isPart (.struct mem) (.struct mem)
  | tuple mem isPart _ ih => exact ih.payload isPart (.tuple mem) (.tuple mem)
  | rest => exact .inl .rest

mutual

theorem binder_of_mem : ∀ (pattern : Pattern) {name : Bytes},
    name ∈ decreasesPatternBindings pattern → ∃ inside, Binder pattern inside name
  | .binding own, name, mem => by
    rw [decreasesPatternBindings] at mem
    rw [mem_singleton.mp mem]
    exact ⟨false, .binding⟩
  | .asName own inner, name, mem => by
    rw [decreasesPatternBindings] at mem
    rcases mem_cons.mp mem with rfl | later
    · exact ⟨false, .asName⟩
    · obtain ⟨pattern, inInner, inside, binder⟩ := binder_of_mem_all inner later
      exact ⟨inside, .behindAs inInner binder⟩
  | .typeBind type own, name, mem => by
    rw [decreasesPatternBindings] at mem
    rw [mem_singleton.mp mem]
    exact ⟨false, .typeBind⟩
  | .variant path fields, name, mem => by
    rw [decreasesPatternBindings] at mem
    obtain ⟨pattern, inFields, inside, binder⟩ := binder_of_mem_all fields mem
    exact ⟨true, .variant inFields binder⟩
  | .struct path fields, name, mem => by
    rw [decreasesPatternBindings] at mem
    obtain ⟨pattern, inFields, inside, binder⟩ := binder_of_mem_all fields mem
    exact ⟨true, .struct inFields binder⟩
  | .field selector inner, name, mem => by
    rw [decreasesPatternBindings] at mem
    obtain ⟨pattern, inInner, inside, binder⟩ := binder_of_mem_all inner mem
    exact ⟨inside, .field inInner binder⟩
  | .tuple elements, name, mem => by
    rw [decreasesPatternBindings] at mem
    obtain ⟨pattern, inElements, inside, binder⟩ := binder_of_mem_all elements mem
    exact ⟨true, .tuple inElements binder⟩
  | .or options, name, mem => by
    rw [decreasesPatternBindings] at mem
    obtain ⟨pattern, inOptions, inside, binder⟩ := binder_of_mem_all options mem
    exact ⟨inside, .option inOptions binder⟩
  | .wildcard, name, mem | .literal _, name, mem | .pin _, name, mem | .rest _, name, mem
  | .range _ _ _, name, mem | .other _, name, mem => by
    rw [decreasesPatternBindings] at mem
    · cases mem
    all_goals nofun

theorem binder_of_mem_all : ∀ (patterns : List Pattern) {name : Bytes},
    name ∈ allPatternBindings patterns → ∃ pattern ∈ patterns, ∃ inside, Binder pattern inside name
  | [], name, mem => by
    rw [allPatternBindings] at mem
    cases mem
  | pattern :: rest, name, mem => by
    rw [allPatternBindings] at mem
    rcases mem_append.mp mem with here | there
    · exact ⟨pattern, mem_cons_self, binder_of_mem pattern here⟩
    · obtain ⟨other, inRest, found⟩ := binder_of_mem_all rest there
      exact ⟨other, mem_cons_of_mem _ inRest, found⟩

end

/-! ## The division of the names -/

/-- The lists that stand directly in a statement. -/
inductive Nested : Stmt → List Stmt → Prop
  | thenBody {condition : Expr} {thenBody elseBody : List Stmt} {pos : Pos} :
    Nested (.ifStmt condition thenBody elseBody pos) thenBody
  | elseBody {condition : Expr} {thenBody elseBody : List Stmt} {pos : Pos} :
    Nested (.ifStmt condition thenBody elseBody pos) elseBody
  | whileBody {condition : Expr} {body : List Stmt} {pos : Pos} :
    Nested (.whileStmt condition body pos) body
  | forBody {bind : Bytes} {loopVars : List Bytes} {iterable : Expr} {body : List Stmt}
      {pos : Pos} :
    Nested (.forStmt bind loopVars iterable body pos) body
  | blockBody {kind binding : Bytes} {clause : List Bytes} {body : List Stmt} {pos : Pos} :
    Nested (.block kind clause binding body pos) body
  | armBody {scrutinee : Expr} {arms : List MatchArm} {arm : MatchArm} {pos : Pos}
      (mem : arm ∈ arms) : Nested (.matchStmt scrutinee arms pos) arm.body

inductive Within : List Stmt → Stmt → Prop
  | here {statements : List Stmt} {statement : Stmt} (mem : statement ∈ statements) :
    Within statements statement
  | deeper {statements inner : List Stmt} {outer statement : Stmt} (mem : outer ∈ statements)
      (nested : Nested outer inner) (within : Within inner statement) : Within statements statement

def Matches (body : List Stmt) (subject : Bytes) (pattern : Pattern) : Prop :=
  ∃ scrutinee arms pos arm, Within body (.matchStmt scrutinee arms pos) ∧
    scrutinee.identNameOf = subject ∧ arm ∈ arms ∧ arm.pattern = pattern

/-- The names that may stand for the subject's whole value. -/
inductive Whole (body : List Stmt) (subject : Bytes) : Bytes → Prop
  | subject : Whole body subject subject
  | binder {outer name : Bytes} {pattern : Pattern} (whole : Whole body subject outer)
      (matched : Matches body outer pattern) (binder : Binder pattern false name) :
    Whole body subject name

/-- The names for parts of it. -/
inductive Inner (body : List Stmt) (subject : Bytes) : Bytes → Prop
  | payload {outer name : Bytes} {pattern : Pattern} (whole : Whole body subject outer)
      (matched : Matches body outer pattern) (binder : Binder pattern true name) :
    Inner body subject name
  | deeper {outer name : Bytes} {pattern : Pattern} {inside : Bool}
      (inner : Inner body subject outer) (matched : Matches body outer pattern)
      (binder : Binder pattern inside name) : Inner body subject name

def Known (body : List Stmt) (subject name : Bytes) : Prop :=
  Whole body subject name ∨ Inner body subject name

variable {outer : Bytes}

theorem Known.binder {body : List Stmt} {subject : Bytes} {inside : Bool}
    (known : Known body subject outer) (matched : Matches body outer pattern)
    (binder : Binder pattern inside name) : Known body subject name := by
  rcases known with whole | inner
  · cases inside with
    | false => exact .inl (.binder whole matched binder)
    | true => exact .inr (.payload whole matched binder)
  · exact .inr (.deeper inner matched binder)

variable {statement : Stmt}

theorem Within.nested {body inner : List Stmt} {outer : Stmt} (within : Within body outer)
    (nested : Nested outer inner) (mem : statement ∈ inner) : Within body statement := by
  induction within with
  | here isOuter => exact .deeper isOuter nested (.here mem)
  | deeper isOuter here _ ih => exact .deeper isOuter here (ih nested)

section Collecting

variable {body : List Stmt} {subject : Bytes}

def AllKnown (body : List Stmt) (subject : Bytes) (known : Collected) : Prop :=
  (∀ name ∈ known.destructurable, Known body subject name) ∧
    ∀ name ∈ known.smaller, Known body subject name

theorem AllKnown.bind {known : Collected} (all : AllKnown body subject known)
    (isKnown : Known body subject outer) (matched : Matches body outer pattern) :
    AllKnown body subject (known.bind (decreasesPatternBindings pattern)) := by
  have new {name : Bytes} (mem : name ∈ decreasesPatternBindings pattern) :
      Known body subject name := by
    obtain ⟨inside, binder⟩ := binder_of_mem pattern mem
    exact isKnown.binder matched binder
  exact ⟨fun name mem => (mem_append.mp mem).elim (all.1 name) new,
    fun name mem => (mem_append.mp mem).elim (all.2 name) new⟩

mutual

/-- Nothing is collected but names that have to do with the subject. -/
theorem allKnown_collect : ∀ (statements : List Stmt) {known : Collected},
    (∀ statement ∈ statements, Within body statement) → AllKnown body subject known →
    AllKnown body subject (decreasesCollectSmaller statements known)
  | [], known, _, all => by
    rw [decreasesCollectSmaller]
    exact all
  | statement :: rest, known, within, all => by
    rw [decreasesCollectSmaller]
    exact allKnown_collect rest (fun other mem => within other (mem_cons_of_mem _ mem))
      (allKnown_statement statement (within statement mem_cons_self) all)

theorem allKnown_statement : ∀ (statement : Stmt) {known : Collected}, Within body statement →
    AllKnown body subject known → AllKnown body subject (collectStatement statement known)
  | .matchStmt scrutinee arms pos, known, within, all => by
    rw [collectStatement]
    refine allKnown_arms arms (fun arm mem other inBody => within.nested (.armBody mem) inBody)
      (fun destructures arm mem => ?_) all
    rw [Bool.and_eq_true, contains_iff_mem] at destructures
    exact ⟨_, all.1 _ destructures.2, scrutinee, arms, pos, arm, within, rfl, mem, rfl⟩
  | .ifStmt condition thenBody elseBody pos, known, within, all => by
    rw [collectStatement]
    exact allKnown_collect elseBody (fun other => within.nested .elseBody)
      (allKnown_collect thenBody (fun other => within.nested .thenBody) all)
  | .whileStmt condition inner pos, known, within, all => by
    rw [collectStatement]
    exact allKnown_collect inner (fun other => within.nested .whileBody) all
  | .block kind clause binding inner pos, known, within, all => by
    rw [collectStatement]
    exact allKnown_collect inner (fun other => within.nested .blockBody) all
  | .invalid, known, _, all | .expr _ _, known, _, all | .varDecl _ _ _ _, known, _, all
  | .assign _ _ _ _, known, _, all | .forStmt _ _ _ _ _, known, _, all
  | .returnStmt _ _, known, _, all | .breakStmt _ _, known, _, all
  | .continueStmt _ _, known, _, all | .contract _ _ _, known, _, all => by
    rw [collectStatement]
    · exact all
    all_goals nofun

theorem allKnown_arms : ∀ (arms : List MatchArm) {known : Collected} {destructures : Bool},
    (∀ arm ∈ arms, ∀ statement ∈ arm.body, Within body statement) →
    (destructures = true → ∀ arm ∈ arms, ∃ outer, Known body subject outer ∧
      Matches body outer arm.pattern) → AllKnown body subject known →
    AllKnown body subject (collectArms destructures arms known)
  | [], known, _, _, _, all => by
    rw [collectArms]
    exact all
  | .mk pattern inner guard pos :: rest, known, destructures, within, matched, all => by
    rw [collectArms]
    refine allKnown_arms rest (fun arm mem => within arm (mem_cons_of_mem _ mem))
      (fun does arm mem => matched does arm (mem_cons_of_mem _ mem))
      (allKnown_collect inner (within _ mem_cons_self) ?_)
    split
    next does =>
      obtain ⟨outer, isKnown, matches_⟩ := matched does _ mem_cons_self
      exact all.bind isKnown matches_
    next => exact all

end

theorem known_of_smaller (mem : name ∈ smallerNames subject body) : Known body subject name := by
  have start : AllKnown body subject { destructurable := [subject], smaller := [] } :=
    ⟨fun name mem => by rw [mem_singleton.mp mem]; exact .inl .subject, nofun⟩
  exact (allKnown_collect body (fun statement mem => .here mem) start).2 name mem

end Collecting

/-! ## Runs -/

/-- A recursive call: the argument that the check looks at, the value that is passed for the
subject, whether these belong together, and whether the check goes into the expression. -/
structure Call where
  argument : Option Expr
  passed : Value
  aligned : Bool
  looked : Bool

def Call.hide (call : Call) : Call := { call with looked := false }

/-- What is left open: other names and expressions, the results of calls and operators, and the
kinds of blocks whose variables stay in scope. -/
structure Machine where
  inline : Bytes → Bool
  global : Bytes → Value → Prop
  result : Expr → List Value → Env → Value → Env → Prop
  other : Expr → Env → List Call → Value → Env → Prop
  /-- An assignment to anything else than a variable. -/
  stores : Expr → Env → List Call → Env → Prop
  /-- The guards of a match up to the arm that is taken. -/
  guards : List MatchArm → Env → List Call → Env → Prop

def argumentIndex (position : Nat) (subject : Bytes) (names : List Bytes) (count : Nat) :
    Option Nat :=
  (List.range count).find? fun i =>
    if names.getD i [] = [] then i = position else names.getD i [] = subject

/-- A recursive function with its subject. -/
structure Recursion where
  own : Bytes
  position : Nat
  subject : Bytes

/-- The expressions that the check goes into, and names. -/
def isWalked : Expr → Bool
  | .ident _ | .paren _ | .unary _ _ | .binary _ _ _ | .call _ _ _ => true
  | _ => false

/-- An expression, or the arguments of a call. -/
inductive Work where
  | one (expression : Expr)
  | all (expressions : List Expr)

inductive Eval (M : Machine) (f : Recursion) : Work → Env → List Call → List Value → Env → Prop
  | nil {env : Env} : Eval M f (.all []) env [] [] env
  | cons {expression : Expr} {rest : List Expr} {env env₁ env₂ : Env} {first second : List Call}
      {value : Value} {values : List Value}
      (head : Eval M f (.one expression) env first [value] env₁)
      (tail : Eval M f (.all rest) env₁ second values env₂) :
    Eval M f (.all (expression :: rest)) env (first ++ second) (value :: values) env₂
  | own {name : Bytes} {env : Env} {value : Value} (here : lookup env name = some value) :
    Eval M f (.one (.ident name)) env [] [value] env
  | outer {name : Bytes} {env : Env} {value : Value} (away : lookup env name = none)
      (is : M.global name value) : Eval M f (.one (.ident name)) env [] [value] env
  | paren {inner : Expr} {env env₁ : Env} {calls : List Call} {values : List Value}
      (run : Eval M f (.one inner) env calls values env₁) :
    Eval M f (.one (.paren inner)) env calls values env₁
  | unary {operator : TokenKind} {operand : Expr} {env env₁ env₂ : Env} {calls : List Call}
      {values : List Value} {value : Value} (run : Eval M f (.one operand) env calls values env₁)
      (result : M.result (.unary operator operand) values env₁ value env₂) :
    Eval M f (.one (.unary operator operand)) env calls [value] env₂
  | binary {left right : Expr} {operator : TokenKind} {env env₁ env₂ env₃ : Env}
      {first second : List Call} {xs ys : List Value} {value : Value}
      (run : Eval M f (.one left) env first xs env₁)
      (more : Eval M f (.one right) env₁ second ys env₂)
      (result : M.result (.binary left operator right) (xs ++ ys) env₂ value env₃) :
    Eval M f (.one (.binary left operator right)) env (first ++ second) [value] env₃
  -- The right side of `and` and `or` may be left out.
  | shortcut {left right : Expr} {operator : TokenKind} {env env₁ env₂ : Env} {calls : List Call}
      {xs : List Value} {value : Value} (run : Eval M f (.one left) env calls xs env₁)
      (result : M.result (.binary left operator right) xs env₁ value env₂) :
    Eval M f (.one (.binary left operator right)) env calls [value] env₂
  | recurse {callee : Expr} {arguments : List Expr} {names : List Bytes} {env env₁ env₂ : Env}
      {calls : List Call} {values : List Value} {passed value : Value}
      (is : callee.identNameOf = f.own) (run : Eval M f (.all arguments) env calls values env₁)
      -- A default is passed where there is no argument.
      (passes : ∀ i, argumentIndex f.position f.subject names arguments.length = some i →
        values[i]? = some passed)
      (result : M.result (.call callee arguments names) values env₁ value env₂) :
    Eval M f (.one (.call callee arguments names)) env
      (calls ++ [⟨arguments[f.position]?, passed,
        argumentIndex f.position f.subject names arguments.length = some f.position, true⟩])
      [value] env₂
  | call {callee : Expr} {arguments : List Expr} {names : List Bytes} {env env₁ env₂ env₃ : Env}
      {first second : List Call} {values : List Value} {target value : Value}
      (other : callee.identNameOf ≠ f.own) (reach : M.other callee env first target env₁)
      (run : Eval M f (.all arguments) env₁ second values env₂)
      (result : M.result (.call callee arguments names) values env₂ value env₃) :
    Eval M f (.one (.call callee arguments names)) env (first.map Call.hide ++ second) [value] env₃
  | other {expression : Expr} {env env₁ : Env} {calls : List Call} {value : Value}
      (outside : isWalked expression = false) (run : M.other expression env calls value env₁) :
    Eval M f (.one expression) env (calls.map Call.hide) [value] env₁

/-- The code that a run is about. -/
inductive Fragment where
  | one (statement : Stmt)
  | all (statements : List Stmt)
  | nested (bound : Env) (statements : List Stmt)
  | deferred (statements : List Stmt)
  | loop (label : Bytes) (condition : Expr) (body : List Stmt)
  | rounds (label : Bytes) (loopVars : List Bytes) (body : List Stmt)

/-- The runs of code, with the calls that they make.  Every branch may be taken. -/
inductive Runs (M : Machine) (f : Recursion) :
    Fragment → Env → List Call → Outcome → Env → Prop
  | nil {env : Env} : Runs M f (.all []) env [] .normal env
  | cons {statement : Stmt} {rest : List Stmt} {env env₁ env₂ : Env} {first second : List Call}
      {outcome : Outcome} (head : Runs M f (.one statement) env first .normal env₁)
      (tail : Runs M f (.all rest) env₁ second outcome env₂) :
    Runs M f (.all (statement :: rest)) env (first ++ second) outcome env₂
  | leave {statement : Stmt} {rest : List Stmt} {env env₁ : Env} {calls : List Call}
      {outcome : Outcome} (head : Runs M f (.one statement) env calls outcome env₁)
      (left : outcome ≠ .normal) : Runs M f (.all (statement :: rest)) env calls outcome env₁
  | nested {bound : Env} {body : List Stmt} {env env₁ env₂ : Env} {first second : List Call}
      {outcome : Outcome} (run : Runs M f (.all body) (bound ++ env) first outcome env₁)
      (later : Runs M f (.deferred body) env₁ second .normal env₂) :
    Runs M f (.nested bound body) env (first ++ second) outcome
      (env₂.drop (env₂.length - env.length))
  | deferNone {body : List Stmt} {env : Env} : Runs M f (.deferred body) env [] .normal env
  | deferSome {body late : List Stmt} {clause : List Bytes} {binding : Bytes} {pos : Pos}
      {env env₁ env₂ : Env} {first second : List Call}
      (mem : .block (ascii "defer") clause binding late pos ∈ body)
      (run : Runs M f (.nested [] late) env first .normal env₁)
      (later : Runs M f (.deferred body) env₁ second .normal env₂) :
    Runs M f (.deferred body) env (first ++ second) .normal env₂
  | expr {expression : Expr} {pos : Pos} {env env₁ : Env} {calls : List Call} {values : List Value}
      (run : Eval M f (.one expression) env calls values env₁) :
    Runs M f (.one (.expr expression pos)) env calls .normal env₁
  | varDecl {name : Bytes} {typeExpression expression : Expr} {pos : Pos} {env env₁ : Env}
      {calls : List Call} {value : Value}
      (run : Eval M f (.one expression) env calls [value] env₁) :
    Runs M f (.one (.varDecl name typeExpression expression pos)) env calls .normal
      ((name, value) :: env₁)
  | assign {target expression : Expr} {operator : TokenKind} {pos : Pos} {env env₁ : Env}
      {calls : List Call} {values : List Value} {stored : Value}
      (run : Eval M f (.one expression) env calls values env₁) :
    Runs M f (.one (.assign target operator expression pos)) env calls .normal
      (update target.identNameOf stored env₁)
  | assignOther {target expression : Expr} {operator : TokenKind} {pos : Pos}
      {env env₁ env₂ : Env} {first second : List Call} {values : List Value}
      (run : Eval M f (.one expression) env first values env₁)
      (store : M.stores target env₁ second env₂) :
    Runs M f (.one (.assign target operator expression pos)) env (first ++ second.map Call.hide)
      .normal env₂
  | ifStmt {condition : Expr} {thenBody elseBody chosen : List Stmt} {pos : Pos}
      {env env₁ env₂ : Env} {first second : List Call} {values : List Value} {outcome : Outcome}
      (decided : Eval M f (.one condition) env first values env₁)
      (branch : chosen = thenBody ∨ chosen = elseBody)
      (run : Runs M f (.nested [] chosen) env₁ second outcome env₂) :
    Runs M f (.one (.ifStmt condition thenBody elseBody pos)) env (first.map Call.hide ++ second)
      outcome env₂
  | whileStmt {condition : Expr} {body : List Stmt} {pos : Pos} {env env₁ : Env}
      {calls : List Call} {outcome : Outcome}
      (run : Runs M f (.loop [] condition body) env calls outcome env₁) :
    Runs M f (.one (.whileStmt condition body pos)) env calls outcome env₁
  | loopDone {label : Bytes} {condition : Expr} {body : List Stmt} {env env₁ : Env}
      {calls : List Call} {values : List Value}
      (decided : Eval M f (.one condition) env calls values env₁) :
    Runs M f (.loop label condition body) env (calls.map Call.hide) .normal env₁
  | loopNext {label : Bytes} {condition : Expr} {body : List Stmt} {env env₁ env₂ env₃ : Env}
      {first second third : List Call} {values : List Value} {round outcome : Outcome}
      (decided : Eval M f (.one condition) env first values env₁)
      (run : Runs M f (.nested [] body) env₁ second round env₂) (on_ : round.GoesOn label)
      (more : Runs M f (.loop label condition body) env₂ third outcome env₃) :
    Runs M f (.loop label condition body) env (first.map Call.hide ++ second ++ third) outcome env₃
  | loopLeft {label : Bytes} {condition : Expr} {body : List Stmt} {env env₁ env₂ : Env}
      {first second : List Call} {values : List Value} {round outcome : Outcome}
      (decided : Eval M f (.one condition) env first values env₁)
      (run : Runs M f (.nested [] body) env₁ second round env₂)
      (leaves : round.leaving label = some outcome) :
    Runs M f (.loop label condition body) env (first.map Call.hide ++ second) outcome env₂
  | forStmt {bind : Bytes} {loopVars : List Bytes} {iterable : Expr} {body : List Stmt} {pos : Pos}
      {env env₁ env₂ : Env} {first second : List Call} {values : List Value} {outcome : Outcome}
      (evaluated : Eval M f (.one iterable) env first values env₁)
      (run : Runs M f (.rounds [] loopVars body) env₁ second outcome env₂) :
    Runs M f (.one (.forStmt bind loopVars iterable body pos)) env
      ((first ++ second).map Call.hide) outcome env₂
  | roundsDone {label : Bytes} {loopVars : List Bytes} {body : List Stmt} {env : Env} :
    Runs M f (.rounds label loopVars body) env [] .normal env
  | roundsNext {label : Bytes} {loopVars : List Bytes} {body : List Stmt}
      {bound env env₁ env₂ : Env} {first second : List Call} {round outcome : Outcome}
      (names : ∀ entry ∈ bound, entry.1 ∈ loopVars)
      (run : Runs M f (.nested bound body) env first round env₁) (on_ : round.GoesOn label)
      (more : Runs M f (.rounds label loopVars body) env₁ second outcome env₂) :
    Runs M f (.rounds label loopVars body) env (first ++ second) outcome env₂
  | roundsLeft {label : Bytes} {loopVars : List Bytes} {body : List Stmt} {bound env env₁ : Env}
      {calls : List Call} {round outcome : Outcome} (names : ∀ entry ∈ bound, entry.1 ∈ loopVars)
      (run : Runs M f (.nested bound body) env calls round env₁)
      (leaves : round.leaving label = some outcome) :
    Runs M f (.rounds label loopVars body) env calls outcome env₁
  | labelledWhile {label binding : Bytes} {condition : Expr} {body : List Stmt} {inner pos : Pos}
      {env env₁ : Env} {calls : List Call} {outcome : Outcome}
      (run : Runs M f (.loop label condition body) env calls outcome env₁) :
    Runs M f (.one (.block (ascii "label") [label] binding [.whileStmt condition body inner] pos))
      env calls outcome env₁
  | labelledFor {label binding bind : Bytes} {loopVars : List Bytes} {iterable : Expr}
      {body : List Stmt} {inner pos : Pos} {env env₁ env₂ : Env} {first second : List Call}
      {values : List Value} {outcome : Outcome}
      (evaluated : Eval M f (.one iterable) env first values env₁)
      (run : Runs M f (.rounds label loopVars body) env₁ second outcome env₂) :
    Runs M f (.one (.block (ascii "label") [label] binding
      [.forStmt bind loopVars iterable body inner] pos)) env ((first ++ second).map Call.hide)
      outcome env₂
  | block {kind binding : Bytes} {clause : List Bytes} {body : List Stmt} {pos : Pos}
      {bound env env₁ : Env} {calls : List Call} {outcome : Outcome}
      (own : M.inline kind = false) (names : ∀ entry ∈ bound, entry.1 = binding)
      (run : Runs M f (.nested bound body) env calls outcome env₁) :
    Runs M f (.one (.block kind clause binding body pos)) env calls outcome env₁
  | inlineBlock {kind binding : Bytes} {clause : List Bytes} {body : List Stmt} {pos : Pos}
      {env env₁ : Env} {calls : List Call} {outcome : Outcome} (shared : M.inline kind = true)
      (run : Runs M f (.all body) env calls outcome env₁) :
    Runs M f (.one (.block kind clause binding body pos)) env calls outcome env₁
  -- A block that is put off, that another one is chosen for, or that only the checks read.
  | skip {kind binding : Bytes} {clause : List Bytes} {body : List Stmt} {pos : Pos} {env : Env} :
    Runs M f (.one (.block kind clause binding body pos)) env [] .normal env
  | matched {scrutinee : Expr} {arms : List MatchArm} {pos : Pos} {arm : MatchArm} {value : Value}
      {bound env env₁ env₂ env₃ : Env} {first second third : List Call} {outcome : Outcome}
      (evaluated : Eval M f (.one scrutinee) env first [value] env₁)
      (guards : M.guards arms env₁ second env₂) (mem : arm ∈ arms)
      (binds : ∀ entry ∈ bound, Binds arm.pattern value entry.1 entry.2)
      (run : Runs M f (.nested bound arm.body) env₂ third outcome env₃) :
    Runs M f (.one (.matchStmt scrutinee arms pos)) env
      ((first ++ second).map Call.hide ++ third) outcome env₃
  | unmatched {scrutinee : Expr} {arms : List MatchArm} {pos : Pos} {env env₁ env₂ : Env}
      {first second : List Call} {values : List Value}
      (evaluated : Eval M f (.one scrutinee) env first values env₁)
      (guards : M.guards arms env₁ second env₂) :
    Runs M f (.one (.matchStmt scrutinee arms pos)) env ((first ++ second).map Call.hide) .normal
      env₂
  | returnNone {pos : Pos} {env : Env} : Runs M f (.one (.returnStmt none pos)) env [] .left env
  | returnSome {expression : Expr} {pos : Pos} {env env₁ : Env} {calls : List Call}
      {values : List Value} (run : Eval M f (.one expression) env calls values env₁) :
    Runs M f (.one (.returnStmt (some expression) pos)) env calls .left env₁
  | breakStmt {label : Bytes} {pos : Pos} {env : Env} :
    Runs M f (.one (.breakStmt label pos)) env [] (.broke label) env
  | continueStmt {label : Bytes} {pos : Pos} {env : Env} :
    Runs M f (.one (.continueStmt label pos)) env [] (.continued label) env
  | contract {kind : Bytes} {expression : Expr} {pos : Pos} {env : Env} :
    Runs M f (.one (.contract kind expression pos)) env [] .normal env

/-! ## What holds on runs -/

/-- Nothing gives a value to a name that has to do with the subject but the matches that the
division is about, and none of these names stands for both. -/
structure Clean (body : List Stmt) (subject : Bytes) : Prop where
  disjoint : ∀ name, Whole body subject name → ¬ Inner body subject name
  declared : ∀ {name typeExpression expression pos},
    Within body (.varDecl name typeExpression expression pos) → ¬ Known body subject name
  assigned : ∀ {target operator expression pos},
    Within body (.assign target operator expression pos) → ¬ Known body subject target.identNameOf
  loopVars : ∀ {bind loopVars iterable inner pos},
    Within body (.forStmt bind loopVars iterable inner pos) →
    ∀ name ∈ loopVars, ¬ Known body subject name
  blocks : ∀ {kind clause binding inner pos}, Within body (.block kind clause binding inner pos) →
    ¬ Known body subject binding
  elsewhere : ∀ {scrutinee arms pos arm inside name}, Within body (.matchStmt scrutinee arms pos) →
    ¬ Known body subject scrutinee.identNameOf → arm ∈ arms → Binder arm.pattern inside name →
    ¬ Known body subject name
  rests : ∀ {scrutinee arms pos arm name}, Within body (.matchStmt scrutinee arms pos) →
    arm ∈ arms → RestName arm.pattern name → ¬ Known body subject name

/-- The names that have to do with the subject are variables of the function, and evaluating
expressions gives them no new values. -/
structure Quiet (M : Machine) (known : Bytes → Prop) : Prop where
  global : ∀ {name value}, M.global name value → ¬ known name
  result : ∀ {expression values env value env'}, M.result expression values env value env' →
    ∀ entry ∈ env', known entry.1 → entry ∈ env
  other : ∀ {expression env calls value env'}, M.other expression env calls value env' →
    ∀ entry ∈ env', known entry.1 → entry ∈ env
  stores : ∀ {target env calls env'}, M.stores target env calls env' →
    ∀ entry ∈ env', known entry.1 → entry ∈ env
  guards : ∀ {arms env calls env'}, M.guards arms env calls env' →
    ∀ entry ∈ env', known entry.1 → entry ∈ env

section Runs

variable {M : Machine} {f : Recursion} {body : List Stmt} {start : Value}

structure Fitting (body : List Stmt) (subject : Bytes) (start : Value) (name : Bytes)
    (value : Value) : Prop where
  whole : Whole body subject name → value = start ∨ Term.Part value start
  inner : Inner body subject name → Term.Part value start

def AllFit (body : List Stmt) (subject : Bytes) (start : Value) (env : Env) : Prop :=
  ∀ entry ∈ env, Fitting body subject start entry.1 entry.2

theorem fitting_of_unknown {subject : Bytes} (unknown : ¬ Known body subject name) :
    Fitting body subject start name value :=
  ⟨fun whole => (unknown (.inl whole)).elim, fun inner => (unknown (.inr inner)).elim⟩

variable {env' : Env} {env : Env}

theorem AllFit.kept {subject : Bytes} (fits : AllFit body subject start env)
    (kept : ∀ entry ∈ env', Known body subject entry.1 → entry ∈ env) :
    AllFit body subject start env' := by
  intro entry mem
  cases Classical.em (Known body subject entry.1) with
  | inl known => exact fits entry (kept entry mem known)
  | inr unknown => exact fitting_of_unknown unknown

theorem AllFit.update {subject : Bytes} (fits : AllFit body subject start env)
    (unknown : ¬ Known body subject name) : AllFit body subject start (update name value env) := by
  induction env with
  | nil => exact fits
  | cons entry rest ih =>
    have later := fun other mem => fits other (mem_cons_of_mem _ mem)
    rw [Decreases.update]
    split
    · intro other mem
      rcases mem_cons.mp mem with rfl | there
      · exact fitting_of_unknown unknown
      · exact later other there
    · intro other mem
      rcases mem_cons.mp mem with rfl | there
      · exact fits _ mem_cons_self
      · exact ih later other there

theorem AllFit.append {subject : Bytes} {bound : Env} (fits : AllFit body subject start env)
    (new : ∀ entry ∈ bound, Fitting body subject start entry.1 entry.2) :
    AllFit body subject start (bound ++ env) :=
  fun entry mem => (mem_append.mp mem).elim (new entry) (fits entry)

theorem AllFit.drop {subject : Bytes} {n : Nat} (fits : AllFit body subject start env) :
    AllFit body subject start (env.drop n) :=
  fun entry mem => fits entry (mem_of_mem_drop mem)

theorem mem_of_lookup (here : lookup env name = some value) : (name, value) ∈ env := by
  obtain ⟨entry, found, rfl⟩ := Option.map_eq_some_iff.mp here
  have same : entry.1 = name := of_decide_eq_true
    (find?_some (p := fun entry : Bytes × Value => decide (entry.1 = name)) found)
  rw [← same]
  exact mem_of_find?_eq_some found

/-- A name that is evaluated has a value that fits. -/
def Agrees (body : List Stmt) (subject : Bytes) (start : Value) (expression : Expr)
    (value : Value) : Prop :=
  expression.identNameOf ≠ [] → Fitting body subject start expression.identNameOf value

def WorkAgrees (body : List Stmt) (subject : Bytes) (start : Value) : Work → List Value → Prop
  | .one expression, values =>
    ∃ value, values = [value] ∧ Agrees body subject start expression value
  | .all expressions, values => List.Forall₂ (Agrees body subject start) expressions values

def workIsUnproven (f : Recursion) (smaller : List Bytes) : Work → Bool
  | .one expression => decreasesCallIsUnproven f.own f.position smaller expression
  | .all expressions => anyIsUnproven f.own f.position smaller expressions

/-- A call that the check has looked at and accepted. -/
def Accepted (body : List Stmt) (subject : Bytes) (start : Value) (smaller : List Bytes)
    (call : Call) : Prop :=
  ∀ argument, call.argument = some argument → argument.identNameOf ∈ smaller ∧
    (call.aligned = true → Agrees body subject start argument call.passed)

variable {calls : List Call} {smaller : List Bytes}

theorem accepted_append {first second : List Call}
    (left : ∀ call ∈ first, call.looked = true → Accepted body f.subject start smaller call)
    (right : ∀ call ∈ second, call.looked = true → Accepted body f.subject start smaller call) :
    ∀ call ∈ first ++ second, call.looked = true → Accepted body f.subject start smaller call :=
  fun call mem => (mem_append.mp mem).elim (left call) (right call)

theorem accepted_hide :
    ∀ call ∈ calls.map Call.hide, call.looked = true →
      Accepted body f.subject start smaller call := by
  intro call mem looked
  obtain ⟨other, -, rfl⟩ := mem_map.mp mem
  cases looked

theorem agrees_of_unnamed {subject : Bytes} {expression : Expr}
    (unnamed : expression.identNameOf = []) : Agrees body subject start expression value :=
  fun named => (named unnamed).elim

theorem eval_agrees (smaller : List Bytes) {work : Work} {values : List Value}
    (quiet : Quiet M (Known body f.subject)) (run : Eval M f work env calls values env')
    (fits : AllFit body f.subject start env) :
    AllFit body f.subject start env' ∧ WorkAgrees body f.subject start work values ∧
      (workIsUnproven f smaller work = false → ∀ call ∈ calls, call.looked = true →
        Accepted body f.subject start smaller call) := by
  induction run with
  | nil => exact ⟨fits, .nil, nofun⟩
  | cons _ _ ihHead ihTail =>
    obtain ⟨fits₁, ⟨value, same, agrees⟩, head⟩ := ihHead fits
    obtain ⟨fits₂, rest, tail⟩ := ihTail fits₁
    obtain rfl := head_eq_of_cons_eq same
    refine ⟨fits₂, .cons agrees rest, fun proven => ?_⟩
    have both := Bool.or_eq_false_iff.mp proven
    exact accepted_append (head both.1) (tail both.2)
  | own here => exact ⟨fits, ⟨_, rfl, fun _ => fits _ (mem_of_lookup here)⟩, nofun⟩
  | outer _ is => exact ⟨fits, ⟨_, rfl, fun _ => fitting_of_unknown (quiet.global is)⟩, nofun⟩
  | paren _ ih => exact ih fits
  | unary _ result ih =>
    obtain ⟨fits₁, -, accepted⟩ := ih fits
    exact ⟨fits₁.kept (quiet.result result), ⟨_, rfl, agrees_of_unnamed rfl⟩, accepted⟩
  | binary _ _ result ihLeft ihRight =>
    obtain ⟨fits₁, -, left⟩ := ihLeft fits
    obtain ⟨fits₂, -, right⟩ := ihRight fits₁
    refine ⟨fits₂.kept (quiet.result result), ⟨_, rfl, agrees_of_unnamed rfl⟩, fun proven => ?_⟩
    have both := Bool.or_eq_false_iff.mp proven
    exact accepted_append (left both.1) (right both.2)
  | shortcut _ result ih =>
    obtain ⟨fits₁, -, left⟩ := ih fits
    exact ⟨fits₁.kept (quiet.result result), ⟨_, rfl, agrees_of_unnamed rfl⟩,
      fun proven => left (Bool.or_eq_false_iff.mp proven).1⟩
  | @recurse callee arguments names env env₁ env₂ calls values passed value is _ passes result ih =>
    obtain ⟨fits₁, agree, accepted⟩ := ih fits
    refine ⟨fits₁.kept (quiet.result result), ⟨_, rfl, agrees_of_unnamed rfl⟩,
      fun proven => ?_⟩
    have both := Bool.or_eq_false_iff.mp proven
    refine accepted_append (accepted both.2) fun call own _ argument isArgument => ?_
    obtain rfl := mem_singleton.mp own
    change arguments[f.position]? = some argument at isArgument
    have first := both.1
    rw [decide_eq_true is, Bool.true_and, isArgument, Option.any_some, Bool.not_eq_false',
      contains_iff_mem] at first
    refine ⟨first, fun aligned => ?_⟩
    obtain ⟨small, getArgument⟩ := List.getElem?_eq_some_iff.mp isArgument
    obtain ⟨small', getValue⟩ :=
      List.getElem?_eq_some_iff.mp (passes f.position (of_decide_eq_true aligned))
    have at_ := (forall₂_iff_get.mp agree).2 f.position small small'
    rw [get_eq_getElem, get_eq_getElem, getArgument, getValue] at at_
    exact at_
  | call other reach _ result ih =>
    obtain ⟨fits₁, -, accepted⟩ := ih (fits.kept (quiet.other reach))
    exact ⟨fits₁.kept (quiet.result result), ⟨_, rfl, agrees_of_unnamed rfl⟩, fun proven =>
      accepted_append accepted_hide (accepted (Bool.or_eq_false_iff.mp proven).2)⟩
  | @other expression _ _ _ _ outside run =>
    refine ⟨fits.kept (quiet.other run), ⟨_, rfl, agrees_of_unnamed ?_⟩, fun _ => accepted_hide⟩
    cases expression with
    | ident | paren => cases outside
    | _ => rfl

/-- Where the code of a run is, and what is bound in it. -/
def Sits (body : List Stmt) (subject : Bytes) (start : Value) : Fragment → Prop
  | .one statement => Within body statement
  | .all inner | .deferred inner | .loop _ _ inner => ∀ statement ∈ inner, Within body statement
  | .nested bound inner => (∀ entry ∈ bound, Fitting body subject start entry.1 entry.2) ∧
      ∀ statement ∈ inner, Within body statement
  | .rounds _ loopVars inner => (∀ name ∈ loopVars, ¬ Known body subject name) ∧
      ∀ statement ∈ inner, Within body statement

def fragmentIsUnproven (f : Recursion) (smaller : List Bytes) : Fragment → Bool
  | .one statement => statementIsUnproven f.own f.position smaller statement
  | .all inner | .nested _ inner | .deferred inner | .loop _ _ inner | .rounds _ _ inner =>
    decreasesBodyIsUnproven f.own f.position smaller inner

theorem statementIsUnproven_of_mem {inner : List Stmt}
    (proven : decreasesBodyIsUnproven f.own f.position smaller inner = false)
    (mem : statement ∈ inner) : statementIsUnproven f.own f.position smaller statement = false := by
  induction inner with
  | nil => cases mem
  | cons head rest ih =>
    rw [decreasesBodyIsUnproven, Bool.or_eq_false_iff] at proven
    rcases mem_cons.mp mem with rfl | there
    · exact proven.1
    · exact ih proven.2 there

theorem armIsUnproven_of_mem {arms : List MatchArm} {arm : MatchArm}
    (proven : armsAreUnproven f.own f.position smaller arms = false) (mem : arm ∈ arms) :
    decreasesBodyIsUnproven f.own f.position smaller arm.body = false := by
  induction arms with
  | nil => cases mem
  | cons head rest ih =>
    cases head with
    | mk pattern inner guard pos =>
      rw [armsAreUnproven, Bool.or_eq_false_iff] at proven
      rcases mem_cons.mp mem with rfl | there
      · exact proven.1
      · exact ih proven.2 there

theorem fitting_of_binds {scrutinee : Expr} {arms : List MatchArm} {arm : MatchArm} {pos : Pos}
    (clean : Clean body f.subject) (within : Within body (.matchStmt scrutinee arms pos))
    (mem : arm ∈ arms) (agrees : Agrees body f.subject start scrutinee value)
    (nameless : ∀ name, Known body f.subject name → name ≠ [])
    (binds : Binds arm.pattern value name bound) : Fitting body f.subject start name bound := by
  have matched : Matches body scrutinee.identNameOf arm.pattern :=
    ⟨scrutinee, arms, pos, arm, within, rfl, mem, rfl⟩
  rcases standsFor_of_binds binds with isRest | ⟨binder, rfl⟩ | ⟨binder, part⟩
  · exact fitting_of_unknown (clean.rests within mem isRest)
  · cases Classical.em (Known body f.subject scrutinee.identNameOf) with
    | inr unknown => exact fitting_of_unknown (clean.elsewhere within unknown mem binder)
    | inl known =>
      have fits := agrees (nameless _ known)
      rcases known with whole | inner
      · exact ⟨fun _ => fits.whole whole,
          fun inner => (clean.disjoint name (.binder whole matched binder) inner).elim⟩
      · exact ⟨fun _ => .inr (fits.inner inner), fun _ => fits.inner inner⟩
  · cases Classical.em (Known body f.subject scrutinee.identNameOf) with
    | inr unknown => exact fitting_of_unknown (clean.elsewhere within unknown mem binder)
    | inl known =>
      have fits := agrees (nameless _ known)
      have deeper : Term.Part bound start := by
        rcases known with whole | inner
        · rcases fits.whole whole with rfl | below
          · exact part
          · exact part.trans below
        · exact part.trans (fits.inner inner)
      exact ⟨fun _ => .inr deeper, fun _ => deeper⟩

theorem run_keeps (smaller : List Bytes) {fragment : Fragment} {outcome : Outcome}
    (quiet : Quiet M (Known body f.subject)) (clean : Clean body f.subject)
    (nameless : ∀ name, Known body f.subject name → name ≠ [])
    (run : Runs M f fragment env calls outcome env') (sits : Sits body f.subject start fragment)
    (fits : AllFit body f.subject start env) :
    AllFit body f.subject start env' ∧
      (fragmentIsUnproven f smaller fragment = false → ∀ call ∈ calls, call.looked = true →
        Accepted body f.subject start smaller call) := by
  have evaluates {expression : Expr} {env env' : Env} {calls : List Call} {values : List Value}
      (run : Eval M f (.one expression) env calls values env')
      (fits : AllFit body f.subject start env) := eval_agrees smaller quiet run fits
  induction run with
  | nil | deferNone | roundsDone => exact ⟨fits, nofun⟩
  | skip | returnNone | breakStmt | continueStmt | contract => exact ⟨fits, nofun⟩
  | cons _ _ ihHead ihTail =>
    obtain ⟨fits₁, head⟩ := ihHead (sits _ mem_cons_self) fits
    obtain ⟨fits₂, tail⟩ := ihTail (fun other mem => sits other (mem_cons_of_mem _ mem)) fits₁
    refine ⟨fits₂, fun proven => ?_⟩
    have both := Bool.or_eq_false_iff.mp proven
    exact accepted_append (head both.1) (tail both.2)
  | leave _ _ ih =>
    obtain ⟨fits₁, head⟩ := ih (sits _ mem_cons_self) fits
    exact ⟨fits₁, fun proven => head (Bool.or_eq_false_iff.mp proven).1⟩
  | nested _ _ ihRun ihLater =>
    obtain ⟨fits₁, here⟩ := ihRun sits.2 (fits.append sits.1)
    obtain ⟨fits₂, late⟩ := ihLater sits.2 fits₁
    exact ⟨fits₂.drop, fun proven => accepted_append (here proven) (late proven)⟩
  | deferSome mem _ _ ihRun ihLater =>
    obtain ⟨fits₁, here⟩ := ihRun ⟨nofun, fun other => (sits _ mem).nested .blockBody⟩ fits
    obtain ⟨fits₂, late⟩ := ihLater sits fits₁
    exact ⟨fits₂, fun proven =>
      accepted_append (here (statementIsUnproven_of_mem proven mem)) (late proven)⟩
  | expr run | returnSome run =>
    obtain ⟨fits₁, -, accepted⟩ := evaluates run fits
    exact ⟨fits₁, accepted⟩
  | varDecl run =>
    obtain ⟨fits₁, -, accepted⟩ := evaluates run fits
    refine ⟨fun entry mem => ?_, accepted⟩
    rcases mem_cons.mp mem with rfl | there
    · exact fitting_of_unknown (clean.declared sits)
    · exact fits₁ entry there
  | assign run =>
    obtain ⟨fits₁, -, accepted⟩ := evaluates run fits
    exact ⟨fits₁.update (clean.assigned sits), accepted⟩
  | assignOther run store =>
    obtain ⟨fits₁, -, accepted⟩ := evaluates run fits
    exact ⟨fits₁.kept (quiet.stores store),
      fun proven => accepted_append (accepted proven) accepted_hide⟩
  | ifStmt decided branch _ ih =>
    obtain ⟨fits₁, -, -⟩ := evaluates decided fits
    rcases branch with rfl | rfl
    · obtain ⟨fits₂, chosen⟩ := ih ⟨nofun, fun other => sits.nested .thenBody⟩ fits₁
      exact ⟨fits₂, fun proven =>
        accepted_append accepted_hide (chosen (Bool.or_eq_false_iff.mp proven).1)⟩
    · obtain ⟨fits₂, chosen⟩ := ih ⟨nofun, fun other => sits.nested .elseBody⟩ fits₁
      exact ⟨fits₂, fun proven =>
        accepted_append accepted_hide (chosen (Bool.or_eq_false_iff.mp proven).2)⟩
  | whileStmt _ ih => exact ih (fun other => sits.nested .whileBody) fits
  | loopDone decided => exact ⟨(evaluates decided fits).1, fun _ => accepted_hide⟩
  | loopNext decided _ _ _ ihRun ihMore =>
    obtain ⟨fits₁, -, -⟩ := evaluates decided fits
    obtain ⟨fits₂, here⟩ := ihRun ⟨nofun, sits⟩ fits₁
    obtain ⟨fits₃, more⟩ := ihMore sits fits₂
    exact ⟨fits₃, fun proven =>
      accepted_append (accepted_append accepted_hide (here proven)) (more proven)⟩
  | loopLeft decided _ _ ihRun =>
    obtain ⟨fits₁, -, -⟩ := evaluates decided fits
    obtain ⟨fits₂, here⟩ := ihRun ⟨nofun, sits⟩ fits₁
    exact ⟨fits₂, fun proven => accepted_append accepted_hide (here proven)⟩
  | forStmt evaluated _ ih =>
    obtain ⟨fits₁, -, -⟩ := evaluates evaluated fits
    obtain ⟨fits₂, -⟩ := ih ⟨clean.loopVars sits, fun other => sits.nested .forBody⟩ fits₁
    exact ⟨fits₂, fun _ => accepted_hide⟩
  | roundsNext names _ _ _ ihRun ihMore =>
    obtain ⟨fits₁, here⟩ := ihRun
      ⟨fun entry mem => fitting_of_unknown (sits.1 _ (names entry mem)), sits.2⟩ fits
    obtain ⟨fits₂, more⟩ := ihMore sits fits₁
    exact ⟨fits₂, fun proven => accepted_append (here proven) (more proven)⟩
  | roundsLeft names _ _ ihRun =>
    exact ihRun ⟨fun entry mem => fitting_of_unknown (sits.1 _ (names entry mem)), sits.2⟩ fits
  | labelledWhile _ ih =>
    have loop := sits.nested .blockBody mem_cons_self
    obtain ⟨fits₁, accepted⟩ := ih (fun other => loop.nested .whileBody) fits
    exact ⟨fits₁, fun proven => accepted (statementIsUnproven_of_mem proven mem_cons_self)⟩
  | labelledFor evaluated _ ih =>
    have loop := sits.nested .blockBody mem_cons_self
    obtain ⟨fits₁, -, -⟩ := evaluates evaluated fits
    obtain ⟨fits₂, -⟩ := ih ⟨clean.loopVars loop, fun other => loop.nested .forBody⟩ fits₁
    exact ⟨fits₂, fun _ => accepted_hide⟩
  | block _ names _ ih =>
    refine ih ⟨fun entry mem => fitting_of_unknown ?_, fun other => sits.nested .blockBody⟩ fits
    rw [names entry mem]
    exact clean.blocks sits
  | inlineBlock _ _ ih => exact ih (fun other => sits.nested .blockBody) fits
  | matched evaluated guards mem binds _ ih =>
    obtain ⟨fits₁, ⟨value, same, agrees⟩, -⟩ := evaluates evaluated fits
    obtain rfl := head_eq_of_cons_eq same
    obtain ⟨fits₂, here⟩ := ih
      ⟨fun entry inBound => fitting_of_binds clean sits mem agrees nameless (binds entry inBound),
        fun other => sits.nested (.armBody mem)⟩ (fits₁.kept (quiet.guards guards))
    exact ⟨fits₂, fun proven =>
      accepted_append accepted_hide (here (armIsUnproven_of_mem proven mem))⟩
  | unmatched evaluated guards =>
    obtain ⟨fits₁, -, -⟩ := evaluates evaluated fits
    exact ⟨fits₁.kept (quiet.guards guards), fun _ => accepted_hide⟩

end Runs

/-! ## The verdict -/

inductive Declares : List Decl → Decl → Prop
  | here {declarations : List Decl} {declaration : Decl} (mem : declaration ∈ declarations) :
    Declares declarations declaration
  | module {declarations body : List Decl} {name : Bytes} {pos : Pos} {declaration : Decl}
      (mem : .module name body pos ∈ declarations) (inside : Declares body declaration) :
    Declares declarations declaration
  | inScope {declarations body : List Decl} {pos : Pos} {declaration : Decl}
      (mem : .scoped body pos ∈ declarations) (inside : Declares body declaration) :
    Declares declarations declaration

variable {enumNames : List Bytes} {declarations : List Decl}

theorem mem_walk {declaration : Decl} {report : Diagnostic} (mem : declaration ∈ declarations)
    (reported : report ∈ checkDeclaration enumNames declaration) :
    report ∈ checkStructuralDecreasesWalk enumNames declarations := by
  induction declarations with
  | nil => cases mem
  | cons head rest ih =>
    rw [checkStructuralDecreasesWalk]
    rcases mem_cons.mp mem with rfl | there
    · exact mem_append_left _ reported
    · exact mem_append_right _ (ih there)

/-- What is found in a declaration is reported, wherever it stands. -/
theorem Declares.reported {declaration : Decl} {report : Diagnostic}
    (declares : Declares declarations declaration)
    (found : report ∈ checkDeclaration enumNames declaration) :
    report ∈ checkStructuralDecreasesWalk enumNames declarations := by
  induction declares with
  | here mem => exact mem_walk mem found
  | module mem _ ih | inScope mem _ ih =>
    refine mem_walk mem ?_
    rw [checkDeclaration]
    exact ih found

/-- A function with a clause `decreases` for a parameter of enum type. -/
structure Decreasing (enumNames : List Bytes) (declarations : List Decl) (f : Recursion)
    (body : List Stmt) (line : Nat) : Prop where
  declared : ∃ params returnType pos,
    Declares declarations (.func f.own params returnType body pos) ∧ pos.line = line ∧
      subjectPosition enumNames f.subject params = some f.position
  subject : decreasesSubject body = f.subject
  named : f.subject ≠ []

theorem isEmpty_of_subjectPosition {subject : Bytes} {params : List Param} {position : Nat}
    (is : subjectPosition enumNames subject params = some position) :
    enumNames.isEmpty = false := by
  obtain ⟨small, accepted, -⟩ := findIdx?_eq_some_iff_getElem.mp is
  cases enumNames with
  | nil => simp at accepted
  | cons => rfl

/-- Where nothing is reported of a function the check has accepted its body. -/
theorem Decreasing.proven {enumNames : List Bytes} {declarations : List Decl} {f : Recursion}
    {body : List Stmt} {line : Nat} (decreasing : Decreasing enumNames declarations f body line)
    (unreported : { kind := .structuralDecreasesUnproven, name := f.own, line } ∉
      checkStructuralDecreases enumNames declarations) :
    decreasesBodyIsUnproven f.own f.position (smallerNames f.subject body) body = false := by
  obtain ⟨params, returnType, pos, declares, rfl, is⟩ := decreasing.declared
  rw [← Bool.not_eq_true]
  intro unproven
  refine unreported ?_
  rw [checkStructuralDecreases, isEmpty_of_subjectPosition is]
  refine declares.reported ?_
  simp [checkDeclaration, checkFunction, decreasing.subject, decreasing.named, is, unproven]

/-- The check has looked at a call, at the argument that is passed, and its name does not stand for
the subject's whole value. -/
def Call.Seen (body : List Stmt) (subject : Bytes) (call : Call) : Prop :=
  call.looked = true ∧ call.aligned = true ∧
    ∃ argument, call.argument = some argument ∧ ¬ Whole body subject argument.identNameOf

/-- A function that nothing is reported of descends in every run whose calls are seen, when only
matches give values to the names that have to do with its subject. -/
theorem passes_parts {M : Machine} {enumNames : List Bytes} {declarations : List Decl}
    {f : Recursion} {body : List Stmt} {line : Nat} {start : Value} {entry env : Env}
    {calls : List Call} {outcome : Outcome}
    (decreasing : Decreasing enumNames declarations f body line)
    (unreported : { kind := .structuralDecreasesUnproven, name := f.own, line } ∉
      checkStructuralDecreases enumNames declarations)
    (clean : Clean body f.subject) (quiet : Quiet M (Known body f.subject))
    (nameless : ¬ Known body f.subject [])
    (enters : ∀ variable_ ∈ entry, Known body f.subject variable_.1 →
      variable_ = (f.subject, start))
    (run : Runs M f (.nested [] body) entry calls outcome env)
    (seen : ∀ call ∈ calls, call.Seen body f.subject) :
    ∀ call ∈ calls, Term.Part call.passed start := by
  have named : ∀ name, Known body f.subject name → name ≠ [] := by
    rintro name known rfl
    exact nameless known
  have fits : AllFit body f.subject start entry := by
    intro variable_ mem
    cases Classical.em (Known body f.subject variable_.1) with
    | inr unknown => exact fitting_of_unknown unknown
    | inl known =>
      rw [enters variable_ mem known]
      exact ⟨fun _ => .inl rfl, fun inner => (clean.disjoint _ .subject inner).elim⟩
  obtain ⟨-, accepted⟩ := run_keeps (smallerNames f.subject body) quiet clean named run
    ⟨nofun, fun statement mem => .here mem⟩ fits
  intro call mem
  obtain ⟨looked, aligned, argument, isArgument, notWhole⟩ := seen call mem
  obtain ⟨inSmaller, agrees⟩ :=
    accepted (decreasing.proven unreported) call mem looked argument isArgument
  have known := known_of_smaller inSmaller
  exact (agrees aligned (named _ known)).inner (known.resolve_left notWhole)

/-! ## A tree that is taken apart, and one that is not -/

section Examples

/-- Nothing but variables, calls and returns. -/
def plainMachine : Machine where
  inline := fun _ => false
  global := fun _ _ => False
  result := fun _ _ env _ env' => env' = env
  other := fun _ _ _ _ _ => False
  stores := fun _ _ _ _ => False
  guards := fun _ env calls env' => calls = [] ∧ env' = env

def sizeOf_ : Recursion where
  own := ascii "size"
  position := 0
  subject := ascii "t"

/-- `match t:` with one arm that returns `size(argument)`. -/
def sizeBody (pattern : Pattern) (argument : Bytes) : List Stmt :=
  [.contract (ascii "decreases") (.ident (ascii "t")) .none,
    .matchStmt (.ident (ascii "t"))
      [.mk pattern [.returnStmt (some (.call (.ident (ascii "size")) [.ident argument] [])) .none]
        .absent .none] .none]

def sizeDecls (pattern : Pattern) (argument : Bytes) : List Decl :=
  [.func (ascii "size") [{ name := ascii "t", typeExpression := .ident (ascii "Tree") }] none
    (sizeBody pattern argument) .none]

def leaf : Value := .node (ascii "Leaf") []

def tree : Value := .node (ascii "Node") [leaf]

theorem decreasing_size (pattern : Pattern) (argument : Bytes) :
    Decreasing [ascii "Tree"] (sizeDecls pattern argument) sizeOf_ (sizeBody pattern argument)
      Pos.none.line where
  declared := ⟨_, none, .none, .here mem_cons_self, rfl, by decide +kernel⟩
  subject := by
    rw [sizeBody, decreasesSubject, if_pos (by decide)]
    rfl
  named := by decide

theorem within_size {argument : Bytes} (within : Within (sizeBody pattern argument) statement) :
    statement ∈ sizeBody pattern argument ∨
      ∃ returned pos, statement = .returnStmt returned pos := by
  cases within with
  | here mem => exact .inl mem
  | deeper mem nested inner =>
    right
    simp only [sizeBody, mem_cons, not_mem_nil, or_false] at mem
    rcases mem with rfl | rfl
    · cases nested
    cases nested with
    | armBody mem =>
      obtain rfl := mem_singleton.mp mem
      cases inner with
      | here mem =>
        obtain rfl := mem_singleton.mp mem
        exact ⟨_, _, rfl⟩
      | deeper mem nested =>
        obtain rfl := mem_singleton.mp mem
        cases nested

/-- The statements that give values to names, other than by a match. -/
def givesValues : Stmt → Bool
  | .varDecl _ _ _ _ | .assign _ _ _ _ | .forStmt _ _ _ _ _ | .block _ _ _ _ _ => true
  | _ => false

theorem not_within_size {argument : Bytes} (within : Within (sizeBody pattern argument) statement)
    (gives : givesValues statement = true) : False := by
  rcases within_size within with mem | ⟨_, _, rfl⟩
  · simp only [sizeBody, mem_cons, not_mem_nil, or_false] at mem
    rcases mem with rfl | rfl <;> cases gives
  · cases gives

/-- `match t: Tree.Node(child: c): return size(c)`, and the value of `t` is a node. -/
def nodePattern : Pattern :=
  .variant (ascii "Tree.Node") [.field (ascii "child") [.binding (ascii "c")]]

def nodeBody : List Stmt := sizeBody nodePattern (ascii "c")

theorem binder_nodePattern {inside : Bool} (binder : Binder nodePattern inside name) :
    inside = true ∧ name = ascii "c" := by
  cases binder with
  | variant mem binder =>
    obtain rfl := mem_singleton.mp mem
    cases binder with
    | field mem binder =>
      obtain rfl := mem_singleton.mp mem
      cases binder
      exact ⟨rfl, rfl⟩

theorem not_restName_nodePattern : ¬ RestName nodePattern name := by
  intro isRest
  cases isRest with
  | variant mem below =>
    obtain rfl := mem_singleton.mp mem
    cases below with
    | field mem below =>
      obtain rfl := mem_singleton.mp mem
      cases below

theorem matches_size {matched : Pattern} {argument : Bytes}
    (matches_ : Matches (sizeBody pattern argument) outer matched) :
    outer = ascii "t" ∧ matched = pattern := by
  obtain ⟨scrutinee, arms, pos, arm, within, rfl, inArms, rfl⟩ := matches_
  rcases within_size within with mem | ⟨_, _, same⟩
  · rcases mem_cons.mp mem with same | mem
    · cases same
    · cases mem_singleton.mp mem
      obtain rfl := mem_singleton.mp inArms
      exact ⟨rfl, rfl⟩
  · cases same

theorem whole_node {name : Bytes} (whole : Whole nodeBody (ascii "t") name) :
    name = ascii "t" := by
  cases whole with
  | subject => rfl
  | binder _ matched binder =>
    obtain ⟨-, rfl⟩ := matches_size matched
    cases (binder_nodePattern binder).1

theorem inner_node {name : Bytes} (inner : Inner nodeBody (ascii "t") name) :
    name = ascii "c" := by
  cases inner with
  | payload _ matched binder | deeper _ matched binder =>
    obtain ⟨-, rfl⟩ := matches_size matched
    exact (binder_nodePattern binder).2

theorem known_node {name : Bytes} (known : Known nodeBody (ascii "t") name) :
    name = ascii "t" ∨ name = ascii "c" :=
  known.imp whole_node inner_node

theorem clean_node : Clean nodeBody (ascii "t") where
  disjoint name whole inner := by
    have same := (whole_node whole).symm.trans (inner_node inner)
    exact absurd same (by decide)
  declared within := (not_within_size within rfl).elim
  assigned within := (not_within_size within rfl).elim
  loopVars within := (not_within_size within rfl).elim
  blocks within := (not_within_size within rfl).elim
  elsewhere within unknown inArms _ := by
    obtain ⟨same, -⟩ := matches_size ⟨_, _, _, _, within, rfl, inArms, rfl⟩
    rw [same] at unknown
    exact (unknown (.inl .subject)).elim
  rests within inArms isRest := by
    obtain ⟨-, same⟩ := matches_size ⟨_, _, _, _, within, rfl, inArms, rfl⟩
    rw [same] at isRest
    exact (not_restName_nodePattern isRest).elim

def sizeCall (argument : Bytes) (passed : Value) : Call where
  argument := some (.ident argument)
  passed
  aligned := true
  looked := true

theorem runs_size {start : Value} (binds : Binds pattern start name bound) :
    Runs plainMachine sizeOf_ (.nested [] (sizeBody pattern name)) [(ascii "t", start)]
      [sizeCall name bound] .left [(ascii "t", start)] := by
  have size : argumentIndex 0 (ascii "t") [] 1 = some 0 := by decide
  have call : Eval plainMachine sizeOf_ (.one (.call (.ident (ascii "size")) [.ident name] []))
      [(name, bound), (ascii "t", start)] [sizeCall name bound] [leaf]
      [(name, bound), (ascii "t", start)] := by
    have here : lookup [(name, bound), (ascii "t", start)] name = some bound := by simp [lookup]
    have passes : ∀ i, argumentIndex 0 (ascii "t") [] 1 = some i → [bound][i]? = some bound := by
      intro i is
      obtain rfl := Option.some.inj (size.symm.trans is)
      rfl
    exact .recurse rfl (.cons (.own here) .nil) passes rfl
  have arm : Runs plainMachine sizeOf_
      (.nested [(name, bound)]
        [.returnStmt (some (.call (.ident (ascii "size")) [.ident name] [])) .none])
      [(ascii "t", start)] [sizeCall name bound] .left [(ascii "t", start)] := by
    have returns : Runs plainMachine sizeOf_
        (.all [.returnStmt (some (.call (.ident (ascii "size")) [.ident name] [])) .none])
        ([(name, bound)] ++ [(ascii "t", start)]) [sizeCall name bound] .left
        [(name, bound), (ascii "t", start)] := .leave (.returnSome call) nofun
    exact .nested returns .deferNone
  have binds_ : ∀ entry ∈ [(name, bound)], Binds pattern start entry.1 entry.2 := by
    intro entry mem
    obtain rfl := mem_singleton.mp mem
    exact binds
  have subject : lookup [(ascii "t", start)] (ascii "t") = some start := by simp [lookup]
  have quiet : plainMachine.guards
      [.mk pattern [.returnStmt (some (.call (.ident (ascii "size")) [.ident name] [])) .none]
        .absent .none] [(ascii "t", start)] [] [(ascii "t", start)] := ⟨rfl, rfl⟩
  have whole : Runs plainMachine sizeOf_ (.all (sizeBody pattern name))
      ([] ++ [(ascii "t", start)]) [sizeCall name bound] .left [(ascii "t", start)] :=
    .cons .contract (.leave (.matched (.own subject) quiet mem_cons_self binds_ arm) nofun)
  exact .nested whole .deferNone

theorem quiet_plainMachine (known : Bytes → Prop) : Quiet plainMachine known where
  global is := is.elim
  result same entry mem _ := by rwa [same] at mem
  other is := is.elim
  stores is := is.elim
  guards is entry mem _ := by rwa [is.2] at mem

theorem passes_leaf : Term.Part (sizeCall (ascii "c") leaf).passed tree := by
  have isPart : leaf ∈ tree.parts := mem_cons_self
  refine passes_parts (M := plainMachine) (decreasing_size nodePattern (ascii "c"))
    (by decide +kernel) clean_node (quiet_plainMachine _) ?_ ?_
    (runs_size (.variant mem_cons_self isPart (.field mem_cons_self .binding))) ?_ _ mem_cons_self
  · intro known
    rcases known_node known with same | same <;> cases same
  · intro entry mem _
    exact mem_singleton.mp mem
  · intro call mem
    obtain rfl := mem_singleton.mp mem
    refine ⟨rfl, rfl, .ident (ascii "c"), rfl, fun whole => ?_⟩
    exact absurd (whole_node whole) (by decide)

/-- A bare name stands for the whole value, and the check takes it for a part. -/
theorem passes_whole : Decreasing [ascii "Tree"] (sizeDecls (.binding (ascii "n")) (ascii "n"))
      sizeOf_ (sizeBody (.binding (ascii "n")) (ascii "n")) Pos.none.line ∧
    checkStructuralDecreases [ascii "Tree"]
      (sizeDecls (.binding (ascii "n")) (ascii "n")) = [] ∧
    ∃ calls outcome env, Runs plainMachine sizeOf_
        (.nested [] (sizeBody (.binding (ascii "n")) (ascii "n"))) [(ascii "t", leaf)] calls
        outcome env ∧
      ∃ call ∈ calls, ¬ Term.Part call.passed leaf := by
  refine ⟨decreasing_size _ _, by decide +kernel, _, _, _, runs_size .binding, _,
    mem_cons_self, ?_⟩
  exact fun part => Term.wellFounded_part.irrefl.irrefl leaf part

end Examples

end Elisa.Semantic.Decreases
