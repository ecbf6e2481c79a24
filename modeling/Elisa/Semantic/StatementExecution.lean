import Elisa.Semantic.ConstantFolding

/-!
# Runs of statements

What statements do to the variables in scope, for the checks that speak of runs.  A scope lists its
variables with the values of those that are integers, and a name is the newest variable of that
name.  A nested list of statements has a scope of its own, whose variables are gone behind it.

Integers are computed as in `ConstantFolding`: where signed arithmetic traps there is no run.
Everything else that expressions do is a parameter (`Machine`), and evaluating them may change any
variable, as a value block or a call with a reference does.  A run tells of the assignments to
integer variables (`Event`).

`<-` and the compound operators assign.  `name = value` declares a new variable, which hides an
older one of the name up to the end of its list; `_ = value` binds nothing.
-/

namespace Elisa.Semantic

open Ast Lexer

/-! ## Scopes -/

abbrev Cell := Option (IntegerType × Int)

abbrev Scope := List (Bytes × Cell)

namespace Scope

/-- Where the newest variable of a name is. -/
def index (name : Bytes) : Scope → Option Nat
  | [] => none
  | entry :: rest =>
    match index name rest with
    | some i => some (i + 1)
    | none => if entry.1 = name then some 0 else none

def cell (σ : Scope) (i : Nat) : Cell := (σ[i]?.map Prod.snd).join

def number (σ : Scope) (name : Bytes) : Cell := (σ.index name).bind σ.cell

def put (σ : Scope) (i : Nat) (type : IntegerType) (value : Int) : Scope :=
  σ.modify i fun entry => (entry.1, some (type, value))

def declare (σ : Scope) (name : Bytes) (cell : Cell) : Scope := σ ++ [(name, cell)]

end Scope

/-! ## Expressions -/

/-- What is left open: the types of declarations, the kinds of blocks whose variables stay in scope,
and what the evaluation of an expression may give and do. -/
structure Machine where
  typeOf : Expr → Expr → Option IntegerType
  inline : Bytes → Bool
  /-- An integer of a type. -/
  computes : IntegerType → Expr → Scope → Int → Scope → Prop
  evaluates : Expr → Scope → Scope → Prop
  decides : Expr → Scope → Bool → Scope → Prop
  /-- An assignment to anything else than an integer variable, and `_ = value`. -/
  stores : Expr → TokenKind → Expr → Scope → Scope → Prop
  /-- The index of an arm with the variables that its pattern binds, if some arm matches. -/
  selects : Expr → List MatchArm → Scope → Option (Nat × Scope) → Scope → Prop

def isComputed (σ : Scope) : Expr → Bool
  | .intLit _ | .paren _ => true
  | .ident name => (σ.number name).isSome
  | .unary operator _ => operator = .minus
  | .binary _ operator _ => isArithmetic operator
  | _ => false

inductive Computes (M : Machine) (type : IntegerType) : Expr → Scope → Int → Scope → Prop
  | literal {value : Int64} {σ : Scope} :
    Computes M type (.intLit value) σ (type.wrap value.toInt) σ
  | ident {name : Bytes} {σ : Scope} {value : Int} (here : σ.number name = some (type, value)) :
    Computes M type (.ident name) σ value σ
  | paren {inner : Expr} {σ σ' : Scope} {value : Int} (run : Computes M type inner σ value σ') :
    Computes M type (.paren inner) σ value σ'
  | negate {operand : Expr} {σ σ' : Scope} {value : Int}
      (run : Computes M type operand σ value σ') :
    Computes M type (.unary .minus operand) σ (type.wrap (-value)) σ'
  | operate {left right : Expr} {operator : TokenKind} {σ σ₁ σ₂ : Scope} {x y value : Int}
      (first : Computes M type left σ x σ₁) (second : Computes M type right σ₁ y σ₂)
      (result : arithmeticAt type operator x y = some value) :
    Computes M type (.binary left operator right) σ value σ₂
  | other {expression : Expr} {σ σ' : Scope} {value : Int}
      (open_ : isComputed σ expression = false) (run : M.computes type expression σ value σ') :
    Computes M type expression σ value σ'

/-! ## Runs -/

/-- How a run ends: behind the code, at a loop further out, or behind the function. -/
inductive Outcome where
  | normal
  | broke (label : Bytes)
  | continued (label : Bytes)
  | left
  deriving DecidableEq

def Outcome.GoesOn (label : Bytes) (outcome : Outcome) : Prop :=
  outcome = .normal ∨ outcome = .continued [] ∨ outcome = .continued label

/-- How a loop ends that a round has left. -/
def Outcome.leaving (label : Bytes) : Outcome → Option Outcome
  | .broke target => some (if target = [] ∨ target = label then .normal else .broke target)
  | .continued target => if target = [] ∨ target = label then none else some (.continued target)
  | .left => some .left
  | .normal => none

/-- An assignment to an integer variable: where the variable is, and its value before and after.
It is hidden in the body of a `for` loop or in an arm. -/
structure Event where
  cell : Nat
  operator : TokenKind
  value : Expr
  before : Int
  after : Int
  hidden : Bool

def Event.hide (event : Event) : Event := { event with hidden := true }

def compoundOperator : TokenKind → Option TokenKind
  | .plusEq => some .plus
  | .minusEq => some .minus
  | .starEq => some .star
  | .slashEq => some .slash
  | .percentEq => some .percent
  | _ => none

/-- What an assignment leaves in a variable; `=` is none. -/
def stored (type : IntegerType) (operator : TokenKind) (before value : Int) : Option Int :=
  if operator = .lArrow then some value
  else (compoundOperator operator).bind fun arithmetic => arithmeticAt type arithmetic before value

/-- `name = value`, a declaration whose type is left out. -/
def declaresNew (target : Expr) (operator : TokenKind) : Bool :=
  match target with
  | .ident name => operator = .assign && name ≠ ascii "_"
  | _ => false

/-- The code that a run is about. -/
inductive Code where
  | one (statement : Stmt)
  | all (statements : List Stmt)
  /-- A nested list, and the variables that are bound in it. -/
  | nested (bound : Scope) (statements : List Stmt)
  /-- What a list has put off to its end. -/
  | deferred (statements : List Stmt)
  | loop (label : Bytes) (condition : Expr) (body : List Stmt)
  /-- The rounds of a `for` loop.  What each binds is left open. -/
  | rounds (label : Bytes) (body : List Stmt)

/-- The runs of code from a scope to another one, with what they tell of and how they end. -/
inductive Exec (M : Machine) : Code → Scope → List Event → Outcome → Scope → Prop
  | nil {σ : Scope} : Exec M (.all []) σ [] .normal σ
  | cons {statement : Stmt} {rest : List Stmt} {σ σ₁ σ₂ : Scope} {first second : List Event}
      {outcome : Outcome} (head : Exec M (.one statement) σ first .normal σ₁)
      (tail : Exec M (.all rest) σ₁ second outcome σ₂) :
    Exec M (.all (statement :: rest)) σ (first ++ second) outcome σ₂
  | leave {statement : Stmt} {rest : List Stmt} {σ σ₁ : Scope} {events : List Event}
      {outcome : Outcome} (head : Exec M (.one statement) σ events outcome σ₁)
      (left : outcome ≠ .normal) : Exec M (.all (statement :: rest)) σ events outcome σ₁
  | nested {bound : Scope} {body : List Stmt} {σ σ₁ σ₂ : Scope} {first second : List Event}
      {outcome : Outcome} (run : Exec M (.all body) (σ ++ bound) first outcome σ₁)
      (later : Exec M (.deferred body) σ₁ second .normal σ₂) :
    Exec M (.nested bound body) σ (first ++ second) outcome (σ₂.take σ.length)
  | deferNone {body : List Stmt} {σ : Scope} : Exec M (.deferred body) σ [] .normal σ
  | deferSome {body late : List Stmt} {clause : List Bytes} {binding : Bytes} {pos : Pos}
      {σ σ₁ σ₂ : Scope} {first second : List Event}
      (mem : .block (ascii "defer") clause binding late pos ∈ body)
      (run : Exec M (.nested [] late) σ first .normal σ₁)
      (later : Exec M (.deferred body) σ₁ second .normal σ₂) :
    Exec M (.deferred body) σ (first ++ second) .normal σ₂
  | expr {expression : Expr} {pos : Pos} {σ σ₁ : Scope} (run : M.evaluates expression σ σ₁) :
    Exec M (.one (.expr expression pos)) σ [] .normal σ₁
  | varDecl {name : Bytes} {typeExpression value : Expr} {pos : Pos} {type : IntegerType} {x : Int}
      {σ σ₁ : Scope} (integer : M.typeOf typeExpression value = some type)
      (run : Computes M type value σ x σ₁) :
    Exec M (.one (.varDecl name typeExpression value pos)) σ [] .normal
      (σ₁.declare name (some (type, x)))
  | varOther {name : Bytes} {typeExpression value : Expr} {pos : Pos} {σ σ₁ : Scope}
      (other : M.typeOf typeExpression value = none) (run : M.evaluates value σ σ₁) :
    Exec M (.one (.varDecl name typeExpression value pos)) σ [] .normal (σ₁.declare name none)
  | assign {target value : Expr} {operator : TokenKind} {pos : Pos} {i : Nat} {type : IntegerType}
      {before x after : Int} {σ σ₁ : Scope} (run : Computes M type value σ x σ₁)
      (here : σ₁.index target.identNameOf = some i) (cell : σ₁.cell i = some (type, before))
      (store : stored type operator before x = some after) :
    Exec M (.one (.assign target operator value pos)) σ
      [⟨i, operator, value, before, after, false⟩] .normal (σ₁.put i type after)
  | declare {target value : Expr} {operator : TokenKind} {pos : Pos} {σ σ₁ : Scope}
      {events : List Event} {outcome : Outcome} (declares : declaresNew target operator = true)
      (run : Exec M (.one (.varDecl target.identNameOf .invalid value pos)) σ events outcome σ₁) :
    Exec M (.one (.assign target operator value pos)) σ events outcome σ₁
  | assignOther {target value : Expr} {operator : TokenKind} {pos : Pos} {σ σ₁ : Scope}
      (old : declaresNew target operator = false)
      (other : operator = .assign ∨ σ.number target.identNameOf = none)
      (run : M.stores target operator value σ σ₁) :
    Exec M (.one (.assign target operator value pos)) σ [] .normal σ₁
  | ifStmt {condition : Expr} {thenBody elseBody : List Stmt} {pos : Pos} {truth : Bool}
      {σ σ₁ σ₂ : Scope} {events : List Event} {outcome : Outcome}
      (decided : M.decides condition σ truth σ₁)
      (run : Exec M (.nested [] (if truth then thenBody else elseBody)) σ₁ events outcome σ₂) :
    Exec M (.one (.ifStmt condition thenBody elseBody pos)) σ events outcome σ₂
  | whileStmt {condition : Expr} {body : List Stmt} {pos : Pos} {σ σ₁ : Scope}
      {events : List Event} {outcome : Outcome}
      (run : Exec M (.loop [] condition body) σ events outcome σ₁) :
    Exec M (.one (.whileStmt condition body pos)) σ events outcome σ₁
  | loopDone {label : Bytes} {condition : Expr} {body : List Stmt} {σ σ₁ : Scope}
      (decided : M.decides condition σ false σ₁) :
    Exec M (.loop label condition body) σ [] .normal σ₁
  | loopNext {label : Bytes} {condition : Expr} {body : List Stmt} {σ σ₁ σ₂ σ₃ : Scope}
      {first second : List Event} {round outcome : Outcome}
      (decided : M.decides condition σ true σ₁) (run : Exec M (.nested [] body) σ₁ first round σ₂)
      (on_ : round.GoesOn label) (more : Exec M (.loop label condition body) σ₂ second outcome σ₃) :
    Exec M (.loop label condition body) σ (first ++ second) outcome σ₃
  | loopLeft {label : Bytes} {condition : Expr} {body : List Stmt} {σ σ₁ σ₂ : Scope}
      {events : List Event} {round outcome : Outcome} (decided : M.decides condition σ true σ₁)
      (run : Exec M (.nested [] body) σ₁ events round σ₂)
      (leaves : round.leaving label = some outcome) :
    Exec M (.loop label condition body) σ events outcome σ₂
  | forStmt {bind : Bytes} {loopVars : List Bytes} {iterable : Expr} {body : List Stmt} {pos : Pos}
      {σ σ₁ σ₂ : Scope} {events : List Event} {outcome : Outcome}
      (evaluated : M.evaluates iterable σ σ₁)
      (run : Exec M (.rounds [] body) σ₁ events outcome σ₂) :
    Exec M (.one (.forStmt bind loopVars iterable body pos)) σ (events.map Event.hide) outcome σ₂
  | roundsDone {label : Bytes} {body : List Stmt} {σ : Scope} :
    Exec M (.rounds label body) σ [] .normal σ
  | roundsNext {label : Bytes} {body : List Stmt} {bound σ σ₁ σ₂ : Scope}
      {first second : List Event} {round outcome : Outcome}
      (run : Exec M (.nested bound body) σ first round σ₁) (on_ : round.GoesOn label)
      (more : Exec M (.rounds label body) σ₁ second outcome σ₂) :
    Exec M (.rounds label body) σ (first ++ second) outcome σ₂
  | roundsLeft {label : Bytes} {body : List Stmt} {bound σ σ₁ : Scope}
      {events : List Event} {round outcome : Outcome}
      (run : Exec M (.nested bound body) σ events round σ₁)
      (leaves : round.leaving label = some outcome) :
    Exec M (.rounds label body) σ events outcome σ₁
  | labelledWhile {label binding : Bytes} {condition : Expr} {body : List Stmt} {inner pos : Pos}
      {σ σ₁ : Scope} {events : List Event} {outcome : Outcome}
      (run : Exec M (.loop label condition body) σ events outcome σ₁) :
    Exec M (.one (.block (ascii "label") [label] binding [.whileStmt condition body inner] pos)) σ
      events outcome σ₁
  | labelledFor {label binding bind : Bytes} {loopVars : List Bytes} {iterable : Expr}
      {body : List Stmt} {inner pos : Pos} {σ σ₁ σ₂ : Scope}
        {events : List Event} {outcome : Outcome}
      (evaluated : M.evaluates iterable σ σ₁)
      (run : Exec M (.rounds label body) σ₁ events outcome σ₂) :
    Exec M (.one (.block (ascii "label") [label] binding
      [.forStmt bind loopVars iterable body inner] pos)) σ (events.map Event.hide) outcome σ₂
  | block {kind binding : Bytes} {clause : List Bytes} {body : List Stmt} {pos : Pos} {σ σ₁ : Scope}
      {events : List Event} {outcome : Outcome} (other : kind ≠ ascii "label")
      (own : M.inline kind = false)
      (run : Exec M (.nested [] body) σ events outcome σ₁) :
    Exec M (.one (.block kind clause binding body pos)) σ events outcome σ₁
  | inlineBlock {kind binding : Bytes} {clause : List Bytes} {body : List Stmt} {pos : Pos}
      {σ σ₁ : Scope} {events : List Event} {outcome : Outcome} (other : kind ≠ ascii "label")
      (shared : M.inline kind = true)
      (run : Exec M (.all body) σ events outcome σ₁) :
    Exec M (.one (.block kind clause binding body pos)) σ events outcome σ₁
  -- A block that is put off, that another one is chosen for, or that only the checks read.
  | skip {kind binding : Bytes} {clause : List Bytes} {body : List Stmt} {pos : Pos} {σ : Scope}
      (other : kind ≠ ascii "label") :
    Exec M (.one (.block kind clause binding body pos)) σ [] .normal σ
  | matched {scrutinee : Expr} {arms : List MatchArm} {pos : Pos} {i : Nat} {arm : MatchArm}
      {bound σ σ₁ σ₂ : Scope} {events : List Event} {outcome : Outcome}
      (selected : M.selects scrutinee arms σ (some (i, bound)) σ₁) (here : arms[i]? = some arm)
      (run : Exec M (.nested bound arm.body) σ₁ events outcome σ₂) :
    Exec M (.one (.matchStmt scrutinee arms pos)) σ (events.map Event.hide) outcome σ₂
  | unmatched {scrutinee : Expr} {arms : List MatchArm} {pos : Pos} {σ σ₁ : Scope}
      (selected : M.selects scrutinee arms σ none σ₁) :
    Exec M (.one (.matchStmt scrutinee arms pos)) σ [] .normal σ₁
  | returnNone {pos : Pos} {σ : Scope} : Exec M (.one (.returnStmt none pos)) σ [] .left σ
  | returnSome {value : Expr} {pos : Pos} {σ σ₁ : Scope} (run : M.evaluates value σ σ₁) :
    Exec M (.one (.returnStmt (some value) pos)) σ [] .left σ₁
  | breakStmt {label : Bytes} {pos : Pos} {σ : Scope} :
    Exec M (.one (.breakStmt label pos)) σ [] (.broke label) σ
  | continueStmt {label : Bytes} {pos : Pos} {σ : Scope} :
    Exec M (.one (.continueStmt label pos)) σ [] (.continued label) σ
  | contract {kind : Bytes} {expression : Expr} {pos : Pos} {σ : Scope} :
    Exec M (.one (.contract kind expression pos)) σ [] .normal σ

/-! ## Conditions -/

def compares (operator : TokenKind) (left right : Int) : Bool :=
  match operator with
  | .eqEq => left = right
  | .bangEq => left ≠ right
  | .lt => left < right
  | .ltEq => left ≤ right
  | .gt => left > right
  | .gtEq => left ≥ right
  | _ => false

def operandType (σ : Scope) : Expr → Option IntegerType
  | .ident name => (σ.number name).map Prod.fst
  | .paren inner => operandType σ inner
  | .unary _ operand => operandType σ operand
  | .binary left _ right => (operandType σ left).or (operandType σ right)
  | _ => none

/-- The comparisons that hold in a scope, and what is made of them with `and`. What other conditions
mean is left open. -/
def Holds (M : Machine) (σ : Scope) : Expr → Prop
  | .paren inner => Holds M σ inner
  | .binary left operator right =>
    if operator = .kwAnd then Holds M σ left ∧ Holds M σ right
    else if operator = .eqEq ∨ operator = .bangEq ∨ operator = .lt ∨ operator = .ltEq ∨
        operator = .gt ∨ operator = .gtEq then
      ∃ type x y σ₁ σ₂, (operandType σ (.binary left operator right)).getD .int64 = type ∧
        Computes M type left σ x σ₁ ∧ Computes M type right σ₁ y σ₂ ∧ compares operator x y = true
    else ∃ σ₁, M.decides (.binary left operator right) σ true σ₁
  | condition => ∃ σ₁, M.decides condition σ true σ₁

end Elisa.Semantic
