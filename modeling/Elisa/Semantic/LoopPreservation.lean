import Elisa.Semantic.LinearForms
import Elisa.Semantic.LoopEstablishment

/-!
# Loop invariants that the body of a loop breaks

`invariant_body_breaks` (`check_loop_invariant_preserved.elisa`) judges each update of `v` in a
loop's body by itself against an invariant `v cmp c`: a constant has to satisfy it, and a step
towards the bound has to be kept within it by the loop's guard.

What is not reported holds behind the body on the runs whose updates are harmless (`Harmless`):
those that keep the invariant whatever the guard says, and those that the check reads for what they
do.  It does not read the operator of an assignment, the bodies of `for` loops, the arms of a
`match`, and equations.
-/

namespace Elisa.Semantic

open Ast Lexer List

/-! ## The check -/

/-- The constants of a program, with their values. -/
abbrev ConstTable := List (Bytes × Int)

def lipBoundValue (consts : ConstTable) (expression : Expr) : Option Int :=
  match foldConstInt expression with
  | some value => some value
  | none =>
    if expression.identNameOf ≠ [] then
      (consts.find? fun row => row.1 = expression.identNameOf).map Prod.snd
    else none

/-- What a guard says of the values of a variable. -/
inductive GuardBound where
  /-- There are none. -/
  | impossible
  | atMost (limit : Int)
  deriving DecidableEq

def boundOf (operator : TokenKind) (limit : Int) : Option GuardBound :=
  match operator with
  | .lt =>
    match linearSubSafe limit 1 with
    | none => some .impossible
    | some predecessor => some (.atMost predecessor)
  | .ltEq => some (.atMost limit)
  | _ => none

def lipGuardUpperBound (consts : ConstTable) (name : Bytes) : Expr → Option GuardBound
  | .paren inner => lipGuardUpperBound consts name inner
  | .binary left operator right =>
    if operator = .kwAnd then
      match lipGuardUpperBound consts name left with
      | some bound => some bound
      | none => lipGuardUpperBound consts name right
    else if left.identNameOf = name then (lipBoundValue consts right).bind (boundOf operator)
    else none
  | _ => none

/-- The invariant `name operator bound` of a loop, and what it is judged with. -/
structure LoopInvariant where
  consts : ConstTable
  name : Bytes
  operator : TokenKind
  bound : Int
  guardCondition : Expr

namespace LoopInvariant

def Allows (invariant : LoopInvariant) (value : Int) : Prop :=
  compares invariant.operator value invariant.bound = true

instance (invariant : LoopInvariant) (value : Int) : Decidable (invariant.Allows value) :=
  inferInstanceAs (Decidable (_ = true))

def IsUpper (invariant : LoopInvariant) : Prop :=
  invariant.operator = .lt ∨ invariant.operator = .ltEq

instance (invariant : LoopInvariant) : Decidable invariant.IsUpper :=
  inferInstanceAs (Decidable (_ ∨ _))

def IsLower (invariant : LoopInvariant) : Prop :=
  invariant.operator = .gt ∨ invariant.operator = .gtEq

instance (invariant : LoopInvariant) : Decidable invariant.IsLower :=
  inferInstanceAs (Decidable (_ ∨ _))

def lipGuardPreserves (invariant : LoopInvariant) (step : Int) : Bool :=
  match lipGuardUpperBound invariant.consts invariant.name invariant.guardCondition with
  | none => false
  | some .impossible => true
  | some (.atMost limit) =>
    match linearAddSafe limit step with
    | none => true
    | some next =>
      match invariant.operator with
      | .lt => next < invariant.bound
      | .ltEq => next ≤ invariant.bound
      | _ => false

def constantBreaks (invariant : LoopInvariant) (konst : Int) : Bool :=
  match invariant.operator with
  | .lt => ¬ konst < invariant.bound
  | .ltEq => ¬ konst ≤ invariant.bound
  | .gt => ¬ konst > invariant.bound
  | .gtEq => ¬ konst ≥ invariant.bound
  | _ => false

def stepBreaks (invariant : LoopInvariant) (konst : Int) : Bool :=
  if 0 < konst ∧ invariant.IsUpper ∧ invariant.lipGuardPreserves konst = false then true
  else konst < 0 ∧ invariant.IsLower

/-- The verdict on a value that is assigned to the variable. -/
def valueBreaks (invariant : LoopInvariant) (value : Expr) : Bool :=
  match linearForm value with
  | none => false
  | some form =>
    if form.otherVars invariant.name then false
    else if form.selfCoeff invariant.name = 0 then invariant.constantBreaks form.konst
    else if form.selfCoeff invariant.name ≠ 1 then false
    else invariant.stepBreaks form.konst

mutual

def invariantBodyBreaks (invariant : LoopInvariant) : List Stmt → Bool
  | [] => false
  | statement :: rest => statementBreaks invariant statement || invariantBodyBreaks invariant rest

/-- The verdict on a statement; the operator of an assignment is not looked at. -/
def statementBreaks (invariant : LoopInvariant) : Stmt → Bool
  | .assign target _ value _ =>
    target.identNameOf = invariant.name && invariant.valueBreaks value
  | .ifStmt _ thenBody elseBody _ =>
    invariantBodyBreaks invariant thenBody || invariantBodyBreaks invariant elseBody
  | .whileStmt _ body _ => invariantBodyBreaks invariant body
  | .block _ _ _ body _ => invariantBodyBreaks invariant body
  | _ => false

end

/-! ## Updates -/

/-- What an update makes of the value before it. -/
inductive Change where
  | store (value : Int)
  | step (by_ : Int)
  deriving DecidableEq

def Change.apply : Change → Int → Int
  | .store value, _ => value
  | .step by_, before => before + by_

/-- The names that stand for constants have their values. -/
def Fits (constants : Bytes → Option Int) (env : Bytes → Int) : Prop :=
  ∀ name value, constants name = some value → env name = value

/-- An assignment without arithmetic of its own. -/
def IsPlain (operator : TokenKind) : Prop := operator = .lArrow

/-- The changes that are judged: to a constant, by a constant, and the compound ones by a
constant. -/
inductive Does (constants : Bytes → Option Int) (name : Bytes) (event : Event) : Change → Prop
  | store {value : Int} (plain : IsPlain event.operator)
      (is : ∀ env, Fits constants env → integerValue env event.value = some value) :
    Does constants name event (.store value)
  | step {by_ : Int} (plain : IsPlain event.operator)
      (is : ∀ env, Fits constants env → integerValue env event.value = some (env name + by_)) :
    Does constants name event (.step by_)
  | raise {by_ : Int} (compound : event.operator = .plusEq)
      (is : ∀ env, Fits constants env → integerValue env event.value = some by_) :
    Does constants name event (.step by_)
  | lower {by_ : Int} (compound : event.operator = .minusEq)
      (is : ∀ env, Fits constants env → integerValue env event.value = some by_) :
    Does constants name event (.step (-by_))

def Keeps (invariant : LoopInvariant) : Change → Prop
  | .store value => invariant.Allows value
  | .step by_ => by_ = 0 ∨ (by_ < 0 ∧ invariant.IsUpper) ∨ (0 < by_ ∧ invariant.IsLower)

/-- An update that the check reads for what it does.  `start` is the value at the start of the
body. -/
structure Judged (invariant : LoopInvariant) (start : Int) (event : Event) (change : Change) :
    Prop where
  seen : event.hidden = false
  plain : IsPlain event.operator
  read : ∃ form, linearForm event.value = some form ∧ form.otherVars invariant.name = false
  ordered : invariant.IsUpper ∨ invariant.IsLower
  first : ∀ by_, change = .step by_ → 0 < by_ → event.before ≤ start
  bounded : ∀ by_ limit, change = .step by_ → 0 < by_ →
    lipGuardUpperBound invariant.consts invariant.name invariant.guardCondition =
      some (.atMost limit) → (linearAddSafe limit by_).isSome

/-- An update that does a change of the judged kind, without a wrap, and that keeps the invariant by
itself or is read for what it does. -/
def Harmless (invariant : LoopInvariant) (constants : Bytes → Option Int) (start : Int)
    (checked : Bool) (event : Event) : Prop :=
  ∃ change, Does constants invariant.name event change ∧
    event.after = change.apply event.before ∧
      (invariant.Keeps change ∨ checked = true ∧ invariant.Judged start event change)

variable {invariant : LoopInvariant}

theorem IsUpper.allows (upper : invariant.IsUpper) :
    ∃ greatest, ∀ value, invariant.Allows value ↔ value ≤ greatest := by
  rcases upper with is | is
  · exact ⟨invariant.bound - 1, fun value => by
      rw [Allows, is, compares, decide_eq_true_eq]; omega⟩
  · exact ⟨invariant.bound, fun value => by rw [Allows, is, compares, decide_eq_true_eq]⟩

theorem IsLower.allows (lower : invariant.IsLower) :
    ∃ least, ∀ value, invariant.Allows value ↔ least ≤ value := by
  rcases lower with is | is
  · exact ⟨invariant.bound + 1, fun value => by
      rw [Allows, is, compares, decide_eq_true_eq]; omega⟩
  · exact ⟨invariant.bound, fun value => by rw [Allows, is, compares, decide_eq_true_eq]⟩

theorem keeps_apply {change : Change} {before : Int} (keeps : invariant.Keeps change)
    (holds : invariant.Allows before) : invariant.Allows (change.apply before) := by
  cases change with
  | store value => exact keeps
  | step by_ =>
    rcases keeps with rfl | ⟨down, upper⟩ | ⟨up, lower⟩
    · rwa [Change.apply, Int.add_zero]
    · obtain ⟨greatest, allows⟩ := upper.allows
      rw [allows] at holds ⊢
      rw [Change.apply]
      omega
    · obtain ⟨least, allows⟩ := lower.allows
      rw [allows] at holds ⊢
      rw [Change.apply]
      omega

theorem allows_of_constant {konst : Int} (ordered : invariant.IsUpper ∨ invariant.IsLower)
    (fine : invariant.constantBreaks konst = false) : invariant.Allows konst := by
  rcases ordered with (is | is) | (is | is)
  all_goals simpa [constantBreaks, Allows, compares, is] using fine

end LoopInvariant

/-! ## The guard -/

/-- The values that a bound leaves; none of the machine's numbers is below all of them. -/
def GuardBound.Admits (value : Int) : GuardBound → Prop
  | .impossible => value < linearI64Min
  | .atMost limit => value ≤ limit

/-- The constants that a guard compares a variable with have the values that the check takes. -/
def GuardReads (M : Machine) (consts : ConstTable) (name : Bytes) (type : IntegerType)
    (σ : Scope) : Expr → Prop
  | .paren inner => GuardReads M consts name type σ inner
  | .binary left operator right =>
    if operator = .kwAnd then
      GuardReads M consts name type σ left ∧ GuardReads M consts name type σ right
    else left.identNameOf = name → ∀ limit, lipBoundValue consts right = some limit →
      ∀ value σ', Computes M type right σ value σ' → value = limit
  | _ => True

variable {operator : TokenKind} {value : Int}

theorem admits_boundOf {limit : Int} {bound : GuardBound}
    (found : boundOf operator limit = some bound) (holds : compares operator value limit = true) :
    bound.Admits value := by
  unfold boundOf at found
  split at found
  next =>
    rw [compares, decide_eq_true_eq] at holds
    split at found
    next unknown =>
      obtain rfl := Option.some.inj found
      rw [linearSubSafe] at unknown
      split at unknown
      next low =>
        rw [GuardBound.Admits]
        omega
      next => cases unknown
    rename_i predecessor known
    obtain rfl := Option.some.inj found
    rw [GuardBound.Admits, ← linearSubSafe_eq known]
    omega
  next =>
    rw [compares, decide_eq_true_eq] at holds
    obtain rfl := Option.some.inj found
    exact holds
  next => cases found

variable {σ : Scope} {name : Bytes}

theorem admits_of_guard {M : Machine} {consts : ConstTable} {type : IntegerType}
    {condition : Expr} {bound : GuardBound} (some_ : name ≠ [])
    (number : σ.number name = some (type, value))
    (reads : GuardReads M consts name type σ condition) (holds : Holds M σ condition)
    (found : lipGuardUpperBound consts name condition = some bound) : bound.Admits value := by
  fun_induction lipGuardUpperBound consts name condition with
  | case1 inner ih => exact ih reads holds found
  | case2 left right limit known ih =>
    rw [GuardReads, if_pos rfl] at reads
    rw [Holds, if_pos rfl] at holds
    rw [known] at ih
    exact ih reads.1 holds.1 found
  | case3 left right unknown _ ih =>
    rw [GuardReads, if_pos rfl] at reads
    rw [Holds, if_pos rfl] at holds
    exact ih reads.2 holds.2 found
  | case4 left operator right other here =>
    obtain ⟨limit, read, found⟩ := Option.bind_eq_some_iff.mp found
    rw [GuardReads, if_neg other] at reads
    have comparison : operator = .lt ∨ operator = .ltEq := by
      cases operator with
      | lt => exact .inl rfl
      | ltEq => exact .inr rfl
      | _ => cases found
    rw [Holds, if_neg other, if_pos (by rcases comparison with rfl | rfl <;> decide)] at holds
    obtain ⟨type', x, y, σ₁, σ₂, -, first, second, compared⟩ := holds
    obtain ⟨rfl, rfl, rfl⟩ := computes_name here some_ number first
    rw [reads here limit read y σ₂ second] at compared
    exact admits_boundOf found compared
  | case5 => cases found
  | case6 => cases found

/-! ## Updates that the check reads -/

namespace LoopInvariant

variable {constants : Bytes → Option Int} {invariant : LoopInvariant} {event : Event}

theorem exists_fits (variable_ : constants invariant.name = none) (free : Int) :
    ∃ env, Fits constants env ∧ env invariant.name = free := by
  refine ⟨fun name => if name = invariant.name then free else (constants name).getD 0, ?_,
    if_pos rfl⟩
  intro name value known
  have other : name ≠ invariant.name := fun same => by
    rw [same, variable_] at known
    cases known
  change (if name = invariant.name then free else (constants name).getD 0) = value
  rw [if_neg other, known, Option.getD_some]

/-- A form that is read has the coefficient and the constant of the value: two runs tell. -/
theorem form_of_affine {form : LinearForm} {coefficient konst : Int}
    (variable_ : constants invariant.name = none)
    (is : ∀ env, Fits constants env →
      integerValue env event.value = some (coefficient * env invariant.name + konst))
    (read : linearForm event.value = some form)
    (alone : form.otherVars invariant.name = false) :
    form.selfCoeff invariant.name = coefficient ∧ form.konst = konst := by
  obtain ⟨env, fits, free⟩ := exists_fits variable_ 0
  obtain ⟨env', fits', free'⟩ := exists_fits variable_ 1
  have atZero := is env fits
  have atOne := is env' fits'
  rw [linearForm_self read alone, free, Option.some.injEq] at atZero
  rw [linearForm_self read alone, free', Option.some.injEq] at atOne
  omega

theorem allows_of_guard {start before by_ : Int} (upper : invariant.IsUpper)
    (representable : linearI64Min ≤ start) (up : before ≤ start)
    (admits : ∀ bound, lipGuardUpperBound invariant.consts invariant.name
      invariant.guardCondition = some bound → bound.Admits start)
    (bounded : ∀ limit, lipGuardUpperBound invariant.consts invariant.name
      invariant.guardCondition = some (.atMost limit) → (linearAddSafe limit by_).isSome)
    (preserved : invariant.lipGuardPreserves by_ = true) : invariant.Allows (before + by_) := by
  unfold lipGuardPreserves at preserved
  split at preserved
  next => cases preserved
  next found => exact absurd representable (Int.not_le.mpr (admits _ found))
  rename_i limit found
  have atMost : start ≤ limit := admits _ found
  split at preserved
  next unknown =>
    have known := bounded limit found
    rw [unknown] at known
    cases known
  rename_i next_ known
  rw [← linearAddSafe_eq known] at preserved
  rcases upper with is | is
  all_goals
    simp only [is, decide_eq_true_eq] at preserved
    rw [Allows, is, compares, decide_eq_true_eq]
    omega

theorem judged_apply {start : Int} {change : Change} (variable_ : constants invariant.name = none)
    (representable : linearI64Min ≤ start)
    (admits : ∀ bound, lipGuardUpperBound invariant.consts invariant.name
      invariant.guardCondition = some bound → bound.Admits start)
    (does : Does constants invariant.name event change)
    (judged : invariant.Judged start event change) (holds : invariant.Allows event.before)
    (fine : invariant.valueBreaks event.value = false) :
    invariant.Allows (change.apply event.before) := by
  obtain ⟨form, read, alone⟩ := judged.read
  have compound {operator : TokenKind} (is : event.operator = operator)
      (other : operator ≠ .lArrow) : False := other (is.symm.trans judged.plain)
  rw [valueBreaks, read] at fine
  simp only [alone, Bool.false_eq_true, if_false] at fine
  cases does with
  | raise is => exact (compound is (by decide)).elim
  | lower is => exact (compound is (by decide)).elim
  | store plain is =>
    obtain ⟨zero, rfl⟩ := @form_of_affine _ _ _ _ 0 _ variable_ (by simpa using is) read alone
    rw [if_pos zero] at fine
    exact allows_of_constant judged.ordered fine
  | @step by_ plain is =>
    obtain ⟨one, rfl⟩ := @form_of_affine _ _ _ _ 1 _ variable_ (by simpa using is) read alone
    rw [if_neg (by omega), if_neg (by omega), stepBreaks] at fine
    rcases Int.lt_trichotomy form.konst 0 with down | zero | up
    · rcases judged.ordered with upper | lower
      · have keeps : invariant.Keeps (.step form.konst) := .inr (.inl ⟨down, upper⟩)
        exact keeps_apply keeps holds
      · simp [down, lower, Int.not_lt.mpr (Int.le_of_lt down)] at fine
    · have keeps : invariant.Keeps (.step form.konst) := .inl zero
      exact keeps_apply keeps holds
    rcases judged.ordered with upper | lower
    · have preserved : invariant.lipGuardPreserves form.konst = true := by
        by_contra unpreserved
        simp [up, upper, Bool.eq_false_iff.mpr unpreserved] at fine
      exact allows_of_guard upper representable (judged.first _ rfl up) admits
        (fun limit found => judged.bounded _ limit rfl up found) preserved
    · have keeps : invariant.Keeps (.step form.konst) := .inr (.inr ⟨up, lower⟩)
      exact keeps_apply keeps holds

end LoopInvariant

/-! ## Runs -/

variable {i : Nat}

theorem name_of_index (here : σ.index name = some i) : ∃ cell, σ[i]? = some (name, cell) := by
  induction σ generalizing i with
  | nil => cases here
  | cons entry rest ih =>
    rw [Scope.index] at here
    cases later : Scope.index name rest with
    | some j =>
      rw [later] at here
      obtain rfl := Option.some.inj here
      exact ih later
    | none =>
      simp only [later] at here
      split at here
      next same =>
        obtain rfl := Option.some.inj here
        exact ⟨entry.2, by rw [← same]; rfl⟩
      next => cases here

theorem put_here {cell : Cell} {type : IntegerType} (here : σ[i]? = some (name, cell)) :
    (σ.put i type value)[i]? = some (name, some (type, value)) := by
  rw [Scope.put, getElem?_modify_eq, here]
  rfl

theorem put_elsewhere {d : Nat} {type : IntegerType} (other : i ≠ d) :
    (σ.put i type value)[d]? = σ[d]? := by
  rw [Scope.put, getElem?_modify_ne _ _ other]

theorem cell_of_getElem? {cell : Cell} (here : σ[i]? = some (name, cell)) : σ.cell i = cell := by
  rw [Scope.cell, here]
  rfl

/-- Evaluating expressions leaves a variable alone. -/
structure Quiet (M : Machine) (d : Nat) : Prop where
  computes : ∀ {type expression σ value σ'}, M.computes type expression σ value σ' →
    σ'[d]? = σ[d]?
  evaluates : ∀ {expression σ σ'}, M.evaluates expression σ σ' → σ'[d]? = σ[d]?
  decides : ∀ {condition σ truth σ'}, M.decides condition σ truth σ' → σ'[d]? = σ[d]?
  stores : ∀ {target operator value σ σ'}, M.stores target operator value σ σ' → σ'[d]? = σ[d]?
  selects : ∀ {scrutinee arms σ found σ'}, M.selects scrutinee arms σ found σ' → σ'[d]? = σ[d]?

variable {σ' : Scope}

theorem Quiet.run {M : Machine} {d : Nat} (quiet : Quiet M d) {type : IntegerType}
    {expression : Expr} (run : Computes M type expression σ value σ') : σ'[d]? = σ[d]? := by
  induction run with
  | literal => rfl
  | ident => rfl
  | paren _ ih => exact ih
  | negate _ ih => exact ih
  | operate _ _ _ ih₁ ih₂ => exact ih₂.trans ih₁
  | other _ run => exact quiet.computes run

namespace LoopInvariant

def codeBreaks (invariant : LoopInvariant) : Code → Bool
  | .one statement => invariant.statementBreaks statement
  | .all body | .nested _ body | .deferred body | .loop _ _ body | .rounds _ body =>
    invariant.invariantBodyBreaks body

variable {invariant : LoopInvariant} {d : Nat} {type : IntegerType}

theorem statementBreaks_of_mem {statement : Stmt} {body : List Stmt}
    (fine : invariant.invariantBodyBreaks body = false) (mem : statement ∈ body) :
    invariant.statementBreaks statement = false := by
  induction body with
  | nil => cases mem
  | cons head rest ih =>
    rw [invariantBodyBreaks, Bool.or_eq_false_iff] at fine
    rcases mem_cons.mp mem with rfl | there
    · exact fine.1
    · exact ih fine.2 there

def HoldsAt (invariant : LoopInvariant) (d : Nat) (type : IntegerType) (σ : Scope) : Prop :=
  ∃ value, σ[d]? = some (invariant.name, some (type, value)) ∧ invariant.Allows value

theorem HoldsAt.of_eq (holds : invariant.HoldsAt d type σ) (same : σ'[d]? = σ[d]?) :
    invariant.HoldsAt d type σ' := by
  obtain ⟨value, here, allows⟩ := holds
  exact ⟨value, same.trans here, allows⟩

theorem HoldsAt.append (holds : invariant.HoldsAt d type σ) (bound : Scope) :
    invariant.HoldsAt d type (σ ++ bound) := by
  obtain ⟨value, here, allows⟩ := holds
  refine ⟨value, ?_, allows⟩
  rw [List.getElem?_append_left (List.getElem?_eq_some_iff.mp here).1, here]

theorem HoldsAt.take {n : Nat} (holds : invariant.HoldsAt d type σ) (inside : d < n) :
    invariant.HoldsAt d type (σ.take n) :=
  holds.of_eq (getElem?_take_of_lt inside)

theorem HoldsAt.lt (holds : invariant.HoldsAt d type σ) : d < σ.length := by
  obtain ⟨value, here, -⟩ := holds
  exact (List.getElem?_eq_some_iff.mp here).1

variable {checked : Bool}

theorem Harmless.of_hide {constants : Bytes → Option Int} {start : Int} {event : Event}
    (harmless : invariant.Harmless constants start checked event.hide) :
    invariant.Harmless constants start false event := by
  obtain ⟨change, does, exact_, keeps | ⟨-, judged⟩⟩ := harmless
  · refine ⟨change, ?_, exact_, .inl keeps⟩
    cases does with
    | store plain is => exact .store plain is
    | step plain is => exact .step plain is
    | raise compound is => exact .raise compound is
    | lower compound is => exact .lower compound is
  · cases judged.seen

section Run

variable {M : Machine} {d : Nat} {type : IntegerType} {start : Int} {invariant : LoopInvariant}
  {constants : Bytes → Option Int}

theorem harmless_after {checked : Bool} {event : Event}
    (variable_ : constants invariant.name = none) (representable : linearI64Min ≤ start)
    (admits : ∀ bound, lipGuardUpperBound invariant.consts invariant.name
      invariant.guardCondition = some bound → bound.Admits start)
    (fine : checked = true → invariant.valueBreaks event.value = false)
    (harmless : invariant.Harmless constants start checked event)
    (holds : invariant.Allows event.before) : invariant.Allows event.after := by
  obtain ⟨change, does, exact_, keeps | ⟨seen, judged⟩⟩ := harmless
  · rw [exact_]
    exact keeps_apply keeps holds
  · rw [exact_]
    exact judged_apply variable_ representable admits does judged holds (fine seen)

theorem holdsAt_of_exec {code : Code} {σ σ' : Scope} {events : List Event} {outcome : Outcome}
    {checked : Bool} (quiet : Quiet M d) (variable_ : constants invariant.name = none)
    (representable : linearI64Min ≤ start)
    (admits : ∀ bound, lipGuardUpperBound invariant.consts invariant.name
      invariant.guardCondition = some bound → bound.Admits start)
    (run : Exec M code σ events outcome σ')
    (fine : checked = true → invariant.codeBreaks code = false)
    (harmless : ∀ event ∈ events, event.cell = d →
      invariant.Harmless constants start checked event)
    (holds : invariant.HoldsAt d type σ) : invariant.HoldsAt d type σ' := by
  induction run generalizing checked with
  | nil | deferNone | roundsDone | skip | returnNone | breakStmt | continueStmt | contract =>
    exact holds
  | cons _ _ ihHead ihTail =>
    have fine_ := fun c => Bool.or_eq_false_iff.mp (fine c)
    exact ihTail (fun c => (fine_ c).2) (fun e mem => harmless e (mem_append_right _ mem))
      (ihHead (fun c => (fine_ c).1) (fun e mem => harmless e (mem_append_left _ mem)) holds)
  | leave _ _ ih =>
    exact ih (fun c => (Bool.or_eq_false_iff.mp (fine c)).1) harmless holds
  | nested _ _ ihRun ihLater =>
    have behind := ihRun fine (fun e mem => harmless e (mem_append_left _ mem))
      (holds.append _)
    have later := ihLater fine (fun e mem => harmless e (mem_append_right _ mem)) behind
    exact later.take holds.lt
  | deferSome mem _ _ ihRun ihLater =>
    exact ihLater fine (fun e mem => harmless e (mem_append_right _ mem))
      (ihRun (fun c => statementBreaks_of_mem (fine c) mem)
        (fun e mem => harmless e (mem_append_left _ mem)) holds)
  | expr run => exact holds.of_eq (quiet.evaluates run)
  | varDecl _ run => exact (holds.of_eq (quiet.run run)).append _
  | varOther _ run => exact (holds.of_eq (quiet.evaluates run)).append _
  | @assign target value operator pos i type' before x after σ σ₁ run here cell store =>
    have reached := holds.of_eq (quiet.run run)
    cases decEq i d with
    | isFalse other => exact reached.of_eq (put_elsewhere other)
    | isTrue same =>
      subst same
      obtain ⟨current, found, allows⟩ := reached
      rw [cell_of_getElem? found] at cell
      cases cell
      obtain ⟨own, named⟩ := name_of_index here
      have isName : target.identNameOf = invariant.name := by
        rw [found] at named
        exact (congrArg Prod.fst (Option.some.inj named)).symm
      refine ⟨after, put_here found,
        harmless_after variable_ representable admits (fun c => ?_)
          (harmless _ mem_cons_self rfl) allows⟩
      have unreported := fine c
      rw [codeBreaks, statementBreaks, decide_eq_true isName, Bool.true_and] at unreported
      exact unreported
  | declare _ _ ih => exact ih (fun _ => rfl) harmless holds
  | assignOther _ _ run => exact holds.of_eq (quiet.stores run)
  | @ifStmt _ _ _ _ truth _ _ _ _ _ decided _ ih =>
    have fine_ := fun c => Bool.or_eq_false_iff.mp (fine c)
    refine ih (fun c => ?_) harmless (holds.of_eq (quiet.decides decided))
    cases truth with
    | true => exact (fine_ c).1
    | false => exact (fine_ c).2
  | whileStmt _ ih => exact ih fine harmless holds
  | loopDone decided => exact holds.of_eq (quiet.decides decided)
  | loopNext decided _ _ _ ihRun ihMore =>
    exact ihMore fine (fun e mem => harmless e (mem_append_right _ mem))
      (ihRun fine (fun e mem => harmless e (mem_append_left _ mem))
        (holds.of_eq (quiet.decides decided)))
  | loopLeft decided _ _ ih => exact ih fine harmless (holds.of_eq (quiet.decides decided))
  | forStmt evaluated _ ih =>
    exact ih (fun unchecked : false = true => nomatch unchecked)
      (fun e mem at_ => (harmless _ (mem_map_of_mem mem) at_).of_hide)
      (holds.of_eq (quiet.evaluates evaluated))
  | roundsNext _ _ _ ihRun ihMore =>
    exact ihMore fine (fun e mem => harmless e (mem_append_right _ mem))
      (ihRun fine (fun e mem => harmless e (mem_append_left _ mem)) holds)
  | roundsLeft _ _ ih => exact ih fine harmless holds
  | labelledWhile _ ih =>
    exact ih (fun c => (Bool.or_eq_false_iff.mp (fine c)).1) harmless holds
  | labelledFor evaluated _ ih =>
    exact ih (fun unchecked : false = true => nomatch unchecked)
      (fun e mem at_ => (harmless _ (mem_map_of_mem mem) at_).of_hide)
      (holds.of_eq (quiet.evaluates evaluated))
  | block _ _ _ ih => exact ih fine harmless holds
  | inlineBlock _ _ _ ih => exact ih fine harmless holds
  | matched selected _ _ ih =>
    exact ih (fun unchecked : false = true => nomatch unchecked)
      (fun e mem at_ => (harmless _ (mem_map_of_mem mem) at_).of_hide)
      (holds.of_eq (quiet.selects selected))
  | unmatched selected => exact holds.of_eq (quiet.selects selected)
  | returnSome run => exact holds.of_eq (quiet.evaluates run)

end Run

end LoopInvariant

/-- The loop `while i < 10` with an invariant about `i`. -/
def countingLoop (operator : TokenKind) (bound : Int) : LoopInvariant where
  consts := []
  name := ascii "i"
  operator := operator
  bound := bound
  guardCondition := .binary (.ident (ascii "i")) .lt (.intLit 10)

def updateOf (operator : TokenKind) (value : Expr) : List Stmt :=
  [.assign (.ident (ascii "i")) operator value (.atLine 3)]

def successor : Expr := .binary (.ident (ascii "i")) .plus (.intLit 1)

theorem quiet_trueMachine (d : Nat) : Quiet trueMachine d where
  computes run := run.elim
  evaluates run := by rw [run]
  decides run := by rw [run.2]
  stores run := run.elim
  selects run := run.elim

theorem holds_countingLoop {bound : Int} (low : value < 10) :
    Holds trueMachine (scopeOf value) (countingLoop operator bound).guardCondition := by
  have literal : Computes trueMachine .int64 (.intLit 10) (scopeOf value) 10 (scopeOf value) :=
    .literal
  rw [countingLoop, Holds, if_neg (by decide), if_pos (by decide)]
  exact ⟨.int64, value, 10, _, _, rfl, .ident rfl, literal, decide_eq_true low⟩

theorem exec_updateOf {value : Expr} {before x after : Int}
    (computed : Computes trueMachine .int64 value (scopeOf before) x (scopeOf before))
    (store : stored .int64 operator before x = some after) :
    Exec trueMachine (.nested [] (updateOf operator value)) (scopeOf before)
      [⟨0, operator, value, before, after, false⟩] .normal (scopeOf after) := by
  have assigned : Exec trueMachine (.one (.assign (.ident (ascii "i")) operator value (.atLine 3)))
      (scopeOf before) [⟨0, operator, value, before, after, false⟩] .normal (scopeOf after) :=
    .assign computed (show (scopeOf before).index (ascii "i") = some 0 from rfl)
      (show (scopeOf before).cell 0 = some (.int64, before) from rfl) store
  have body : Exec trueMachine (.all (updateOf operator value)) (scopeOf before) _ .normal
      (scopeOf after) := .cons assigned .nil
  have later : Exec trueMachine (.deferred (updateOf operator value)) (scopeOf after) [] .normal
      (scopeOf after) := .deferNone
  have whole : Exec trueMachine (.nested [] (updateOf operator value)) (scopeOf before) _ .normal
      (scopeOf after) := .nested body later
  exact whole

end Elisa.Semantic
