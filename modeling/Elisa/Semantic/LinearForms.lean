import Elisa.Semantic.ConstantFolding
import Mathlib.Tactic.Ring

/-!
# Linear forms of expressions

`lin_add` (`check_ensure_strict.elisa`) reads an expression as a sum of variables with coefficients
and a constant, in signed 64-bit numbers that must not overflow.  Where it succeeds the form has the
value that the expression has in the integers (`linAdd_spec`).
-/

namespace Elisa.Semantic

open Ast Lexer Option List

/-! ## Reading -/

/-- Variables with their coefficients, and a constant. -/
structure LinearForm where
  rows : List (Bytes × Int)
  konst : Int
  deriving DecidableEq

def LinearForm.zero : LinearForm := ⟨[], 0⟩

/-- Adds to the coefficient of a variable, which gets a row if it has none. -/
def addTerm (name : Bytes) (sign : Int) : List (Bytes × Int) → Option (List (Bytes × Int))
  | [] => some [(name, sign)]
  | row :: rest =>
    if row.1 = name then (linearAddSafe row.2 sign).map fun sum => (row.1, sum) :: rest
    else (addTerm name sign rest).map (row :: ·)

def literalFactor (left right : Expr) : Option (Int64 × Expr) :=
  match left with
  | .intLit value => some (value, right)
  | _ =>
    match right with
    | .intLit value => some (value, left)
    | _ => none

/-- Adds an expression with a sign.  `returned` stands for `result`; `fuel` is how much deeper the
reading may go. -/
def linAdd (fuel : Nat) (returned : Option Expr) (expression : Expr) (sign : Int)
    (form : LinearForm) : Option LinearForm :=
  match fuel with
  | 0 => none
  | fuel + 1 =>
    match expression with
    | .intLit value =>
      (linearMulSafe sign value.toInt).bind fun product =>
        (linearAddSafe form.konst product).map fun sum => { form with konst := sum }
    | .ident name =>
      match returned with
      | some value =>
        if name = ascii "result" then linAdd fuel none value sign form
        else (addTerm name sign form.rows).map fun rows => { form with rows }
      | none => (addTerm name sign form.rows).map fun rows => { form with rows }
    | .paren inner => linAdd fuel returned inner sign form
    | .unary operator operand =>
      if operator = .minus then
        (linearSubSafe 0 sign).bind fun negated => linAdd fuel returned operand negated form
      else none
    | .binary left operator right =>
      match operator with
      | .plus => (linAdd fuel returned left sign form).bind (linAdd fuel returned right sign)
      | .minus =>
        (linAdd fuel returned left sign form).bind fun form =>
          (linearSubSafe 0 sign).bind fun negated => linAdd fuel returned right negated form
      | .star =>
        (literalFactor left right).bind fun (factor, other) =>
          (linearMulSafe sign factor.toInt).bind fun product =>
            linAdd fuel returned other product form
      | _ => none
    | _ => none

/-- The levels that the reading may go down. -/
def linearDepth : Nat := 33

def linearForm (expression : Expr) : Option LinearForm :=
  linAdd linearDepth none expression 1 .zero

/-! ## Values -/

def integerValue (env : Bytes → Int) : Expr → Option Int
  | .intLit value => some value.toInt
  | .ident name => some (env name)
  | .paren inner => integerValue env inner
  | .unary operator operand =>
    if operator = .minus then (integerValue env operand).map (-·) else none
  | .binary left operator right =>
    match integerValue env left, integerValue env right with
    | some l, some r =>
      match operator with
      | .plus => some (l + r)
      | .minus => some (l - r)
      | .star => some (l * r)
      | _ => none
    | _, _ => none
  | _ => none

def sumOf (env : Bytes → Int) : List (Bytes × Int) → Int
  | [] => 0
  | row :: rest => row.2 * env row.1 + sumOf env rest

def LinearForm.value (env : Bytes → Int) (form : LinearForm) : Int :=
  sumOf env form.rows + form.konst

variable {env : Bytes → Int} {form form' : LinearForm} {left right : Int}

theorem linearAddSafe_eq {sum : Int} (known : linearAddSafe left right = some sum) :
    left + right = sum := by
  rw [linearAddSafe] at known
  split at known
  · cases known
  · exact Option.some.inj known

theorem linearSubSafe_eq {difference : Int} (known : linearSubSafe left right = some difference) :
    left - right = difference := by
  rw [linearSubSafe] at known
  split at known
  · cases known
  · exact Option.some.inj known

theorem linearMulSafe_eq {product : Int} (known : linearMulSafe left right = some product) :
    left * right = product := by
  rw [linearMulSafe] at known
  split at known
  · cases known
  · exact Option.some.inj known

variable {sign : Int} {rows' : List (Bytes × Int)} {name : Bytes} {rows : List (Bytes × Int)}

theorem addTerm_sum (added : addTerm name sign rows = some rows') :
    sumOf env rows' = sumOf env rows + sign * env name := by
  induction rows generalizing rows' with
  | nil =>
    obtain rfl := Option.some.inj added
    simp [sumOf]
  | cons row rest ih =>
    rw [addTerm] at added
    split at added
    next here =>
      obtain ⟨sum, known, rfl⟩ := map_eq_some_iff.mp added
      rw [sumOf, sumOf, ← linearAddSafe_eq known, here]
      ring
    obtain ⟨rows, later, rfl⟩ := map_eq_some_iff.mp added
    rw [sumOf, sumOf, ih later]
    ring

theorem addTerm_value
    (added : ((addTerm name sign form.rows).map fun rows => { form with rows }) = some form') :
    form'.value env = form.value env + sign * env name := by
  obtain ⟨rows, known, rfl⟩ := map_eq_some_iff.mp added
  rw [LinearForm.value, LinearForm.value, addTerm_sum known]
  ring

theorem literalFactor_value {left right other : Expr} {factor : Int64} {value : Int}
    (literal : literalFactor left right = some (factor, other))
    (known : integerValue env other = some value) :
    integerValue env (.binary left .star right) = some (factor.toInt * value) := by
  unfold literalFactor at literal
  split at literal
  next =>
    cases literal
    rw [integerValue, known]
    rfl
  split at literal
  next =>
    cases literal
    rw [integerValue, known, Int.mul_comm]
    rfl
  next => cases literal

variable {expression : Expr}

/-! ## Coefficients -/

/-- The coefficient of a variable: of several rows the last one counts. -/
def LinearForm.selfCoeff (form : LinearForm) (name : Bytes) : Int :=
  form.rows.foldl (fun coefficient row => if row.1 = name then row.2 else coefficient) 0

def LinearForm.otherVars (form : LinearForm) (name : Bytes) : Bool :=
  form.rows.any fun row => row.1 ≠ name ∧ row.2 ≠ 0

def LinearForm.Unique (form : LinearForm) : Prop := (form.rows.map Prod.fst).Nodup

theorem addTerm_mem {other : Bytes} (added : addTerm name sign rows = some rows')
    (mem : other ∈ rows'.map Prod.fst) : other = name ∨ other ∈ rows.map Prod.fst := by
  induction rows generalizing rows' with
  | nil =>
    obtain rfl := Option.some.inj added
    exact .inl (mem_singleton.mp mem)
  | cons row rest ih =>
    rw [addTerm] at added
    split at added
    next =>
      obtain ⟨sum, -, rfl⟩ := map_eq_some_iff.mp added
      exact .inr mem
    obtain ⟨rows, later, rfl⟩ := map_eq_some_iff.mp added
    rcases mem_cons.mp mem with rfl | there
    · exact .inr mem_cons_self
    · exact (ih later there).imp_right (mem_cons_of_mem _)

theorem addTerm_nodup (added : addTerm name sign rows = some rows')
    (nodup : (rows.map Prod.fst).Nodup) : (rows'.map Prod.fst).Nodup := by
  induction rows generalizing rows' with
  | nil =>
    obtain rfl := Option.some.inj added
    exact pairwise_singleton _ name
  | cons row rest ih =>
    rw [addTerm] at added
    split at added
    next =>
      obtain ⟨sum, -, rfl⟩ := map_eq_some_iff.mp added
      exact nodup
    rename_i other
    obtain ⟨rows, later, rfl⟩ := map_eq_some_iff.mp added
    have ⟨fresh, rest_⟩ := nodup_cons.mp nodup
    refine nodup_cons.mpr ⟨fun mem => ?_, ih later rest_⟩
    exact (addTerm_mem later mem).elim other fresh

theorem linAdd_spec {fuel : Nat} (read : linAdd fuel none expression sign form = some form') :
    (form.Unique → form'.Unique) ∧ ∃ value, integerValue env expression = some value ∧
      form'.value env = form.value env + sign * value := by
  induction fuel generalizing expression sign form form' with
  | zero => cases read
  | succ fuel ih =>
    cases expression with
    | intLit value =>
      rw [linAdd] at read
      obtain ⟨product, multiplied, read⟩ := bind_eq_some_iff.mp read
      obtain ⟨sum, added, rfl⟩ := map_eq_some_iff.mp read
      refine ⟨id, value.toInt, rfl, ?_⟩
      rw [LinearForm.value, LinearForm.value, ← linearAddSafe_eq added, linearMulSafe_eq multiplied]
      ring
    | ident name =>
      refine ⟨fun unique => ?_, env name, rfl, addTerm_value read⟩
      obtain ⟨rows, known, rfl⟩ := map_eq_some_iff.mp read
      exact addTerm_nodup known unique
    | paren inner =>
      have step : linAdd fuel none inner sign form = some form' := read
      have inside := ih step
      exact inside
    | unary operator operand =>
      rw [linAdd] at read
      split at read
      next minus =>
        obtain ⟨negated, known, read⟩ := bind_eq_some_iff.mp read
        obtain ⟨unique, value, is, grown⟩ := ih read
        refine ⟨unique, -value, by rw [integerValue, if_pos minus, is]; rfl, ?_⟩
        rw [grown, ← linearSubSafe_eq known]
        ring
      next => cases read
    | binary left operator right =>
      cases operator with
      | plus =>
        rw [linAdd] at read
        obtain ⟨middle, first, second⟩ := bind_eq_some_iff.mp read
        obtain ⟨uniqueX, x, isX, grownX⟩ := ih first
        obtain ⟨uniqueY, y, isY, grownY⟩ := ih second
        refine ⟨uniqueY ∘ uniqueX, x + y, by rw [integerValue, isX, isY], ?_⟩
        rw [grownY, grownX]
        ring
      | minus =>
        rw [linAdd] at read
        obtain ⟨middle, first, read⟩ := bind_eq_some_iff.mp read
        obtain ⟨negated, known, second⟩ := bind_eq_some_iff.mp read
        obtain ⟨uniqueX, x, isX, grownX⟩ := ih first
        obtain ⟨uniqueY, y, isY, grownY⟩ := ih second
        refine ⟨uniqueY ∘ uniqueX, x - y, by rw [integerValue, isX, isY], ?_⟩
        rw [grownY, grownX, ← linearSubSafe_eq known]
        ring
      | star =>
        rw [linAdd] at read
        obtain ⟨⟨factor, other⟩, literal, read⟩ := bind_eq_some_iff.mp read
        obtain ⟨product, multiplied, read⟩ := bind_eq_some_iff.mp read
        obtain ⟨unique, value, is, grown⟩ := ih read
        refine ⟨unique, _, literalFactor_value literal is, ?_⟩
        rw [grown, ← linearMulSafe_eq multiplied]
        ring
      | _ => cases read
    | _ => cases read

theorem linearForm_spec (read : linearForm expression = some form) :
    form.Unique ∧ integerValue env expression = some (form.value env) := by
  obtain ⟨unique, value, is, grown⟩ : (LinearForm.zero.Unique → form.Unique) ∧
      ∃ value, integerValue env expression = some value ∧
        form.value env = LinearForm.zero.value env + 1 * value := linAdd_spec read
  refine ⟨unique nodup_nil, ?_⟩
  rw [is, grown, LinearForm.zero, LinearForm.value, sumOf]
  simp

theorem selfCoeff_start {start : Int} (absent : name ∉ rows.map Prod.fst) :
    rows.foldl (fun coefficient row => if row.1 = name then row.2 else coefficient) start =
      start := by
  induction rows generalizing start with
  | nil => rfl
  | cons row rest ih =>
    rw [map_cons, mem_cons, not_or] at absent
    rw [foldl_cons, if_neg (Ne.symm absent.1), ih absent.2]

theorem sumOf_self (nodup : (rows.map Prod.fst).Nodup)
    (alone : ∀ row ∈ rows, row.1 ≠ name → row.2 = 0) :
    sumOf env rows = rows.foldl
      (fun coefficient row => if row.1 = name then row.2 else coefficient) 0 * env name := by
  induction rows with
  | nil => rw [sumOf, foldl_nil, Int.zero_mul]
  | cons row rest ih =>
    have ⟨fresh, rest_⟩ := nodup_cons.mp nodup
    have later := ih rest_ fun row mem => alone row (mem_cons_of_mem _ mem)
    rw [sumOf, foldl_cons]
    split
    next here =>
      subst here
      rw [selfCoeff_start fresh] at later ⊢
      rw [later, Int.zero_mul, Int.add_zero]
    next other =>
      rw [alone row mem_cons_self other, later, Int.zero_mul, Int.zero_add]

theorem linearForm_self (read : linearForm expression = some form)
    (alone : form.otherVars name = false) :
    integerValue env expression = some (form.selfCoeff name * env name + form.konst) := by
  obtain ⟨unique, value⟩ := linearForm_spec read
  rw [value, LinearForm.value, sumOf_self unique]
  · rfl
  · intro row mem other
    have := any_eq_false.mp alone row mem
    simpa [other] using this

end Elisa.Semantic
