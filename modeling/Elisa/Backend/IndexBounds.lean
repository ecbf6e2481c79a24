import Mathlib.Data.Nat.Bitwise

/-!
# Paired index bounds

`llvm_index_bounds.cpp`.  A chain of four comparisons asks whether one of two indices is negative or
not below a bound.  Its conditions are trees of disjunctions, in one block or in two, and the pass
replaces them by two unsigned comparisons with a bound that is never poison and never negative.

The value of a tree, where it has one, is that of the short-circuit chain of its leaves
(`leaves_scan`), so what matters of the bound is its value where neither index is negative
(`validated_scan`).  The rewritten branch goes where the chain has gone, and the exit block receives
the same values (`validatedIndexBounds_refines`).
-/

namespace Elisa.Backend.IndexBounds

open Option

/-! ## Values -/

inductive Predicate where
  | eq | ne | ugt | uge | ult | ule | sgt | sge | slt | sle
  deriving DecidableEq

/-- A value with the instructions that the pass looks at.  The numbers tell instructions apart. -/
inductive Value where
  | other (id : Nat) (width : Option Nat) (isInstruction : Bool)
  | constantInt (width value : Nat)
  | icmp (id : Nat) (predicate : Predicate) (left right : Value) (hasMetadata : Bool)
  | select (id : Nat) (width : Option Nat) (condition trueValue falseValue : Value)
  | or (id : Nat) (width : Option Nat) (left right : Value)
  | and (id : Nat) (left right : Value)
  | freeze (id : Nat) (value : Value)
  deriving DecidableEq

namespace Value

def width : Value → Option Nat
  | other _ width _ | select _ width _ _ _ | or _ width _ _ => width
  | constantInt width _ => some width
  | icmp .. => some 1
  | and _ left _ => left.width
  | freeze _ value => value.width

def isInstruction : Value → Bool
  | other _ _ isInstruction => isInstruction
  | constantInt .. => false
  | _ => true

end Value

structure ICmpInst where
  id : Nat
  predicate : Predicate
  left : Value
  right : Value
  hasMetadata : Bool

def Predicate.holds (predicate : Predicate) (width left right : Nat) : Bool :=
  let x := BitVec.ofNat width left
  let y := BitVec.ofNat width right
  match predicate with
  | .eq => x == y
  | .ne => x != y
  | .ugt => y.ult x
  | .uge => y.ule x
  | .ult => x.ult y
  | .ule => x.ule y
  | .sgt => y.slt x
  | .sge => y.sle x
  | .slt => x.slt y
  | .sle => x.sle y

/-- The values of what the pass does not look into, and those that poison is frozen to. -/
structure Env where
  value : Nat → Option Nat
  frozen : Nat → Nat

/-- A value, or nothing where it is poison. -/
def Value.eval (env : Env) : Value → Option Nat
  | other id _ _ => env.value id
  | constantInt _ value => some value
  | icmp id predicate left right _ =>
    match left.width with
    | none => env.value id
    | some width => do
      let x ← left.eval env
      let y ← right.eval env
      some (predicate.holds width x y).toNat
  | select _ _ condition trueValue falseValue => do
    if (← condition.eval env) ≠ 0 then trueValue.eval env else falseValue.eval env
  | or _ _ left right => do
    let x ← left.eval env
    let y ← right.eval env
    some (x ||| y)
  | and _ left right => do
    let x ← left.eval env
    let y ← right.eval env
    some (x &&& y)
  | freeze id value => some ((value.eval env).getD (env.frozen id))

/-! ## Functions -/

structure Instruction where
  value : Value
  isDebug : Bool := false
  hasMetadata : Bool := false
  /-- The blocks of the users, if these are instructions. -/
  users : List (Option Nat)

structure Phi where
  incoming : List (Nat × Value)

inductive Terminator where
  | condBr (condition : Value) (onTrue onFalse : Nat) (hasMetadata : Bool)
  | other (successors : List Nat)

structure Block where
  id : Nat
  isEHPad : Bool := false
  phis : List Phi := []
  instructions : List Instruction := []
  terminator : Terminator

structure Function where
  isDeclaration : Bool := false
  hasOptNone : Bool := false
  hasOptSize : Bool := false
  hasMinSize : Bool := false
  sanitized : Bool := false
  instructionCount : Nat
  blocks : List Block
  nextId : Nat

def Phi.incomingFrom (phi : Phi) (block : Nat) : Option Value :=
  (phi.incoming.find? (·.1 == block)).map Prod.snd

def Terminator.successors : Terminator → List Nat
  | condBr _ onTrue onFalse _ => [onTrue, onFalse]
  | other successors => successors

namespace Function

def block? (function : Function) (id : Nat) : Option Block :=
  function.blocks.find? (·.id == id)

def singlePredecessor (function : Function) (id : Nat) : Option Nat :=
  match function.blocks.flatMap fun block =>
    (block.terminator.successors.filter (· == id)).map fun _ => block.id with
  | [block] => some block
  | _ => none

end Function

/-! ## The pass -/

/-- What the analyses say of a range: its least signed value is a bound of all of them. -/
structure ConstantRange where
  contains : Int → Prop
  signedMin : Int
  signedMin_le : ∀ {value}, contains value → signedMin ≤ value
  isEmptySet : Bool
  isFullSet : Bool
  isWrappedSet : Bool
  isSingleElement : Bool

/-- The analyses, at the terminator of a block. -/
structure Analyses where
  dominates : Value → Nat → Bool
  constantRange : Value → Nat → ConstantRange
  isGuaranteedNotToBeUndefOrPoison : Value → Nat → Bool

/-- The comparisons of a tree of disjunctions behind those that are there, with a bound on its
depth. -/
def leaves : Nat → Value → List ICmpInst → Option (List ICmpInst)
  | 0, _, _ => none
  | depth + 1, value, out =>
    if out.length > 4 then none
    else match value with
      | .icmp id predicate left right hasMetadata =>
        some (out ++ [⟨id, predicate, left, right, hasMetadata⟩])
      | .select _ (some 1) condition (.constantInt _ 1) falseValue =>
        (leaves depth condition out).bind (leaves depth falseValue)
      | .or _ (some 1) left right => (leaves depth left out).bind (leaves depth right)
      | _ => none

def negative (comparison : ICmpInst) : Option Value :=
  match comparison.predicate, comparison.right with
  | .slt, .constantInt _ 0 => some comparison.left
  | _, _ => none

def dominates (analyses : Analyses) (value : Value) (block : Nat) : Bool :=
  !value.isInstruction || analyses.dominates value block

def isBoundCheck (comparison : ICmpInst) (bound : Value) : Bool :=
  comparison.right == bound && (comparison.predicate == .sge || comparison.predicate == .uge)

/-- The two indices and the bound. -/
def matched : List ICmpInst → Option (Value × Value × Value)
  | [c₀, c₁, c₂, c₃] => do
    guard ([c₀, c₁, c₂, c₃].all (!·.hasMetadata))
    let a ← negative c₀
    let b ← negative c₁
    let width ← a.width
    guard (a ≠ b ∧ b.width = some width ∧ 2 ≤ width ∧ width ≤ 128)
    let bound := c₂.right
    guard (bound.width = some width ∧ isBoundCheck c₂ bound ∧ isBoundCheck c₃ bound)
    guard (c₂.left = a ∧ c₃.left = b ∨ c₂.left = b ∧ c₃.left = a)
    some (a, b, bound)
  | _ => none

def Instruction.isPure (instruction : Instruction) : Bool :=
  match instruction.value with
  | .icmp .. | .select .. => true
  | .or _ width _ _ => width == some 1
  | _ => false

def mergeable (function : Function) (first second exit next : Block) : Bool :=
  [first.id, second.id, exit.id, next.id].Nodup && !second.isEHPad && !exit.isEHPad &&
    !next.isEHPad && function.singlePredecessor second.id == some first.id && next.phis.isEmpty &&
    exit.phis.all (fun phi => (phi.incomingFrom first.id).isSome &&
      phi.incomingFrom first.id == phi.incomingFrom second.id) &&
    second.instructions.all fun instruction => instruction.isDebug ||
      instruction.isPure && !instruction.hasMetadata &&
        instruction.users.all (· == some second.id)

def boundIsNonnegative (analyses : Analyses) (bound : Value) (block : Nat) : Bool :=
  let range := analyses.constantRange bound block
  !range.isEmptySet && !range.isFullSet && !range.isWrappedSet && decide (0 ≤ range.signedMin) &&
    (!range.isSingleElement || analyses.isGuaranteedNotToBeUndefOrPoison bound block)

def Block.condBr? (block : Block) : Option (Value × Nat × Nat) :=
  match block.terminator with
  | .condBr condition onTrue onFalse false => some (condition, onTrue, onFalse)
  | _ => none

/-- A branch to rewrite: the block, the second block of the chain, and where the chain leads. -/
structure Rewrite where
  block : Nat
  second : Option Nat
  exit : Nat
  next : Nat
  a : Value
  b : Value
  bound : Value

def Function.chainLeaves (function : Function) (first : Block) :
    Option (List ICmpInst × Option Nat × Nat × Nat) := do
  let (condition, exit, onFalse) ← first.condBr?
  let comparisons ← leaves 7 condition []
  if comparisons.length = 2 then
    let second ← function.block? onFalse
    let (condition', exit', next) ← second.condBr?
    guard (exit' = exit)
    guard (mergeable function first second (← function.block? exit) (← function.block? next))
    some (← leaves 7 condition' comparisons, some onFalse, exit, next)
  else some (comparisons, none, exit, onFalse)

def Function.rewriteAt (analyses : Analyses) (function : Function) (id : Nat) : Option Rewrite := do
  let first ← function.block? id
  let (comparisons, second, exit, next) ← function.chainLeaves first
  let (a, b, bound) ← matched comparisons
  guard (dominates analyses a id && dominates analyses b id && dominates analyses bound id)
  guard (boundIsNonnegative analyses bound id)
  some { block := id, second, exit, next, a, b, bound }

/-- The bound with poison frozen and the sign masked out. -/
def safeBound (id : Nat) (bound : Value) : Value :=
  let width := bound.width.getD 0
  .and (id + 1) (.freeze id bound) (.constantInt width (2 ^ (width - 1) - 1))

def validated (id : Nat) (a b bound : Value) : Value :=
  .select (id + 4) (some 1) (.icmp (id + 2) .uge a (safeBound id bound) false) (.constantInt 1 1)
    (.icmp (id + 3) .uge b (safeBound id bound) false)

def inserted (id block : Nat) (a b bound : Value) : List Instruction :=
  [.freeze id bound, safeBound id bound, .icmp (id + 2) .uge a (safeBound id bound) false,
    .icmp (id + 3) .uge b (safeBound id bound) false, validated id a b bound].map
      ({ value := ·, users := [some block] })

def Block.rewrite (id : Nat) (rewrite : Rewrite) (block : Block) : Block :=
  if block.id = rewrite.block then { block with
    instructions := block.instructions ++
      inserted id rewrite.block rewrite.a rewrite.b rewrite.bound
    terminator := .condBr (validated id rewrite.a rewrite.b rewrite.bound) rewrite.exit rewrite.next
      false }
  else block

def Function.rewrite (function : Function) (rewrite : Rewrite) : Function :=
  { function with
    blocks := function.blocks.map (Block.rewrite function.nextId rewrite)
    nextId := function.nextId + 5 }

def Function.validatedIndexBounds (analyses : Analyses) (function : Function) : Option Rewrite :=
  if function.isDeclaration || function.hasOptNone || function.hasOptSize || function.hasMinSize ||
      function.sanitized || function.instructionCount > 2500 then none
  else function.blocks.findSome? fun block => function.rewriteAt analyses block.id

/-! ## Runs -/

namespace Function

variable (function : Function) (env : Env)

/-- Where the branch of a block goes; poison is undefined behaviour. -/
def branch (id : Nat) : Option Nat := do
  match (← function.block? id).terminator with
  | .condBr condition onTrue onFalse _ =>
    some (if (← condition.eval env) ≠ 0 then onTrue else onFalse)
  | .other _ => none

/-- The edge by which a chain of one or two blocks is left. -/
def chain (first : Nat) (second : Option Nat) : Option (Nat × Nat) := do
  let target ← function.branch env first
  if some target = second then some (target, ← function.branch env target)
  else some (first, target)

def phiValues (edge : Nat × Nat) : Option (List (Option (Option Nat))) :=
  (function.block? edge.2).map fun block =>
    block.phis.map fun phi => (phi.incomingFrom edge.1).map (·.eval env)

end Function

/-! ## Chains of comparisons -/

/-- A chain of logical disjunctions: nothing behind the first that holds is looked at. -/
def scan : List (Option Bool) → Option Bool
  | [] => some false
  | some true :: _ => some true
  | some false :: rest => scan rest
  | none :: _ => none

theorem scan_append (first second : List (Option Bool)) :
    scan (first ++ second) =
      (scan first).bind fun found => if found then some true else scan second := by
  induction first with
  | nil => rfl
  | cons value rest ih =>
    cases value with
    | none => rfl
    | some value =>
      cases value with
      | true => rfl
      | false => exact ih

/-- Whether a condition holds, if it is not poison. -/
def truth (value : Option Nat) : Option Bool := value.map (· ≠ 0)

theorem scan_pair (first second : Option Bool) :
    scan [first, second] = first.bind fun holds => if holds then some true else second := by
  rcases first with - | - | - <;> rcases second with - | - | - <;> rfl

section Leaves

variable {env : Env}

theorem truth_select {id number : Nat} {width : Option Nat} {condition value : Value} :
    truth ((Value.select id width condition (.constantInt number 1) value).eval env) =
      (truth (condition.eval env)).bind fun holds =>
        if holds then some true else truth (value.eval env) := by
  rw [Value.eval]
  cases condition.eval env with
  | none => rfl
  | some first =>
    cases first with
    | zero => rfl
    | succ _ => rfl

theorem truth_or {id : Nat} {width : Option Nat} {left right : Value} {holds : Bool}
    (worth : truth ((Value.or id width left right).eval env) = some holds) :
    (truth (left.eval env)).bind
      (fun first => if first then some true else truth (right.eval env)) = some holds := by
  obtain ⟨result, known, rfl⟩ := map_eq_some_iff.mp worth
  obtain ⟨first, known', rest⟩ := bind_eq_some_iff.mp known
  obtain ⟨second, known'', rest'⟩ := bind_eq_some_iff.mp rest
  obtain rfl := some.inj rest'
  cases first <;> simp [known', known'', truth, Nat.or_eq_zero_iff]

def ICmpInst.holds (env : Env) (comparison : ICmpInst) : Option Bool :=
  truth ((Value.icmp comparison.id comparison.predicate comparison.left comparison.right
    comparison.hasMetadata).eval env)

/-- The values of the leaves decide a tree of disjunctions no later than the tree itself. -/
theorem leaves_scan (env : Env) {depth : Nat} {value : Value} {out found : List ICmpInst}
    (collected : leaves depth value out = some found) : ∃ added, found = out ++ added ∧
      ∀ {holds}, truth (value.eval env) = some holds →
        scan (added.map (ICmpInst.holds env)) = some holds := by
  induction depth generalizing value out found with
  | zero => cases collected
  | succ depth ih =>
    have both {left right : Value}
        (collected : (leaves depth left out).bind (leaves depth right) = some found)
        (parts : ∀ {holds}, truth (value.eval env) = some holds → (truth (left.eval env)).bind
          (fun first => if first then some true else truth (right.eval env)) = some holds) :
        ∃ added, found = out ++ added ∧ ∀ {holds}, truth (value.eval env) = some holds →
          scan (added.map (ICmpInst.holds env)) = some holds := by
      obtain ⟨middle, first, second⟩ := bind_eq_some_iff.mp collected
      obtain ⟨added, rfl, decides⟩ := ih first
      obtain ⟨others, rfl, decides'⟩ := ih second
      refine ⟨added ++ others, List.append_assoc .., fun worth => ?_⟩
      obtain ⟨holds, known, rest⟩ := bind_eq_some_iff.mp (parts worth)
      rw [List.map_append, scan_append, decides known]
      cases holds with
      | true => exact rest
      | false => exact decides' rest
    unfold leaves at collected
    split at collected
    · cases collected
    split at collected
    · obtain rfl := some.inj collected
      refine ⟨_, rfl, fun {holds} worth => ?_⟩
      rw [List.map_singleton, ICmpInst.holds, worth]
      cases holds <;> rfl
    · exact both collected fun worth => truth_select.symm.trans worth
    · exact both collected truth_or
    · cases collected

end Leaves

/-! ## The comparisons -/

section Comparisons

variable {width x y : Nat}

theorem holds_slt_zero :
    Predicate.slt.holds width x 0 = decide (2 ^ (width - 1) ≤ x % 2 ^ width) := by
  rw [Predicate.holds, BitVec.slt_zero_eq_msb, BitVec.msb_eq_decide, BitVec.toNat_ofNat]

theorem holds_uge : Predicate.uge.holds width x y = decide (y % 2 ^ width ≤ x % 2 ^ width) := by
  rw [Predicate.holds, BitVec.ule_eq_decide, BitVec.toNat_ofNat, BitVec.toNat_ofNat]

theorem lt_of_nonneg (nonneg : 0 ≤ (BitVec.ofNat width x).toInt) :
    x % 2 ^ width < 2 ^ (width - 1) := by
  refine Nat.not_le.mp fun negative => ?_
  have below : (BitVec.ofNat width x).slt 0 = true := holds_slt_zero.trans (decide_eq_true negative)
  rw [BitVec.slt_iff_toInt_lt] at below
  simp at below
  omega

theorem msb_of_lt (small : x % 2 ^ width < 2 ^ (width - 1)) :
    (BitVec.ofNat width x).msb = false := by
  rw [BitVec.msb_eq_decide, BitVec.toNat_ofNat]
  exact decide_eq_false (Nat.not_le.mpr small)

theorem holds_sge (left : x % 2 ^ width < 2 ^ (width - 1))
    (right : y % 2 ^ width < 2 ^ (width - 1)) :
    Predicate.sge.holds width x y = decide (y % 2 ^ width ≤ x % 2 ^ width) := by
  rw [← holds_uge, Predicate.holds, Predicate.holds]
  exact BitVec.sle_eq_ule_of_msb_eq ((msb_of_lt right).trans (msb_of_lt left).symm)

variable {env : Env} {comparison : ICmpInst} {a b bound index : Value}

theorem truth_toNat (holds : Bool) : truth (some holds.toNat) = some holds := by
  cases holds <;> rfl

theorem icmp_holds {id : Nat} {hasMetadata : Bool} {predicate : Predicate} {left right : Value}
    (isInt : left.width = some width) :
    truth ((Value.icmp id predicate left right hasMetadata).eval env) =
      (left.eval env).bind fun x => (right.eval env).map fun y => predicate.holds width x y := by
  rw [Value.eval, isInt]
  cases left.eval env with
  | none => rfl
  | some x =>
    cases right.eval env with
    | none => rfl
    | some y => exact truth_toNat _

theorem negative_holds (found : negative comparison = some a) (isInt : a.width = some width) :
    comparison.holds env = (a.eval env).map fun x => decide (2 ^ (width - 1) ≤ x % 2 ^ width) := by
  unfold negative at found
  split at found
  next slt zero =>
    obtain rfl := some.inj found
    rw [ICmpInst.holds, icmp_holds isInt, slt, zero, Value.eval]
    cases comparison.left.eval env with
    | none => rfl
    | some x => exact congrArg some holds_slt_zero
  next => cases found

theorem eval_safeBound (env : Env) (id : Nat) (isInt : bound.width = some width) :
    ∃ safe, (safeBound id bound).eval env = some safe ∧ safe < 2 ^ (width - 1) ∧
      ∀ n, bound.eval env = some n → n % 2 ^ width < 2 ^ (width - 1) →
        safe = n % 2 ^ width := by
  refine ⟨(bound.eval env).getD (env.frozen id) % 2 ^ (width - 1), ?_,
    Nat.mod_lt _ (Nat.two_pow_pos _), fun n known small => ?_⟩
  · rw [safeBound, isInt, Value.eval, Value.eval, Value.eval]
    exact congrArg some (Nat.and_two_pow_sub_one_eq_mod _ _)
  · have divides : 2 ^ (width - 1) ∣ 2 ^ width := Nat.pow_dvd_pow 2 (Nat.sub_le _ _)
    rw [known, getD_some, ← Nat.mod_mod_of_dvd n divides, Nat.mod_eq_of_lt small]

theorem eval_validated {id safe : Nat} (aInt : a.width = some width) (bInt : b.width = some width)
    (known : (safeBound id bound).eval env = some safe) (small : safe < 2 ^ (width - 1)) :
    truth ((validated id a b bound).eval env) =
      scan [(a.eval env).map fun x => decide (safe ≤ x % 2 ^ width),
        (b.eval env).map fun y => decide (safe ≤ y % 2 ^ width)] := by
  have fits : safe % 2 ^ width = safe :=
    Nat.mod_eq_of_lt (small.trans_le (Nat.pow_le_pow_right Nat.two_pos (Nat.sub_le _ _)))
  have check {number : Nat} {index : Value} (isInt : index.width = some width) :
      truth ((Value.icmp number .uge index (safeBound id bound) false).eval env) =
        (index.eval env).map fun x => decide (safe ≤ x % 2 ^ width) := by
    rw [icmp_holds isInt, known]
    cases index.eval env with
    | none => rfl
    | some x => exact congrArg some (holds_uge.trans (by rw [fits]))
  rw [validated, truth_select, check aInt, check bInt, scan_pair]

theorem bound_holds (check : isBoundCheck comparison bound = true) (left : comparison.left = index)
    (isInt : index.width = some width) {x : Nat} (known : index.eval env = some x)
    (natural : x % 2 ^ width < 2 ^ (width - 1))
    (range : ∀ n, bound.eval env = some n → n % 2 ^ width < 2 ^ (width - 1)) :
    comparison.holds env =
      (bound.eval env).map fun n => decide (n % 2 ^ width ≤ x % 2 ^ width) := by
  obtain ⟨same, either⟩ := Bool.and_eq_true_iff.mp check
  rw [ICmpInst.holds, icmp_holds (left ▸ isInt), left, known, beq_iff_eq.mp same, bind_some]
  cases worth : bound.eval env with
  | none => rfl
  | some n =>
    refine congrArg some ?_
    rcases Bool.or_eq_true_iff.mp either with signed | unsigned
    · rw [beq_iff_eq.mp signed]
      exact holds_sge natural (range n worth)
    · rw [beq_iff_eq.mp unsigned]
      exact holds_uge

/-- What the chain decides, the two comparisons decide. -/
theorem validated_scan {id : Nat} {c₀ c₁ c₂ c₃ : ICmpInst} {holds : Bool}
    (first : negative c₀ = some a) (second : negative c₁ = some b)
    (checks : isBoundCheck c₂ bound = true ∧ isBoundCheck c₃ bound = true)
    (order : c₂.left = a ∧ c₃.left = b ∨ c₂.left = b ∧ c₃.left = a)
    (aInt : a.width = some width) (bInt : b.width = some width)
    (boundInt : bound.width = some width)
    (range : ∀ n, bound.eval env = some n → n % 2 ^ width < 2 ^ (width - 1))
    (decided : scan ([c₀, c₁, c₂, c₃].map (ICmpInst.holds env)) = some holds) :
    truth ((validated id a b bound).eval env) = some holds := by
  obtain ⟨safe, known, small, exact_⟩ := eval_safeBound env id boundInt
  rw [eval_validated aInt bInt known small]
  simp only [List.map_cons, List.map_nil, negative_holds first aInt, negative_holds second bInt]
    at decided
  cases aWorth : a.eval env with
  | none => simp [aWorth, scan] at decided
  | some x =>
    simp only [aWorth, map_some] at decided ⊢
    rcases Nat.lt_or_ge (x % 2 ^ width) (2 ^ (width - 1)) with xNatural | xNegative
    · rw [decide_eq_false (Nat.not_le.mpr xNatural)] at decided
      cases bWorth : b.eval env with
      | none => simp [bWorth, scan] at decided
      | some y =>
        simp only [bWorth, map_some] at decided ⊢
        rcases Nat.lt_or_ge (y % 2 ^ width) (2 ^ (width - 1)) with yNatural | yNegative
        · rw [decide_eq_false (Nat.not_le.mpr yNatural)] at decided
          have aCheck {c : ICmpInst} (check : isBoundCheck c bound = true) (left : c.left = a) :=
            bound_holds check left aInt aWorth xNatural range
          have bCheck {c : ICmpInst} (check : isBoundCheck c bound = true) (left : c.left = b) :=
            bound_holds check left bInt bWorth yNatural range
          cases worth : bound.eval env with
          | none =>
            rcases order with ⟨left, -⟩ | ⟨left, -⟩
            · simp [scan, aCheck checks.1 left, worth] at decided
            · simp [scan, bCheck checks.1 left, worth] at decided
          | some n =>
            rw [exact_ n worth (range n worth)]
            rcases order with ⟨left, right⟩ | ⟨left, right⟩
            · simpa [scan, aCheck checks.1 left, bCheck checks.2 right, worth] using decided
            · rw [bCheck checks.1 left, aCheck checks.2 right, worth, map_some,
                map_some] at decided
              rw [← decided]
              cases decide (n % 2 ^ width ≤ x % 2 ^ width) <;>
                cases decide (n % 2 ^ width ≤ y % 2 ^ width) <;> rfl
        · rw [decide_eq_true yNegative] at decided
          rw [decide_eq_true (small.le.trans yNegative)]
          cases decide (safe ≤ x % 2 ^ width) <;> exact decided
    · rw [decide_eq_true xNegative] at decided
      rw [decide_eq_true (small.le.trans xNegative)]
      exact decided

/-- What the comparisons of a chain are, and that the two which replace them decide as they do. -/
theorem matched_scan {id : Nat} {comparisons : List ICmpInst} {holds : Bool}
    (found : matched comparisons = some (a, b, bound))
    (range : ∀ n width, bound.eval env = some n → bound.width = some width →
      n % 2 ^ width < 2 ^ (width - 1))
    (decided : scan (comparisons.map (ICmpInst.holds env)) = some holds) :
    truth ((validated id a b bound).eval env) = some holds := by
  unfold matched at found
  split at found
  next c₀ c₁ c₂ c₃ =>
    obtain ⟨_, -, found⟩ := bind_eq_some_iff.mp found
    obtain ⟨a', first, found⟩ := bind_eq_some_iff.mp found
    obtain ⟨b', second, found⟩ := bind_eq_some_iff.mp found
    obtain ⟨width, aInt, found⟩ := bind_eq_some_iff.mp found
    obtain ⟨_, indices, found⟩ := bind_eq_some_iff.mp found
    obtain ⟨_, checks, found⟩ := bind_eq_some_iff.mp found
    obtain ⟨_, order, found⟩ := bind_eq_some_iff.mp found
    cases found
    obtain ⟨-, bInt, -⟩ := (guard_eq_some' _).mp indices
    obtain ⟨boundInt, checks⟩ := (guard_eq_some' _).mp checks
    exact validated_scan first second checks ((guard_eq_some' _).mp order) aInt bInt boundInt
      (fun n worth => range n width worth boundInt) decided
  next => cases found

end Comparisons

/-! ## The rewritten branch -/

section Branches

variable {function : Function} {env : Env} {block first : Block} {id : Nat}

theorem block?_id (here : function.block? id = some block) : block.id = id := by
  have := List.find?_some here
  exact beq_iff_eq.mp this

theorem branch_eq {condition : Value} {onTrue onFalse : Nat}
    (here : function.block? id = some block)
    (ends : block.condBr? = some (condition, onTrue, onFalse)) :
    function.branch env id =
      (truth (condition.eval env)).map fun holds => if holds then onTrue else onFalse := by
  unfold Block.condBr? at ends
  split at ends
  next terminator =>
    cases ends
    rw [Function.branch, here]
    simp only [bind_eq_bind, bind_some, terminator]
    cases condition.eval env with
    | none => rfl
    | some value => cases value <;> rfl
  next => cases ends

theorem branch_some {condition : Value} {onTrue onFalse target : Nat}
    (here : function.block? id = some block)
    (ends : block.condBr? = some (condition, onTrue, onFalse))
    (goes : function.branch env id = some target) :
    ∃ holds, truth (condition.eval env) = some holds ∧
      target = if holds then onTrue else onFalse := by
  rw [branch_eq here ends] at goes
  obtain ⟨holds, worth, same⟩ := map_eq_some_iff.mp goes
  exact ⟨holds, worth, same.symm⟩

theorem mergeable_spec {second exit next : Block}
    (merges : mergeable function first second exit next = true) :
    second.id ≠ exit.id ∧
      (∀ phi ∈ exit.phis, phi.incomingFrom first.id = phi.incomingFrom second.id) ∧
      next.phis = [] := by
  simp only [mergeable, Bool.and_eq_true, decide_eq_true_iff] at merges
  obtain ⟨⟨⟨⟨⟨⟨⟨distinct, -⟩, -⟩, -⟩, -⟩, noPhis⟩, samePhis⟩, -⟩ := merges
  refine ⟨fun same => ?_, fun phi mem => ?_, List.isEmpty_iff.mp noPhis⟩
  · simp [same] at distinct
  · have := List.all_eq_true.mp samePhis phi mem
    exact beq_iff_eq.mp (Bool.and_eq_true_iff.mp this).2

/-- A chain that is left has been decided by its comparisons, and what it gives to the block behind
it the first block would give as well. -/
theorem chainLeaves_scan {comparisons : List ICmpInst} {second : Option Nat} {exit next : Nat}
    {edge : Nat × Nat} (here : function.block? id = some first)
    (found : function.chainLeaves first = some (comparisons, second, exit, next))
    (left : function.chain env id second = some edge) :
    ∃ holds, scan (comparisons.map (ICmpInst.holds env)) = some holds ∧
      edge.2 = (if holds then exit else next) ∧
      function.phiValues env edge = function.phiValues env (id, edge.2) := by
  obtain ⟨⟨condition, exit₁, onFalse⟩, ends, found⟩ := bind_eq_some_iff.mp found
  obtain ⟨collected, leaves₁, found⟩ := bind_eq_some_iff.mp found
  obtain ⟨added, rfl, decides⟩ := leaves_scan env leaves₁
  obtain ⟨target, goes, left⟩ := bind_eq_some_iff.mp left
  obtain ⟨holds, worth, rfl⟩ := branch_some here ends goes
  dsimp only at found
  split at found
  next =>
    obtain ⟨block₂, here₂, found⟩ := bind_eq_some_iff.mp found
    obtain ⟨⟨condition₂, exit₂, next₂⟩, ends₂, found⟩ := bind_eq_some_iff.mp found
    obtain ⟨_, same, found⟩ := bind_eq_some_iff.mp found
    obtain ⟨exitBlock, hereExit, found⟩ := bind_eq_some_iff.mp found
    obtain ⟨nextBlock, hereNext, found⟩ := bind_eq_some_iff.mp found
    obtain ⟨_, merges, found⟩ := bind_eq_some_iff.mp found
    obtain ⟨all, leaves₂, found⟩ := bind_eq_some_iff.mp found
    obtain ⟨others, rfl, decides₂⟩ := leaves_scan env leaves₂
    obtain rfl := (guard_eq_some' _).mp same
    obtain ⟨apart, samePhis, noPhis⟩ := mergeable_spec ((guard_eq_some' _).mp merges)
    rw [block?_id here₂, block?_id hereExit] at apart
    rw [block?_id here, block?_id here₂] at samePhis
    cases found
    dsimp only at left
    cases holds with
    | true =>
      rw [if_pos rfl, if_neg fun same => apart (some.inj same).symm] at left
      cases left
      refine ⟨true, ?_, rfl, rfl⟩
      rw [List.map_append, scan_append, decides worth]
      rfl
    | false =>
      rw [if_neg Bool.false_ne_true, if_pos rfl] at left
      obtain ⟨target, goes₂, same⟩ := bind_eq_some_iff.mp left
      cases same
      obtain ⟨holds, worth₂, rfl⟩ := branch_some here₂ ends₂ goes₂
      refine ⟨holds, ?_, rfl, ?_⟩
      · rw [List.map_append, scan_append, decides worth]
        exact decides₂ worth₂
      · cases holds with
        | true =>
          dsimp only at hereExit
          simp only [if_true, Function.phiValues, hereExit, map_some]
          refine congrArg some (List.map_congr_left fun phi mem => ?_)
          rw [samePhis phi mem]
        | false =>
          dsimp only at hereNext
          simp only [Bool.false_eq_true, if_false, Function.phiValues, hereNext, map_some,
            noPhis, List.map_nil]
  next =>
    cases found
    cases left
    exact ⟨holds, decides worth, rfl, rfl⟩

theorem block?_rewrite (function : Function) (rewrite : Rewrite) (id : Nat) :
    (function.rewrite rewrite).block? id =
      (function.block? id).map (Block.rewrite function.nextId rewrite) := by
  have same : ((·.id == id) ∘ Block.rewrite function.nextId rewrite) = (·.id == id) := by
    funext block
    simp only [Function.comp_apply, Block.rewrite]
    split <;> rfl
  rw [Function.block?, Function.block?, Function.rewrite, List.find?_map, same]

theorem phiValues_rewrite (function : Function) (rewrite : Rewrite) (env : Env) (edge : Nat × Nat) :
    (function.rewrite rewrite).phiValues env edge = function.phiValues env edge := by
  rw [Function.phiValues, Function.phiValues, block?_rewrite, map_map]
  refine congrArg (Option.map · _) (funext fun block => ?_)
  simp only [Function.comp_apply, Block.rewrite]
  split <;> rfl

theorem chain_rewrite {rewrite : Rewrite} {holds : Bool}
    (here : function.block? rewrite.block = some first)
    (worth : truth ((validated function.nextId rewrite.a rewrite.b rewrite.bound).eval env) =
      some holds) : (function.rewrite rewrite).chain env rewrite.block none =
        some (rewrite.block, if holds then rewrite.exit else rewrite.next) := by
  have rewritten := (block?_rewrite function rewrite rewrite.block).trans (congrArg _ here)
  have ends : (Block.rewrite function.nextId rewrite first).condBr? =
      some (validated function.nextId rewrite.a rewrite.b rewrite.bound, rewrite.exit,
        rewrite.next) := by
    rw [Block.rewrite, if_pos (block?_id here)]
    rfl
  rw [Function.chain, branch_eq rewritten ends, worth]
  rfl

end Branches

/-- However the chain is left, the rewritten branch goes to the same block, and the PHIs there
receive the same values.  An environment has one value for each name at every block: that the
operands and the bound dominate the rewritten branch is taken for granted. -/
theorem validatedIndexBounds_refines (analyses : Analyses) (function : Function) (rewrite : Rewrite)
    (found : function.validatedIndexBounds analyses = some rewrite) (env : Env)
    (sound : ∀ n width, rewrite.bound.eval env = some n → rewrite.bound.width = some width →
      (analyses.constantRange rewrite.bound rewrite.block).contains (BitVec.ofNat width n).toInt)
    (edge : Nat × Nat) (left : function.chain env rewrite.block rewrite.second = some edge) :
    (function.rewrite rewrite).chain env rewrite.block none = some (rewrite.block, edge.2) ∧
      (function.rewrite rewrite).phiValues env (rewrite.block, edge.2) =
        function.phiValues env edge ∧
      (edge.2 = rewrite.exit ∨ edge.2 = rewrite.next) := by
  unfold Function.validatedIndexBounds at found
  split at found
  next => cases found
  obtain ⟨block, -, found⟩ := List.exists_of_findSome?_eq_some found
  obtain ⟨first, here, found⟩ := bind_eq_some_iff.mp found
  obtain ⟨⟨comparisons, second, exit, next⟩, chained, found⟩ := bind_eq_some_iff.mp found
  obtain ⟨⟨a, b, bound⟩, matches_, found⟩ := bind_eq_some_iff.mp found
  obtain ⟨_, -, found⟩ := bind_eq_some_iff.mp found
  obtain ⟨_, natural, found⟩ := bind_eq_some_iff.mp found
  cases found
  obtain ⟨holds, decided, goes, phis⟩ := chainLeaves_scan here chained left
  have worth : truth ((validated function.nextId a b bound).eval env) = some holds := by
    refine matched_scan matches_ (fun n width worth isInt => ?_) decided
    have least := (analyses.constantRange bound block.id).signedMin_le (sound n width worth isInt)
    replace natural := (guard_eq_some' _).mp natural
    simp only [boundIsNonnegative, Bool.and_eq_true, decide_eq_true_iff] at natural
    exact lt_of_nonneg (Int.le_trans natural.1.2 least)
  refine ⟨?_, (phiValues_rewrite ..).trans phis.symm, ?_⟩
  · rw [goes]
    exact chain_rewrite here worth
  · rw [goes]
    cases holds with
    | true => exact .inl rfl
    | false => exact .inr rfl

section Example

def local32 (id : Nat) : Value := .other id (some 32) true

def eitherIndex (id : Nat) (predicate : Predicate) (right : Value) : Value :=
  .select id (some 1) (.icmp (id + 1) predicate (local32 0) right false) (.constantInt 1 1)
    (.icmp (id + 2) predicate (local32 1) right false)

def checksInTwoBlocks : Function where
  instructionCount := 8
  nextId := 9
  blocks := [⟨0, false, [], [], .condBr (eitherIndex 3 .slt (.constantInt 32 0)) 3 1 false⟩,
    ⟨1, false, [], [], .condBr (eitherIndex 6 .sge (local32 2)) 3 2 false⟩,
    ⟨2, false, [], [], .other []⟩, ⟨3, false, [⟨[(0, local32 0), (1, local32 0)]⟩], [], .other []⟩]

def checksRewrite : Rewrite := ⟨0, some 1, 3, 2, local32 0, local32 1, local32 2⟩

theorem validatedIndexBounds_refines_below :
    (checksInTwoBlocks.rewrite checksRewrite).chain ⟨fun id => [3, 4, 10][id]?, id⟩ 0 none =
        some (0, 2) ∧
      (checksInTwoBlocks.rewrite checksRewrite).phiValues ⟨fun id => [3, 4, 10][id]?, id⟩ (0, 2) =
        checksInTwoBlocks.phiValues ⟨fun id => [3, 4, 10][id]?, id⟩ (1, 2) ∧ (2 = 3 ∨ 2 = 2) :=
  validatedIndexBounds_refines
    ⟨fun _ _ => true, fun _ _ => ⟨(0 ≤ ·), 0, id, false, false, false, false⟩, fun _ _ => true⟩
    checksInTwoBlocks checksRewrite rfl _
    (fun n width worth isInt => by cases worth; cases isInt; decide) (1, 2) rfl

end Example

end Elisa.Backend.IndexBounds
