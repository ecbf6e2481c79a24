import Mathlib.Data.List.Forall2
import Elisa.Easm.Compose

/-!
# What the expansion of compositions leaves behind

`Expands` replaces every active composition by the lines of its fragment, and expands these in turn.
`expandCompositions` replaces once and never looks at the lines it has put in.
`expandCompositions_complete` says exactly when that is enough: no line that comes from a fragment
is a composition itself.
-/

namespace Elisa.Easm

open List

/-! ## The meaning of a composition -/

/-- A text with the parameters replaced from left to right, the first one that fits first. -/
inductive Substituted (substitutions : List Substitution) : Bytes → Bytes → Prop
  | done : Substituted substitutions [] []
  | occurrence {substitution : Substitution} {rest out : Bytes}
      (named : substitution.source ≠ [])
      (first : substitutions.find?
        (fun other => startsWith (substitution.source ++ rest) other.source) = some substitution)
      (tail : Substituted substitutions rest out) :
      Substituted substitutions (substitution.source ++ rest) (substitution.replacement ++ out)
  | byte {byte : UInt8} {rest out : Bytes}
      (free : ∀ substitution ∈ substitutions,
        startsWith (byte :: rest) substitution.source = false)
      (tail : Substituted substitutions rest out) :
      Substituted substitutions (byte :: rest) (byte :: out)

def ReplacedLine (composition : Instruction) (fragment : Function) (line out : Instruction) :
    Prop :=
  ∃ bindings, fragmentBindings fragment composition = some bindings ∧
    ((bindings = [] ∧ out = { line with line := composition.line, substitutions := [] }) ∨
      (bindings ≠ [] ∧ ∃ text, Substituted bindings line.text text ∧
        out = parseInstruction text composition.line))

def Spliced (fragments : List Function) (composition : Instruction) (body : List Instruction) :
    Prop :=
  namedFragments fragments composition ≠ [] ∧
  ∃ pieces, List.Forall₂
      (fun fragment piece =>
        List.Forall₂ (ReplacedLine composition fragment) fragment.instructions piece)
      (namedFragments fragments composition) pieces ∧
    body = pieces.flatten

inductive Expands (fragments : List Function) (active : ComposeInfo → Bool) :
    List Instruction → List Instruction → Prop
  | nil : Expands fragments active [] []
  | keep {instruction : Instruction} {rest out : List Instruction}
      (plain : isCompose instruction = false) (tail : Expands fragments active rest out) :
      Expands fragments active (instruction :: rest) (instruction :: out)
  | skip {instruction : Instruction} {rest out : List Instruction}
      (composes : isCompose instruction = true)
      (inactive : active (parseCompose instruction.text) = false)
      (tail : Expands fragments active rest out) :
      Expands fragments active (instruction :: rest) out
  | splice {instruction : Instruction} {body bodyOut rest out : List Instruction}
      (composes : isCompose instruction = true)
      (taken : active (parseCompose instruction.text) = true)
      (spliced : Spliced fragments instruction body)
      (inner : Expands fragments active body bodyOut)
      (tail : Expands fragments active rest out) :
      Expands fragments active (instruction :: rest) (bodyOut ++ out)

/-- The variants of all functions are complete expansions of the functions. -/
def Expanded (m out : Module) : Prop :=
  List.Forall₂
    (fun variant fn =>
      Expands m.fragments (composeActive (composeFlags variant.1.instructions) variant.2)
        variant.1.instructions fn.instructions ∧
      ∀ instruction ∈ fn.instructions, isCompose instruction = false)
    (variantsOf m.functions) out.functions

def ExpandsOrReports (m : Module) : Prop :=
  ∃ out, expandCompositions m = some out ∧ (hasErrors out.issues = true ∨ Expanded m out)

/-! ## Compositions of the input -/

/-- A composition that some variant expands. -/
def ActiveComposition (m : Module) (composition : Instruction) : Prop :=
  ∃ variant ∈ variantsOf m.functions, composition ∈ variant.1.instructions ∧
    isCompose composition = true ∧
    composeActive (composeFlags variant.1.instructions) variant.2
      (parseCompose composition.text) = true

/-- A fragment that a composition names and gives the right number of arguments. -/
def Composes (m : Module) (composition : Instruction) (fragment : Function) : Prop :=
  ActiveComposition m composition ∧ fragment ∈ namedFragments m.fragments composition ∧
    (parseCompose composition.text).argumentCount = fragment.params.length

def Misfits (composition : Instruction) (fragment : Function) : Prop :=
  (parseCompose composition.text).argumentCount ≠ fragment.params.length ∨
    fragment.params.length > 4 ∨
    fragmentBindings fragment composition = none ∧ fragment.instructions ≠ []

def Unresolved (fragments : List Function) (composition : Instruction) : Prop :=
  namedFragments fragments composition = [] ∨
    ∃ fragment ∈ namedFragments fragments composition, Misfits composition fragment

/-- The module has errors, or an active composition is not resolved. -/
def Flawed (m : Module) : Prop :=
  hasErrors m.issues = true ∨
    ∃ composition, ActiveComposition m composition ∧ Unresolved m.fragments composition

/-- Parameters without a name do not stop the replacement in any composed line. -/
def ReplacementsEnd (m : Module) : Prop :=
  ∀ composition fragment, Composes m composition fragment →
    ∀ bindings, fragmentBindings fragment composition = some bindings →
      ∀ line ∈ fragment.instructions, (materializeLine composition bindings line).isSome

def ComposesFurther (m : Module) : Prop :=
  ∃ composition fragment, Composes m composition fragment ∧
    ∃ bindings, fragmentBindings fragment composition = some bindings ∧
      ∃ line ∈ fragment.instructions, ∃ out,
        materializeLine composition bindings line = some out ∧ isCompose out = true

/-! ## Collected expansions -/

section Collect

variable {α β : Type} {list : List α}

theorem mapM_eq_some_iff {f : α → Option β} {out : List β} :
    list.mapM f = some out ↔ List.Forall₂ (fun a b => f a = some b) list out := by
  induction list generalizing out with
  | nil => simp [forall₂_nil_left_iff, eq_comm]
  | cons a rest ih =>
    rw [mapM_cons, forall₂_cons_left_iff]
    constructor
    · intro h
      obtain ⟨b, first, tail, later, rfl⟩ :
          ∃ b, f a = some b ∧ ∃ tail, rest.mapM f = some tail ∧ b :: tail = out := by
        simpa [Option.bind_eq_some_iff] using h
      exact ⟨b, tail, first, ih.1 later, rfl⟩
    · rintro ⟨b, tail, first, later, rfl⟩
      simp [first, ih.2 later]

theorem mapM_isSome_iff {f : α → Option β} : (list.mapM f).isSome ↔ ∀ a ∈ list, (f a).isSome := by
  induction list with
  | nil => simp
  | cons a rest ih =>
    cases first : f a with
    | none => simp [mapM_cons, first]
    | some b =>
      simp only [mapM_cons, first, forall_mem_cons, Option.isSome_some, true_and,
        ← ih]
      cases rest.mapM f <;> simp

variable {R : α → β → Prop}

theorem forall₂_exists_left {out : List β} (h : List.Forall₂ R list out) {b : β} (mem : b ∈ out) :
    ∃ a ∈ list, R a b := by
  induction h with
  | nil => simp at mem
  | cons head _ ih =>
    rcases mem_cons.1 mem with rfl | mem
    · exact ⟨_, .head _, head⟩
    · obtain ⟨a, inside, related⟩ := ih mem
      exact ⟨a, .tail _ inside, related⟩

theorem forall₂_exists_right {out : List β} (h : List.Forall₂ R list out) {a : α} (mem : a ∈ list) :
    ∃ b ∈ out, R a b :=
  forall₂_exists_left h.flip mem

theorem forall₂_imp_of_mem {S : α → β → Prop} {out : List β} (h : List.Forall₂ R list out)
    (step : ∀ a ∈ list, ∀ b, R a b → S a b) : List.Forall₂ S list out := by
  induction h with
  | nil => exact .nil
  | cons head _ ih =>
    exact .cons (step _ (.head _) _ head) (ih fun a inside => step a (.tail _ inside))

end Collect

namespace Expansion

def concat (expansions : List Expansion) : Expansion := expansions.foldr append empty

@[simp] theorem concat_issues (expansions : List Expansion) :
    (concat expansions).issues = expansions.flatMap (·.issues) := by
  induction expansions with
  | nil => rfl
  | cons first rest ih => simpa [concat, append] using ih

@[simp] theorem concat_instructions (expansions : List Expansion) :
    (concat expansions).instructions = expansions.flatMap (·.instructions) := by
  induction expansions with
  | nil => rfl
  | cons first rest ih => simpa [concat, append] using ih

variable {α : Type}

theorem gather_eq (expand : α → Option Expansion) (list : List α) :
    gather expand list = (list.mapM expand).map concat := by
  induction list with
  | nil => simp [gather, concat]
  | cons a rest ih =>
    cases first : expand a with
    | none => simp [gather, mapM_cons, first]
    | some expansion =>
      cases tail : rest.mapM expand <;>
        simp [gather, mapM_cons, first, ih, tail, concat]

theorem gather_eq_some_iff {expand : α → Option Expansion} {list : List α} {out : Expansion} :
    gather expand list = some out ↔
      ∃ expansions, List.Forall₂ (fun a expansion => expand a = some expansion) list expansions ∧
        concat expansions = out := by
  simp [gather_eq, Option.map_eq_some_iff, mapM_eq_some_iff]

theorem gather_isSome_iff {expand : α → Option Expansion} {list : List α} :
    (gather expand list).isSome ↔ ∀ a ∈ list, (expand a).isSome := by
  rw [gather_eq, Option.isSome_map, mapM_isSome_iff]

end Expansion

/-! ## One fragment -/

theorem substituteFrom_substituted {substitutions : List Substitution} {skip : Nat}
    {text out : Bytes} (h : substituteFrom substitutions skip text = some out) :
    Substituted substitutions (text.drop skip) out := by
  induction text generalizing skip out with
  | nil =>
    obtain rfl : [] = out := by simpa [substituteFrom] using h
    rw [drop_nil]
    exact .done
  | cons byte rest ih =>
    cases skip with
    | succ skip => exact ih (by simpa [substituteFrom] using h)
    | zero =>
      rw [substituteFrom] at h
      split at h
      next substitution found =>
        split at h
        next => exact absurd h (by simp)
        rename_i named
        obtain ⟨tail, later, rfl⟩ := Option.map_eq_some_iff.1 h
        have fits : startsWith (byte :: rest) substitution.source = true := by
          simpa using find?_some found
        obtain ⟨after, whole⟩ := isPrefixOf_iff_prefix.1 fits
        cases source : substitution.source with
        | nil => exact absurd source named
        | cons first others =>
          rw [source] at whole later
          obtain ⟨rfl, rfl⟩ : first = byte ∧ others ++ after = rest := by simpa using whole
          have rest := ih later
          simp only [length_cons, Nat.add_sub_cancel, drop_left] at rest
          have step := Substituted.occurrence named (by rwa [source]) rest
          simpa [source] using step
      rename_i found
      obtain ⟨tail, later, rfl⟩ := Option.map_eq_some_iff.1 h
      refine .byte ?_ (ih later)
      intro substitution inside
      simpa using find?_eq_none.1 found substitution inside

variable {fragment : Function} {composition : Instruction} {bindings : List Substitution}

theorem length_fragmentBindings (h : fragmentBindings fragment composition = some bindings) :
    bindings.length = fragment.params.length := by
  have related := (mapM_eq_some_iff.1 h).length_eq
  simpa using related.symm

theorem materializeLine_replaced {line out : Instruction} (few : fragment.params.length ≤ 4)
    (bound : fragmentBindings fragment composition = some bindings)
    (h : materializeLine composition bindings line = some out) :
    ReplacedLine composition fragment line out := by
  refine ⟨bindings, bound, ?_⟩
  unfold materializeLine at h
  split at h
  next none => exact .inl ⟨none, by simpa using h.symm⟩
  rename_i some
  have short := length_fragmentBindings bound
  split at h
  next many => omega
  obtain ⟨text, rendered, rfl⟩ := Option.map_eq_some_iff.1 h
  refine .inr ⟨some, text, ?_, rfl⟩
  rw [instructionText, if_neg some] at rendered
  simpa using substituteFrom_substituted rendered

variable {expansion : Expansion}

theorem expandLine_cases {line : Instruction}
    (h : expandLine composition fragment line = some expansion) :
    (fragmentBindings fragment composition = none ∧
      ∃ code message, expansion = .issue code composition.line message) ∨
    ∃ bindings, fragmentBindings fragment composition = some bindings ∧
      ∃ out, materializeLine composition bindings line = some out ∧ expansion = .kept out := by
  unfold expandLine at h
  split at h
  next unbound => exact .inl ⟨unbound, _, _, by simpa using h.symm⟩
  next bindings bound =>
    obtain ⟨out, materialized, rfl⟩ := Option.map_eq_some_iff.1 h
    exact .inr ⟨bindings, bound, out, materialized, rfl⟩

theorem expandLine_isSome_iff {line : Instruction} :
    (expandLine composition fragment line).isSome ↔
      ∀ bindings, fragmentBindings fragment composition = some bindings →
        (materializeLine composition bindings line).isSome := by
  unfold expandLine
  split
  next unbound => simp [unbound]
  next bindings bound => simp [bound]

theorem expandFragment_cases (h : expandFragment composition fragment = some expansion) :
    ((parseCompose composition.text).argumentCount ≠ fragment.params.length ∧
      ∃ code message, expansion = .issue code composition.line message) ∨
    (parseCompose composition.text).argumentCount = fragment.params.length ∧
      ∃ body leading, Expansion.gather (expandLine composition fragment)
          fragment.instructions = some body ∧
        expansion.instructions = body.instructions ∧
        expansion.issues = leading ++ body.issues ∧
        (leading = [] ↔ fragment.params.length ≤ 4) ∧
        ∀ issue ∈ leading, issue.severity = .error := by
  unfold expandFragment at h
  split at h
  next wrong => exact .inl ⟨wrong, _, _, by simpa using h.symm⟩
  rename_i right
  obtain ⟨body, gathered, rfl⟩ := Option.map_eq_some_iff.1 h
  refine .inr ⟨not_not.1 right, body, ?_⟩
  rcases Nat.lt_or_ge 4 fragment.params.length with many | few
  · exact ⟨[_], gathered, by simp [many, Expansion.append, Expansion.issue, Expansion.empty],
      by simp [many, Expansion.append, Expansion.issue, Expansion.empty]; rfl,
      by simpa using many, by simp [errorIssue]⟩
  · exact ⟨[], gathered, by simp [Nat.not_lt.2 few, Expansion.append, Expansion.empty],
      by simp [Nat.not_lt.2 few, Expansion.append, Expansion.empty], by simpa using few,
      by simp⟩

theorem expandFragment_isSome_iff :
    (expandFragment composition fragment).isSome ↔
      ((parseCompose composition.text).argumentCount = fragment.params.length →
        ∀ bindings, fragmentBindings fragment composition = some bindings →
          ∀ line ∈ fragment.instructions, (materializeLine composition bindings line).isSome) := by
  unfold expandFragment
  split
  next wrong => simp [wrong]
  rename_i right
  simp only [Option.isSome_map, Expansion.gather_isSome_iff, expandLine_isSome_iff,
    not_not.1 right, true_imp_iff]
  exact ⟨fun h bindings bound line inside => h line inside bindings bound,
    fun h line inside bindings bound => h bindings bound line inside⟩

theorem gather_expandLine_bound {lines : List Instruction} {body : Expansion}
    (bound : fragmentBindings fragment composition = some bindings)
    (h : Expansion.gather (expandLine composition fragment) lines = some body) :
    body.issues = [] ∧
      List.Forall₂ (fun line out => materializeLine composition bindings line = some out)
        lines body.instructions := by
  obtain ⟨expansions, related, rfl⟩ := Expansion.gather_eq_some_iff.1 h
  clear h
  induction related with
  | nil => simp
  | cons head _ ih =>
    obtain ⟨unbound, -⟩ | ⟨_, same, out, materialized, rfl⟩ := expandLine_cases head
    · simp [bound] at unbound
    · obtain rfl : bindings = _ := by simpa [bound] using same
      rw [Expansion.concat_issues, Expansion.concat_instructions] at ih ⊢
      exact ⟨ih.1, .cons materialized ih.2⟩

theorem gather_expandLine_unbound {lines : List Instruction} {body : Expansion}
    (unbound : fragmentBindings fragment composition = none)
    (h : Expansion.gather (expandLine composition fragment) lines = some body) :
    body.instructions = [] ∧ (body.issues = [] ↔ lines = []) ∧
      ∀ issue ∈ body.issues, issue.severity = .error := by
  obtain ⟨expansions, related, rfl⟩ := Expansion.gather_eq_some_iff.1 h
  clear h
  induction related with
  | nil => simp
  | cons head _ ih =>
    obtain ⟨-, code, message, rfl⟩ | ⟨_, bound, -⟩ := expandLine_cases head
    · rw [Expansion.concat_issues, Expansion.concat_instructions] at ih ⊢
      exact ⟨ih.1, by simp [Expansion.issue], by simpa [Expansion.issue, errorIssue] using ih.2.2⟩
    · simp [unbound] at bound

theorem expandFragment_issues (h : expandFragment composition fragment = some expansion) :
    (expansion.issues = [] ↔ ¬ Misfits composition fragment) ∧
      ∀ issue ∈ expansion.issues, issue.severity = .error := by
  obtain ⟨wrong, code, message, rfl⟩ | ⟨right, body, leading, gathered, -, issues, few, errors⟩ :=
    expandFragment_cases h
  · simp [Misfits, wrong, Expansion.issue, errorIssue]
  rw [issues, append_eq_nil_iff, few]
  cases bound : fragmentBindings fragment composition with
  | none =>
    obtain ⟨-, empty, all⟩ := gather_expandLine_unbound bound gathered
    refine ⟨by simp [Misfits, right, bound, empty], ?_⟩
    simpa [or_imp, forall_and] using ⟨errors, all⟩
  | some bindings =>
    obtain ⟨none, -⟩ := gather_expandLine_bound bound gathered
    exact ⟨by simp [Misfits, right, bound, none], by simpa [none] using errors⟩

theorem mem_expandFragment (h : expandFragment composition fragment = some expansion)
    {out : Instruction} :
    out ∈ expansion.instructions ↔
      (parseCompose composition.text).argumentCount = fragment.params.length ∧
        ∃ bindings, fragmentBindings fragment composition = some bindings ∧
          ∃ line ∈ fragment.instructions, materializeLine composition bindings line = some out := by
  obtain ⟨wrong, code, message, rfl⟩ | ⟨right, body, leading, gathered, same, -⟩ :=
    expandFragment_cases h
  · simp [wrong, Expansion.issue, Expansion.empty]
  rw [same]
  cases bound : fragmentBindings fragment composition with
  | none => simp [(gather_expandLine_unbound bound gathered).1]
  | some bindings =>
    obtain ⟨-, related⟩ := gather_expandLine_bound bound gathered
    simp only [right, true_and, Option.some.injEq, exists_eq_left']
    constructor
    · intro inside
      exact forall₂_exists_left related inside
    · rintro ⟨line, inside, materialized⟩
      obtain ⟨other, found, equal⟩ := forall₂_exists_right related inside
      rw [materialized] at equal
      exact Option.some.inj equal ▸ found

theorem expandFragment_replaced (h : expandFragment composition fragment = some expansion)
    (fits : ¬ Misfits composition fragment) :
    List.Forall₂ (ReplacedLine composition fragment) fragment.instructions
      expansion.instructions := by
  simp only [Misfits, not_or, not_not, gt_iff_lt, Nat.not_lt, not_and] at fits
  obtain ⟨right, few, spans⟩ := fits
  obtain ⟨wrong, -⟩ | ⟨-, body, leading, gathered, same, -⟩ := expandFragment_cases h
  · exact absurd right wrong
  rw [same]
  cases bound : fragmentBindings fragment composition with
  | none =>
    rw [(gather_expandLine_unbound bound gathered).1, spans bound]
    exact .nil
  | some bindings =>
    exact (gather_expandLine_bound bound gathered).2.imp
      fun line out => materializeLine_replaced few bound

/-! ## One body -/

namespace Expands

variable {fragments : List Function} {active : ComposeInfo → Bool}

theorem refl_of_plain {body : List Instruction}
    (plain : ∀ instruction ∈ body, isCompose instruction = false) :
    Expands fragments active body body := by
  induction body with
  | nil => exact .nil
  | cons instruction rest ih =>
    exact .keep (plain _ (.head _)) (ih fun other inside => plain other (.tail _ inside))

theorem plain {body out : List Instruction} (h : Expands fragments active body out) :
    ∀ instruction ∈ out, isCompose instruction = false := by
  induction h with
  | nil => simp
  | keep plain _ ih => simpa [plain] using ih
  | skip _ _ _ ih => exact ih
  | splice _ _ _ _ _ ihInner ihTail =>
    intro instruction inside
    rcases mem_append.1 inside with inside | inside
    · exact ihInner instruction inside
    · exact ihTail instruction inside

end Expands

section Body

variable {fragments : List Function} {flags : List Bytes} {mask : Nat} {instruction : Instruction}

theorem expandInstruction_cases
    (h : expandInstruction fragments flags mask instruction = some expansion) :
    (isCompose instruction = false ∧ expansion = .kept instruction) ∨
    (isCompose instruction = true ∧
      composeActive flags mask (parseCompose instruction.text) = false ∧ expansion = .empty) ∨
    (isCompose instruction = true ∧
      composeActive flags mask (parseCompose instruction.text) = true ∧
      namedFragments fragments instruction = [] ∧
      ∃ code message, expansion = .issue code instruction.line message) ∨
    (isCompose instruction = true ∧
      composeActive flags mask (parseCompose instruction.text) = true ∧
      namedFragments fragments instruction ≠ [] ∧
      ∃ expansions, List.Forall₂
          (fun fragment expansion => expandFragment instruction fragment = some expansion)
          (namedFragments fragments instruction) expansions ∧
        expansion = .concat expansions) := by
  unfold expandInstruction at h
  cases composes : isCompose instruction with
  | false => exact .inl ⟨rfl, by simpa [composes] using h.symm⟩
  | true =>
    cases active : composeActive flags mask (parseCompose instruction.text) with
    | false => exact .inr (.inl ⟨rfl, rfl, by simpa [composes, active] using h.symm⟩)
    | true =>
      simp only [composes, active, Bool.not_true, Bool.false_eq_true, if_false] at h
      split at h
      next none => exact .inr (.inr (.inl ⟨rfl, rfl, none, _, _, by simpa using h.symm⟩))
      next some =>
        obtain ⟨expansions, related, rfl⟩ := Expansion.gather_eq_some_iff.1 h
        exact .inr (.inr (.inr ⟨rfl, rfl, some, expansions, related, rfl⟩))

theorem expandInstruction_isSome_iff :
    (expandInstruction fragments flags mask instruction).isSome ↔
      (isCompose instruction = true →
        composeActive flags mask (parseCompose instruction.text) = true →
        ∀ fragment ∈ namedFragments fragments instruction,
          (expandFragment instruction fragment).isSome) := by
  unfold expandInstruction
  cases composes : isCompose instruction with
  | false => simp
  | true =>
    cases active : composeActive flags mask (parseCompose instruction.text) with
    | false => simp
    | true =>
      simp only [Bool.not_true, Bool.false_eq_true, if_false, true_imp_iff]
      split
      next none => simp [none]
      next => rw [Expansion.gather_isSome_iff]

theorem expandInstruction_issues
    (h : expandInstruction fragments flags mask instruction = some expansion) :
    (expansion.issues = [] ↔
      (isCompose instruction = true →
        composeActive flags mask (parseCompose instruction.text) = true →
        ¬ Unresolved fragments instruction)) ∧
      ∀ issue ∈ expansion.issues, issue.severity = .error := by
  obtain ⟨plain, rfl⟩ | ⟨-, inactive, rfl⟩ | ⟨composes, active, none, code, message, rfl⟩ |
    ⟨composes, active, some, expansions, related, rfl⟩ := expandInstruction_cases h
  · simp [plain, Expansion.kept, Expansion.empty]
  · simp [inactive, Expansion.empty]
  · simp [composes, active, Unresolved, none, Expansion.issue, errorIssue]
  rw [Expansion.concat_issues]
  constructor
  · simp only [flatMap_eq_nil_iff, composes, active, true_imp_iff, Unresolved, some,
      false_or, not_exists, not_and]
    constructor
    · intro none fragment named
      obtain ⟨expansion, inside, expanded⟩ := forall₂_exists_right related named
      exact (expandFragment_issues expanded).1.1 (none expansion inside)
    · intro fits expansion inside
      obtain ⟨fragment, named, expanded⟩ := forall₂_exists_left related inside
      exact (expandFragment_issues expanded).1.2 (fits fragment named)
  · intro issue inside
    obtain ⟨expansion, inside, mem⟩ := mem_flatMap.1 inside
    obtain ⟨fragment, named, expanded⟩ := forall₂_exists_left related inside
    exact (expandFragment_issues expanded).2 issue mem

theorem spliced_of_forall₂ {composition : Instruction} {expansions : List Expansion}
    (found : namedFragments fragments composition ≠ [])
    (related : List.Forall₂
      (fun fragment expansion => expandFragment composition fragment = some expansion)
      (namedFragments fragments composition) expansions)
    (resolved : ¬ Unresolved fragments composition) :
    Spliced fragments composition (Expansion.concat expansions).instructions := by
  have fits : ∀ fragment ∈ namedFragments fragments composition,
      ¬ Misfits composition fragment := by
    intro fragment named misfit
    exact resolved (.inr ⟨fragment, named, misfit⟩)
  refine ⟨found, expansions.map (·.instructions), ?_, by simp [List.flatMap]⟩
  clear found resolved
  generalize namedFragments fragments composition = named at related fits
  induction related with
  | nil => exact .nil
  | cons head _ ih =>
    exact .cons (expandFragment_replaced head (fits _ (.head _)))
      (ih fun fragment inside => fits fragment (.tail _ inside))

theorem expands_of_gather {body : List Instruction} {expansion : Expansion}
    (h : Expansion.gather (expandInstruction fragments flags mask) body = some expansion)
    (resolved : ∀ instruction ∈ body, isCompose instruction = true →
      composeActive flags mask (parseCompose instruction.text) = true →
      ¬ Unresolved fragments instruction)
    (plain : ∀ instruction ∈ body, isCompose instruction = true →
      composeActive flags mask (parseCompose instruction.text) = true →
      ∀ fragment ∈ namedFragments fragments instruction, ∀ part,
        expandFragment instruction fragment = some part →
        ∀ out ∈ part.instructions, isCompose out = false) :
    Expands fragments (composeActive flags mask) body expansion.instructions := by
  obtain ⟨expansions, related, rfl⟩ := Expansion.gather_eq_some_iff.1 h
  clear h
  induction related with
  | nil => exact .nil
  | @cons instruction _ rest _ head _ ih =>
    have tail := ih (fun other inside => resolved other (.tail _ inside))
      (fun other inside => plain other (.tail _ inside))
    rw [Expansion.concat_instructions] at tail ⊢
    obtain ⟨plain, rfl⟩ | ⟨composes, inactive, rfl⟩ | ⟨composes, active, none, -⟩ |
      ⟨composes, active, some, parts, fragments, rfl⟩ := expandInstruction_cases head
    · exact .keep plain tail
    · exact .skip composes inactive tail
    · exact absurd (.inl none) (resolved instruction (.head _) composes active)
    refine .splice composes active
      (spliced_of_forall₂ some fragments (resolved instruction (.head _) composes active))
      (.refl_of_plain ?_) tail
    intro out inside
    have inside : out ∈ (Expansion.concat parts).instructions := inside
    rw [Expansion.concat_instructions] at inside
    obtain ⟨part, member, inside⟩ := mem_flatMap.1 inside
    obtain ⟨fragment, named, expanded⟩ := forall₂_exists_left fragments member
    exact plain instruction (.head _) composes active fragment named part expanded out inside

end Body

/-! ## All functions -/

def expandBody (fragments : List Function) (variant : Function × Nat) : Option Expansion :=
  Expansion.gather (expandInstruction fragments (composeFlags variant.1.instructions) variant.2)
    variant.1.instructions

theorem expandVariant_eq (fragments : List Function) (fn : Function) (mask : Nat) :
    ∃ build : Expansion → Function, (∀ expansion, (build expansion).instructions =
        expansion.instructions) ∧
      expandVariant fragments fn mask = (expandBody fragments (fn, mask)).map
        fun expansion => (expansion.issues, build expansion) :=
  ⟨_, fun _ => rfl, rfl⟩

theorem pruneConditionalInputs_instructions (variants : List Function) :
    (pruneConditionalInputs variants).map (·.instructions) = variants.map (·.instructions) := by
  simp [pruneConditionalInputs, Function.comp_def]

theorem expandFunction_eq_some {fragments : List Function} {fn : Function}
    {out : List Issue × List Function} (h : expandFunction fragments fn = some out) :
    ∃ expansions, List.Forall₂ (fun variant expansion =>
        expandBody fragments variant = some expansion) (variantsOf [fn]) expansions ∧
      out.1 = expansions.flatMap (·.issues) ∧
      out.2.map (·.instructions) = expansions.map (·.instructions) := by
  obtain ⟨variants, mapped, rfl⟩ := Option.map_eq_some_iff.1 h
  have related := mapM_eq_some_iff.1 mapped
  simp only [pruneConditionalInputs_instructions, variantsOf, flatMap_singleton]
  clear h mapped
  generalize List.range _ = masks at related
  induction related with
  | nil => exact ⟨[], .nil, rfl, rfl⟩
  | @cons mask _ _ _ head _ ih =>
    obtain ⟨expansions, tail, issues, instructions⟩ := ih
    obtain ⟨build, same, equal⟩ := expandVariant_eq fragments fn mask
    rw [equal] at head
    obtain ⟨expansion, expanded, rfl⟩ := Option.map_eq_some_iff.1 head
    exact ⟨expansion :: expansions, .cons expanded tail, by simp [issues],
      by simp [same, instructions]⟩

theorem expandFunction_isSome_iff {fragments : List Function} {fn : Function} :
    (expandFunction fragments fn).isSome ↔
      ∀ variant ∈ variantsOf [fn], (expandBody fragments variant).isSome := by
  simp only [expandFunction, Option.isSome_map, mapM_isSome_iff, variantsOf,
    flatMap_singleton, forall_mem_map]
  refine forall₂_congr fun mask _ => ?_
  obtain ⟨build, -, equal⟩ := expandVariant_eq fragments fn mask
  rw [equal, Option.isSome_map]

theorem expandCompositions_eq_some {m out : Module} (h : expandCompositions m = some out) :
    ∃ expansions, List.Forall₂ (fun variant expansion =>
        expandBody m.fragments variant = some expansion) (variantsOf m.functions) expansions ∧
      out.issues = m.issues ++ expansions.flatMap (·.issues) ∧
      out.functions.map (·.instructions) = expansions.map (·.instructions) := by
  obtain ⟨expanded, mapped, rfl⟩ := Option.map_eq_some_iff.1 h
  have related := mapM_eq_some_iff.1 mapped
  clear h mapped
  simp only [append_cancel_left_eq]
  generalize m.functions = functions at related
  induction related with
  | nil => exact ⟨[], .nil, rfl, rfl⟩
  | cons head _ ih =>
    obtain ⟨expansions, tail, issues, instructions⟩ := ih
    obtain ⟨first, front, firstIssues, firstInstructions⟩ := expandFunction_eq_some head
    refine ⟨first ++ expansions, ?_, by simp [firstIssues, issues],
      by simp only [flatMap_cons, map_append, firstInstructions, instructions]⟩
    rw [variantsOf, flatMap_cons]
    exact rel_append (by simpa [variantsOf] using front) tail

theorem expandCompositions_isSome_iff {m : Module} :
    (expandCompositions m).isSome ↔
      ∀ variant ∈ variantsOf m.functions, (expandBody m.fragments variant).isSome := by
  simp only [expandCompositions, Option.isSome_map, mapM_isSome_iff, expandFunction_isSome_iff,
    variantsOf, mem_flatMap, flatMap_singleton]
  exact ⟨fun h variant ⟨fn, inside, mem⟩ => h fn inside variant mem,
    fun h fn inside variant mem => h variant ⟨fn, inside, mem⟩⟩

/-! ## Completeness -/

section Complete

variable {m : Module}

theorem replacementsEnd_iff :
    ReplacementsEnd m ↔
      ∀ variant ∈ variantsOf m.functions, (expandBody m.fragments variant).isSome := by
  simp only [expandBody, Expansion.gather_isSome_iff, expandInstruction_isSome_iff,
    expandFragment_isSome_iff]
  constructor
  · intro ends variant inside instruction mem composes active fragment named right
    exact ends instruction fragment ⟨⟨variant, inside, mem, composes, active⟩, named, right⟩
  · rintro ends composition fragment ⟨⟨variant, inside, mem, composes, active⟩, named, right⟩
    exact ends variant inside composition mem composes active fragment named right

theorem expandBody_issues {variant : Function × Nat}
    (h : expandBody m.fragments variant = some expansion) :
    (expansion.issues = [] ↔ ∀ instruction ∈ variant.1.instructions,
      isCompose instruction = true →
      composeActive (composeFlags variant.1.instructions) variant.2
        (parseCompose instruction.text) = true →
      ¬ Unresolved m.fragments instruction) ∧
      ∀ issue ∈ expansion.issues, issue.severity = .error := by
  obtain ⟨expansions, related, rfl⟩ := Expansion.gather_eq_some_iff.1 h
  rw [Expansion.concat_issues, flatMap_eq_nil_iff]
  refine ⟨⟨?_, ?_⟩, ?_⟩
  · intro none instruction mem
    obtain ⟨part, inside, expanded⟩ := forall₂_exists_right related mem
    exact (expandInstruction_issues expanded).1.1 (none part inside)
  · intro resolved part inside
    obtain ⟨instruction, mem, expanded⟩ := forall₂_exists_left related inside
    exact (expandInstruction_issues expanded).1.2 (resolved instruction mem)
  · intro issue mem
    obtain ⟨part, inside, mem⟩ := mem_flatMap.1 mem
    obtain ⟨instruction, -, expanded⟩ := forall₂_exists_left related inside
    exact (expandInstruction_issues expanded).2 issue mem

theorem hasErrors_iff_flawed {out : Module} (h : expandCompositions m = some out) :
    hasErrors out.issues = true ↔ Flawed m := by
  obtain ⟨expansions, related, issues, -⟩ := expandCompositions_eq_some h
  rw [issues, hasErrors, any_append, Bool.or_eq_true, Flawed]
  refine or_congr Iff.rfl ⟨?_, ?_⟩
  · intro some
    obtain ⟨issue, mem, -⟩ := any_eq_true.1 some
    obtain ⟨expansion, inside, mem⟩ := mem_flatMap.1 mem
    obtain ⟨variant, place, expanded⟩ := forall₂_exists_left related inside
    by_contra resolved
    have none := (expandBody_issues expanded).1.2 fun instruction found composes active flaw =>
      resolved ⟨instruction, ⟨variant, place, found, composes, active⟩, flaw⟩
    simp [none] at mem
  · rintro ⟨composition, ⟨variant, place, found, composes, active⟩, flaw⟩
    obtain ⟨expansion, inside, expanded⟩ := forall₂_exists_right related place
    obtain ⟨empty, errors⟩ := expandBody_issues expanded
    cases listed : expansion.issues with
    | nil => exact absurd flaw (empty.1 listed composition found composes active)
    | cons issue rest =>
      have mem : issue ∈ expansion.issues := by simp [listed]
      rw [any_eq_true]
      exact ⟨issue, mem_flatMap.2 ⟨expansion, inside, mem⟩, by simp [errors issue mem]⟩

theorem mem_expandBody {variant : Function × Nat} {expansion part : Expansion}
    {composition out : Instruction} {fragment : Function}
    (h : expandBody m.fragments variant = some expansion)
    (found : composition ∈ variant.1.instructions) (composes : isCompose composition = true)
    (active : composeActive (composeFlags variant.1.instructions) variant.2
      (parseCompose composition.text) = true)
    (named : fragment ∈ namedFragments m.fragments composition)
    (expanded : expandFragment composition fragment = some part)
    (mem : out ∈ part.instructions) : out ∈ expansion.instructions := by
  obtain ⟨expansions, related, rfl⟩ := Expansion.gather_eq_some_iff.1 h
  obtain ⟨whole, inside, equal⟩ := forall₂_exists_right related found
  rw [Expansion.concat_instructions, mem_flatMap]
  refine ⟨whole, inside, ?_⟩
  obtain ⟨plain, -⟩ | ⟨-, inactive, -⟩ | ⟨-, -, none, -⟩ | ⟨-, -, -, parts, fragments, rfl⟩ :=
    expandInstruction_cases equal
  · simp [plain] at composes
  · simp [inactive] at active
  · simp [none] at named
  · obtain ⟨other, member, same⟩ := forall₂_exists_right fragments named
    obtain rfl : part = other := by simpa [expanded] using same
    rw [Expansion.concat_instructions, mem_flatMap]
    exact ⟨part, member, mem⟩

theorem not_composesFurther_of_expanded {out : Module} (h : expandCompositions m = some out)
    (complete : Expanded m out) : ¬ ComposesFurther m := by
  rintro ⟨composition, fragment, ⟨⟨variant, place, found, composes, active⟩, named, right⟩,
    bindings, bound, line, mem, materialized, replaced, further⟩
  obtain ⟨expansions, related, -, instructions⟩ := expandCompositions_eq_some h
  obtain ⟨expansion, inside, expanded⟩ := forall₂_exists_right related place
  have ends := expandInstruction_isSome_iff.1
    (Expansion.gather_isSome_iff.1 (Option.isSome_of_eq_some expanded) composition found)
  obtain ⟨part, fragmentExpanded⟩ := Option.isSome_iff_exists.1 (ends composes active _ named)
  have member : materialized ∈ expansion.instructions :=
    mem_expandBody expanded found composes active named fragmentExpanded
      ((mem_expandFragment fragmentExpanded).2 ⟨right, bindings, bound, line, mem, replaced⟩)
  obtain ⟨fn, listed, same⟩ : ∃ fn ∈ out.functions, fn.instructions = expansion.instructions := by
    have : expansion.instructions ∈ out.functions.map (·.instructions) := by
      rw [instructions]
      exact mem_map_of_mem inside
    simpa using this
  obtain ⟨_, -, -, plain⟩ := forall₂_exists_left complete listed
  have := plain materialized (same ▸ member)
  simp [further] at this

theorem expanded_of_not_composesFurther {out : Module} (h : expandCompositions m = some out)
    (resolved : ¬ Flawed m) (single : ¬ ComposesFurther m) : Expanded m out := by
  obtain ⟨expansions, related, -, instructions⟩ := expandCompositions_eq_some h
  have each : List.Forall₂ (fun variant body =>
      Expands m.fragments (composeActive (composeFlags variant.1.instructions) variant.2)
        variant.1.instructions body ∧ ∀ instruction ∈ body, isCompose instruction = false)
      (variantsOf m.functions) (expansions.map (·.instructions)) := by
    rw [forall₂_map_right_iff]
    refine forall₂_imp_of_mem related fun variant place expansion expanded => ?_
    have expands := expands_of_gather expanded ?_ ?_
    · exact ⟨expands, expands.plain⟩
    · intro instruction found composes active flaw
      exact resolved (.inr ⟨instruction, ⟨variant, place, found, composes, active⟩, flaw⟩)
    intro instruction found composes active fragment named part fragmentExpanded out mem
    obtain ⟨right, bindings, bound, line, inside, replaced⟩ :=
      (mem_expandFragment fragmentExpanded).1 mem
    by_contra further
    exact single ⟨instruction, fragment,
      ⟨⟨variant, place, found, composes, active⟩, named, right⟩, bindings, bound, line, inside,
      out, replaced, by simpa using further⟩
  rw [← instructions, forall₂_map_right_iff] at each
  exact each

/-- The expansion reports an error or expands everything if and only if the parameters of every
composed line can be replaced and, without an error, no line of a composed fragment is a composition
itself. -/
theorem expandCompositions_complete (m : Module) :
    ExpandsOrReports m ↔ ReplacementsEnd m ∧ (Flawed m ∨ ¬ ComposesFurther m) := by
  rw [replacementsEnd_iff, ← expandCompositions_isSome_iff, Option.isSome_iff_exists]
  constructor
  · rintro ⟨out, expanded, result⟩
    refine ⟨⟨out, expanded⟩, ?_⟩
    rcases result with errors | complete
    · exact .inl ((hasErrors_iff_flawed expanded).1 errors)
    · exact .inr (not_composesFurther_of_expanded expanded complete)
  · rintro ⟨⟨out, expanded⟩, condition⟩
    refine ⟨out, expanded, ?_⟩
    by_cases flawed : Flawed m
    · exact .inl ((hasErrors_iff_flawed expanded).2 flawed)
    · exact .inr (expanded_of_not_composesFurther expanded flawed
        (condition.resolve_left flawed))

/-- A fragment that composes another one: its composition stays in the function, and no error
is reported. -/
def nestedSource : Bytes := ascii
  "fragment zero(dst)
  mov $0, dst
fragment clear(to)
  compose zero(to)
export def f(a: u64) -> u64
  inputs:
    a = rdi
  outputs:
    return = rax
  clobbers:
    rax
  body:
    mov %rdi, %rax
    compose clear(%rax)
    ret
"

set_option maxRecDepth 10000 in
theorem nested_composition_remains :
    ¬ ExpandsOrReports (parseDeclarations nestedSource []) := by
  rintro ⟨out, expanded, reported⟩
  have left : ((expandCompositions (parseDeclarations nestedSource [])).any fun out =>
      !hasErrors out.issues && out.functions.any (·.instructions.any isCompose)) = true := by
    rw [show nestedSource = _ from ascii_ofList _]
    decide +kernel
  rw [expanded, Option.any_some, Bool.and_eq_true, Bool.not_eq_true'] at left
  obtain ⟨fn, listed, instruction, mem, composes⟩ : ∃ fn ∈ out.functions,
      ∃ instruction ∈ fn.instructions, isCompose instruction = true := by
    simpa using left.2
  have complete := reported.resolve_left (Bool.eq_false_iff.1 left.1)
  obtain ⟨_, -, -, plain⟩ := forall₂_exists_left complete listed
  simp [plain instruction mem] at composes

end Complete

end Elisa.Easm
