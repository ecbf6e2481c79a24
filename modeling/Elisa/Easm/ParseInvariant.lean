import Elisa.Easm.ComposeComplete
import Elisa.Easm.VerifyModule

/-!
# Instructions of a parsed module

Every instruction of a module that `parseModule` returns was built by `parseInstruction`, from a
line of the source or from a line of a fragment with its parameters replaced.  So its operation,
kind and text agree, no label is without a name, and no bindings are left.
-/

namespace Elisa.Easm

/-- The instruction is what the parser makes of some line. -/
def Instruction.Parsed (inst : Instruction) : Prop :=
  ∃ text line, inst = parseInstruction text line

/-- Every line of the function, in all its bodies, is a parsed one. -/
structure Function.Parsed (fn : Function) : Prop where
  instructions : ∀ inst ∈ fn.instructions, inst.Parsed
  reference : ∀ inst ∈ fn.reference, inst.Parsed
  targets : ∀ body ∈ fn.targets, ∀ inst ∈ body.instructions, inst.Parsed

structure Module.Parsed (m : Module) : Prop where
  functions : ∀ fn ∈ m.functions, fn.Parsed
  fragments : ∀ fn ∈ m.fragments, fn.Parsed

namespace Instruction.Parsed

variable {inst : Instruction}

theorem substitutions (parsed : inst.Parsed) : inst.substitutions = [] := by
  obtain ⟨text, line, rfl⟩ := parsed
  rfl

theorem withLine (parsed : inst.Parsed) (line : Int) :
    ({ inst with line := line, substitutions := [] } : Instruction).Parsed := by
  obtain ⟨text, old, rfl⟩ := parsed
  exact ⟨text, line, rfl⟩

end Instruction.Parsed

/-! ## The line parser -/

theorem forall_mem_modify {α : Type} {P : α → Prop} {list : List α} {index : Nat} {f : α → α}
    (all : ∀ a ∈ list, P a) (keep : ∀ a, P a → P (f a)) : ∀ a ∈ list.modify index f, P a := by
  induction list generalizing index with
  | nil => simp
  | cons head tail ih =>
    rw [List.forall_mem_cons] at all
    cases index with
    | zero => simpa using ⟨keep head all.1, all.2⟩
    | succ index => simpa using ⟨all.1, ih all.2⟩

theorem forall_mem_concat {α : Type} {P : α → Prop} {list : List α} {last : α}
    (all : ∀ a ∈ list, P a) (fits : P last) : ∀ a ∈ list ++ [last], P a := by
  simpa [or_imp, forall_and] using ⟨all, fits⟩

section Lines

variable {state : ParseState} {lineView : Bytes}

theorem makeFunction_parsed (line : Int) (fragment : Bool) :
    (makeFunction lineView line fragment).Parsed := by
  constructor <;> simp [makeFunction]

theorem Module.Parsed.modifyFunction (parsed : state.out.Parsed) {change : Function → Function}
    (keep : ∀ fn, fn.Parsed → (change fn).Parsed) : (state.modifyFunction change).out.Parsed :=
  ⟨forall_mem_modify parsed.functions keep, parsed.fragments⟩

theorem Module.Parsed.reportIf (parsed : state.out.Parsed) (condition : Bool)
    (code message : String) : (state.reportIf condition code message).out.Parsed := by
  unfold ParseState.reportIf
  split
  · exact ⟨parsed.functions, parsed.fragments⟩
  · exact parsed

theorem Function.Parsed.ite {condition : Prop} [Decidable condition] {left right : Function}
    (first : left.Parsed) (second : right.Parsed) :
    (if condition then left else right).Parsed := by
  split
  · exact first
  · exact second

/-- A line of a section adds no instruction. -/
theorem addSectionLine_parsed {fn : Function} (parsed : fn.Parsed) (name : Bytes) (line : Int) :
    (addSectionLine name lineView line fn).Parsed := by
  unfold addSectionLine
  repeat' first
    | apply Function.Parsed.ite
    | exact ⟨parsed.instructions, parsed.reference, parsed.targets⟩

section Lines

variable (parsed : state.out.Parsed)
include parsed

/-- An instruction goes to the body that is open. -/
theorem addInstruction_parsed {inst : Instruction} (fits : inst.Parsed) :
    (addInstruction state inst).out.Parsed := by
  unfold addInstruction
  split
  · refine parsed.modifyFunction fun fn same => ?_
    split
    · exact ⟨same.instructions, forall_mem_concat same.reference fits, same.targets⟩
    · split
      · refine ⟨same.instructions, same.reference, ?_⟩
        exact forall_mem_modify same.targets fun body all => forall_mem_concat all fits
      · exact ⟨forall_mem_concat same.instructions fits, same.reference, same.targets⟩
  · refine ⟨parsed.functions, forall_mem_modify parsed.fragments fun fragment same => ?_⟩
    exact ⟨forall_mem_concat same.instructions fits, same.reference, same.targets⟩

theorem parseBodyLine_parsed : (parseBodyLine state lineView).out.Parsed := by
  unfold parseBodyLine
  dsimp only
  split_ifs
  · exact parsed
  · exact parsed
  · exact parsed
  · exact parsed.modifyFunction fun fn same => addSectionLine_parsed same _ _
  · exact parsed
  · exact addInstruction_parsed parsed ⟨lineView, state.lineNumber, rfl⟩

theorem parseInnerLine_parsed : (parseInnerLine state lineView).out.Parsed := by
  unfold parseInnerLine
  dsimp only
  split_ifs
  · unfold parseDeclaration
    dsimp only
    split
    · exact ⟨parsed.functions, forall_mem_concat parsed.fragments (makeFunction_parsed _ _)⟩
    · exact ⟨forall_mem_concat parsed.functions (makeFunction_parsed _ _), parsed.fragments⟩
  · exact ⟨parsed.functions, parsed.fragments⟩
  · exact ⟨parsed.functions, parsed.fragments⟩
  · exact parseBodyLine_parsed parsed
  · exact ⟨parsed.functions, parsed.fragments⟩

theorem parseProtocolLine_parsed : (parseProtocolLine state lineView).out.Parsed := by
  have method : (parseProtocolMethod state lineView).1.out.Parsed := by
    unfold parseProtocolMethod
    extract_lets opening closing rest arrow method
    split
    · exact ⟨parsed.functions, parsed.fragments⟩
    · exact parsed
  unfold parseProtocolLine
  split
  · exact ⟨parsed.functions, parsed.fragments⟩
  split
  · split
    next found =>
      rw [found] at method
      exact method
    next found =>
      rw [found] at method
      exact parseInnerLine_parsed method
  · exact parseInnerLine_parsed parsed

theorem parseLayoutField_parsed : (parseLayoutField state lineView).1.out.Parsed := by
  unfold parseLayoutField
  dsimp only
  generalize fieldText lineView = parts
  have reported := fun a b c d e f => (parsed.reportIf a b c).reportIf d e f
  split
  next =>
    split
    · exact ⟨(reported _ _ _ _ _ _).functions, (reported _ _ _ _ _ _).fragments⟩
    · exact reported _ _ _ _ _ _
  next => exact reported _ _ _ _ _ _

theorem parseLayoutHeader_parsed : (parseLayoutHeader state lineView).out.Parsed := by
  unfold parseLayoutHeader
  extract_lets header colon nameEnd attributes sizeText strideText hasSize hasStride sized strided
  have reported : strided.out.Parsed := (parsed.reportIf _ _ _).reportIf _ _ _
  exact ⟨reported.functions, reported.fragments⟩

theorem parseLayoutLine_parsed : (parseLayoutLine state lineView).out.Parsed := by
  have field : (parseLayoutField state lineView).1.out.Parsed := parseLayoutField_parsed parsed
  unfold parseLayoutLine
  split
  · exact parseLayoutHeader_parsed parsed
  split
  · split
    next found =>
      rw [found] at field
      exact field
    next found =>
      rw [found] at field
      exact parseProtocolLine_parsed field
  · exact parseProtocolLine_parsed parsed

theorem parseTargetBody_parsed {next : ParseState}
    (h : parseTargetBody state lineView = some next) :
    next.out.Parsed := by
  unfold parseTargetBody at h
  dsimp only at h
  split at h
  · obtain rfl := Option.some.inj h
    refine parsed.modifyFunction fun fn same => ?_
    exact ⟨same.instructions, same.reference, forall_mem_concat same.targets (by simp)⟩
  · simp at h

/-- Whatever a line is, what was parsed stays parsed. -/
theorem parseLine_parsed (raw : Bytes) : (parseLine state raw).out.Parsed := by
  unfold parseLine
  dsimp only
  generalize entered : (if state.valid = true then state else
    { state.leave with currentIndex := -1 }) = start
  have begun : start.out.Parsed := by
    rw [← entered]
    split <;> exact parsed
  split_ifs
  · exact begun
  · exact ⟨begun.functions, begun.fragments⟩
  · cases found : parseTargetBody { start with lineNumber := start.lineNumber + 1 } (trim raw) with
    | none => exact ⟨begun.functions, begun.fragments⟩
    | some next =>
      have numbered : { start with lineNumber := start.lineNumber + 1 }.out.Parsed := begun
      simpa [found] using parseTargetBody_parsed numbered found
  · exact ⟨begun.functions, begun.fragments⟩
  · have numbered : { start with lineNumber := start.lineNumber + 1 }.out.Parsed := begun
    exact parseLayoutLine_parsed numbered

end Lines

end Lines

theorem parseDeclarations_parsed (source path : Bytes) :
    (parseDeclarations source path).Parsed := by
  have run : ∀ (lines : List Bytes) (state : ParseState), state.out.Parsed →
      (lines.foldl parseLine state).out.Parsed := by
    intro lines
    induction lines with
    | nil => exact fun state parsed => parsed
    | cons line rest ih => exact fun state parsed => ih _ (parseLine_parsed parsed line)
  exact run _ _ ⟨by simp [emptyModule], by simp [emptyModule]⟩

/-! ## The expansion -/

/-- A line of a fragment is parsed again when its parameters are replaced. -/
theorem materializeLine_parsed {composition line out : Instruction}
    {bindings : List Substitution} (parsed : line.Parsed)
    (h : materializeLine composition bindings line = some out) : out.Parsed := by
  unfold materializeLine at h
  split at h
  next => exact Option.some.inj h ▸ parsed.withLine _
  split at h
  next =>
    have same := parsed.withLine composition.line
    rw [← parsed.substitutions] at same
    exact Option.some.inj h ▸ same
  next =>
    obtain ⟨text, -, rfl⟩ := Option.map_eq_some_iff.1 h
    exact ⟨text, composition.line, rfl⟩

/-- A composition brings in lines of fragments only. -/
theorem expandInstruction_parsed {fragments : List Function} {flags : List Bytes} {mask : Nat}
    {inst : Instruction} {expansion : Expansion} (parsed : inst.Parsed)
    (all : ∀ fragment ∈ fragments, fragment.Parsed)
    (h : expandInstruction fragments flags mask inst = some expansion) :
    ∀ out ∈ expansion.instructions, out.Parsed := by
  intro out mem
  obtain ⟨-, rfl⟩ | ⟨-, -, rfl⟩ | ⟨-, -, -, code, message, rfl⟩ | ⟨-, -, -, parts, related, rfl⟩ :=
    expandInstruction_cases h
  · obtain rfl : out = inst := by simpa [Expansion.kept] using mem
    exact parsed
  · simp [Expansion.empty] at mem
  · simp [Expansion.issue, Expansion.empty] at mem
  rw [Expansion.concat_instructions] at mem
  obtain ⟨part, inside, mem⟩ := List.mem_flatMap.1 mem
  obtain ⟨fragment, named, expanded⟩ := forall₂_exists_left related inside
  obtain ⟨-, bindings, -, line, found, replaced⟩ := (mem_expandFragment expanded).1 mem
  exact materializeLine_parsed
    ((all fragment (List.mem_of_mem_filter named)).instructions line found) replaced

theorem expandVariant_parsed {fragments : List Function} {fn : Function} {mask : Nat}
    {out : List Issue × Function} (parsed : fn.Parsed)
    (all : ∀ fragment ∈ fragments, fragment.Parsed)
    (h : expandVariant fragments fn mask = some out) : out.2.Parsed := by
  obtain ⟨expansion, gathered, rfl⟩ := Option.map_eq_some_iff.1 h
  obtain ⟨parts, related, rfl⟩ := Expansion.gather_eq_some_iff.1 gathered
  refine ⟨?_, parsed.reference, parsed.targets⟩
  intro inst mem
  replace mem : inst ∈ (Expansion.concat parts).instructions := mem
  rw [Expansion.concat_instructions] at mem
  obtain ⟨part, inside, mem⟩ := List.mem_flatMap.1 mem
  obtain ⟨original, found, expanded⟩ := forall₂_exists_left related inside
  exact expandInstruction_parsed (parsed.instructions original found) all expanded inst mem

theorem pruneConditionalInputs_parsed {variants : List Function}
    (all : ∀ fn ∈ variants, fn.Parsed) : ∀ fn ∈ pruneConditionalInputs variants, fn.Parsed := by
  intro fn mem
  obtain ⟨variant, inside, rfl⟩ := List.mem_map.1 mem
  have same := all variant inside
  exact ⟨same.instructions, same.reference, same.targets⟩

theorem expandCompositions_parsed {m out : Module} (parsed : m.Parsed)
    (h : expandCompositions m = some out) : ∀ fn ∈ out.functions, fn.Parsed := by
  obtain ⟨expanded, mapped, rfl⟩ := Option.map_eq_some_iff.1 h
  intro fn mem
  obtain ⟨part, inside, mem⟩ := List.mem_flatMap.1 mem
  obtain ⟨original, found, expandedFunction⟩ :=
    forall₂_exists_left (mapM_eq_some_iff.1 mapped) inside
  obtain ⟨variants, related, rfl⟩ := Option.map_eq_some_iff.1 expandedFunction
  refine pruneConditionalInputs_parsed ?_ fn mem
  intro variant mem
  obtain ⟨pair, inside, rfl⟩ := List.mem_map.1 mem
  obtain ⟨mask, -, expandedVariant⟩ := forall₂_exists_left (mapM_eq_some_iff.1 related) inside
  exact expandVariant_parsed (parsed.functions original found) parsed.fragments expandedVariant

/-- Every instruction of a parsed module is a parsed line. -/
theorem parseModule_parsed {source path : Bytes} {m : Module}
    (h : parseModule source path = some m) : ∀ fn ∈ m.functions, fn.Parsed := by
  obtain ⟨expanded, equal, rfl⟩ := Option.map_eq_some_iff.1 h
  have all := expandCompositions_parsed (parseDeclarations_parsed source path) equal
  exact all

end Elisa.Easm
