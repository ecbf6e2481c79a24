import Elisa.Easm.ComposeComplete
import Elisa.Easm.VerifyModule
import Elisa.Lib.Loop

/-!
# When a parse comes to its end

The one loop of the EASM front that is not bounded by what it goes over replaces the parameters of a
fragment in the text of a line (`easm_append_instruction_text`): its cursor advances by the length
of a parameter's name, which can be empty.  It ends exactly where the replacement of the model is
defined (`appendEnds_iff`), and the parse ends if and only if no composed line brings it to a
nameless parameter (`parseEnds_iff`).
-/

namespace Elisa.Easm

open List

/-! ## The loop -/

structure AppendState where
  cursor : Nat
  out : Bytes
  deriving DecidableEq

def standsAt (text : Bytes) (cursor : Nat) (substitution : Substitution) : Bool :=
  decide (cursor + substitution.source.length ≤ text.length) &&
    slice text cursor (cursor + substitution.source.length) == substitution.source

def AppendState.round (instruction : Instruction) (state : AppendState) : AppendState :=
  match instruction.substitutions.find? (standsAt instruction.text state.cursor) with
  | some substitution =>
    { cursor := state.cursor + substitution.source.length
      out := state.out ++ substitution.replacement }
  | none =>
    { cursor := state.cursor + 1
      out := state.out ++ (instruction.text[state.cursor]?).toList }

def AppendEnds (instruction : Instruction) : Prop :=
  instruction.substitutions = [] ∨
    Lib.Ends (AppendState.round instruction)
      (fun state => instruction.text.length ≤ state.cursor) { cursor := 0, out := [] }

def ParseEnds (source path : Bytes) : Prop :=
  ∀ composition fragment, Composes (parseDeclarations source path) composition fragment →
    ∀ bindings, fragmentBindings fragment composition = some bindings → bindings.length ≤ 4 →
      ∀ line ∈ fragment.instructions, AppendEnds { line with substitutions := bindings }

/-! ## The loop and the replacement -/

section Append

variable {text : Bytes} {substitutions : List Substitution} {instruction : Instruction}
  {cursor : Nat}

theorem standsAt_eq (within : cursor ≤ text.length) (substitution : Substitution) :
    standsAt text cursor substitution = startsWith (text.drop cursor) substitution.source := by
  rw [Bool.eq_iff_iff, standsAt, startsWith, isPrefixOf_iff_prefix, Bool.and_eq_true,
    decide_eq_true_iff, beq_iff_eq, slice, drop_take, prefix_iff_eq_take,
    Nat.add_sub_cancel_left]
  constructor
  · rintro ⟨-, same⟩
    exact same.symm
  · intro same
    have length := congrArg List.length same
    rw [length_take, length_drop] at length
    exact ⟨by omega, same.symm⟩

theorem substituteFrom_drop (substitutions : List Substitution) (skip : Nat) (text : Bytes) :
    substituteFrom substitutions skip text = substituteFrom substitutions 0 (text.drop skip) := by
  induction text generalizing skip with
  | nil => simp [substituteFrom]
  | cons byte rest ih =>
    cases skip with
    | zero => rfl
    | succ skip => simpa [substituteFrom] using ih skip

theorem substituteFrom_at (going : cursor < text.length) :
    substituteFrom substitutions 0 (text.drop cursor) =
      match substitutions.find? (standsAt text cursor) with
      | some substitution =>
        if substitution.source = [] then none
        else (substituteFrom substitutions 0 (text.drop (cursor + substitution.source.length))).map
          (substitution.replacement ++ ·)
      | none => (substituteFrom substitutions 0 (text.drop (cursor + 1))).map
          ((text[cursor]?).toList ++ ·) := by
  have here : standsAt text cursor = fun substitution =>
      startsWith (text.drop cursor) substitution.source :=
    funext fun substitution => standsAt_eq going.le substitution
  rw [here, getElem?_eq_getElem going, drop_eq_getElem_cons going, substituteFrom]
  cases substitutions.find? _ with
  | none => rfl
  | some substitution =>
    cases source : substitution.source with
    | nil => simp [source]
    | cons first name =>
      simp [source, substituteFrom_drop substitutions name.length, Nat.add_assoc,
        Nat.add_comm 1 name.length]

theorem round_of_substituteFrom {out tail : Bytes} (within : cursor ≤ instruction.text.length)
    (h : substituteFrom instruction.substitutions 0 (instruction.text.drop cursor) = some tail) :
    ∃ rounds, (AppendState.round instruction)^[rounds] { cursor := cursor, out := out } =
      { cursor := instruction.text.length, out := out ++ tail } := by
  induction left : instruction.text.length - cursor using Nat.strong_induction_on
    generalizing cursor out tail with
  | h left ih =>
    by_cases last : instruction.text.length ≤ cursor
    · rw [drop_eq_nil_of_le last, substituteFrom, Option.some.injEq] at h
      exact ⟨0, by simp [← h, Nat.le_antisymm within last]⟩
    have further {next : Nat} {piece rest : Bytes} (upTo : next ≤ instruction.text.length)
        (advances : cursor < next)
        (step : AppendState.round instruction { cursor := cursor, out := out } =
          { cursor := next, out := out ++ piece })
        (later : substituteFrom instruction.substitutions 0 (instruction.text.drop next) =
          some rest) (whole : piece ++ rest = tail) :
        ∃ rounds, (AppendState.round instruction)^[rounds] { cursor := cursor, out := out } =
          { cursor := instruction.text.length, out := out ++ tail } := by
      obtain ⟨rounds, reached⟩ := @ih _ (by omega) next (out ++ piece) rest upTo later rfl
      refine ⟨rounds + 1, ?_⟩
      rw [Function.iterate_succ_apply, step, reached, append_assoc, whole]
    rw [substituteFrom_at (not_le.1 last)] at h
    cases found : instruction.substitutions.find? (standsAt instruction.text cursor) with
    | none =>
      rw [found] at h
      obtain ⟨rest, later, whole⟩ := Option.map_eq_some_iff.1 h
      refine further (by omega) (Nat.lt_succ_self cursor) ?_ later whole
      rw [AppendState.round, found]
    | some substitution =>
      rw [found] at h
      dsimp only at h
      split at h
      next => simp at h
      rename_i named
      obtain ⟨rest, later, whole⟩ := Option.map_eq_some_iff.1 h
      have stands := find?_some found
      rw [standsAt, Bool.and_eq_true, decide_eq_true_iff] at stands
      have advances : cursor < cursor + substitution.source.length :=
        Nat.lt_add_of_pos_right (length_pos_iff.2 named)
      refine further stands.1 advances ?_ later whole
      rw [AppendState.round, found]

theorem not_ends_of_substituteFrom {out : Bytes} (within : cursor ≤ instruction.text.length)
    (h : substituteFrom instruction.substitutions 0 (instruction.text.drop cursor) = none) :
    ¬ Lib.Ends (AppendState.round instruction)
      (fun state => instruction.text.length ≤ state.cursor) { cursor := cursor, out := out } := by
  induction left : instruction.text.length - cursor using Nat.strong_induction_on
    generalizing cursor out with
  | h left ih =>
    by_cases last : instruction.text.length ≤ cursor
    · rw [drop_eq_nil_of_le last, substituteFrom] at h
      simp at h
    rw [substituteFrom_at (not_le.1 last)] at h
    cases found : instruction.substitutions.find? (standsAt instruction.text cursor) with
    | none =>
      rw [found] at h
      rw [Lib.ends_iff_round (by simpa using last), AppendState.round, found]
      dsimp only
      exact ih _ (by omega) (by omega) (Option.map_eq_none_iff.1 h) rfl
    | some substitution =>
      rw [found] at h
      dsimp only at h
      split at h
      next nameless =>
        refine @Lib.not_ends_of_stuck _ _ _ _ (fun state => state.cursor = cursor) ?_ ?_ rfl
        · rintro state rfl
          exact last
        · rintro state rfl
          simp [AppendState.round, found, nameless]
      rename_i named
      have stands := find?_some found
      rw [standsAt, Bool.and_eq_true, decide_eq_true_iff] at stands
      have advances := length_pos_iff.2 named
      rw [Lib.ends_iff_round (by simpa using last), AppendState.round, found]
      dsimp only
      exact ih _ (by omega) stands.1 (Option.map_eq_none_iff.1 h) rfl

theorem appendEnds_iff : AppendEnds instruction ↔ (instructionText instruction).isSome := by
  unfold AppendEnds instructionText
  split
  next none => simp [none]
  rename_i some
  simp only [some, false_or]
  cases text : substituteFrom instruction.substitutions 0 instruction.text with
  | none =>
    have goesOn := @not_ends_of_substituteFrom instruction 0 []
      (Nat.zero_le _) (by simpa using text)
    simpa using goesOn
  | some tail =>
    obtain ⟨rounds, last⟩ := @round_of_substituteFrom instruction 0 [] tail
      (Nat.zero_le _) (by simpa using text)
    simp only [Option.isSome_some, iff_true]
    exact ⟨rounds, by rw [last]⟩

end Append

/-! ## Nameless parameters -/

/-- A text is a row of names, each the first of a list that the text continues with. -/
inductive Tiled (names : List Bytes) : Bytes → Prop
  | done : Tiled names []
  | name {name rest : Bytes} (some : name ≠ [])
      (first : names.find? (startsWith (name ++ rest) ·) = Option.some name)
      (tail : Tiled names rest) : Tiled names (name ++ rest)

/-- The replacement never comes to a nameless parameter: there is none, or the line is a row of
the names that stand before it. -/
def NamesFirst (names : List Bytes) (text : Bytes) : Prop :=
  [] ∉ names ∨ Tiled (names.takeWhile (· ≠ [])) text

/-- No composition brings the replacement to a nameless parameter. -/
def ParametersNamed (source path : Bytes) : Prop :=
  ∀ composition fragment, Composes (parseDeclarations source path) composition fragment →
    (fragmentBindings fragment composition).isSome → fragment.params.length ≤ 4 →
      fragment.params ≠ [] → ∀ line ∈ fragment.instructions,
        NamesFirst (fragment.params.map (·.name)) line.text

section Names

variable {substitutions : List Substitution} {text : Bytes} {names : List Bytes}

theorem find?_takeWhile (nameless : [] ∈ names) (text : Bytes) :
    (∃ name, name ≠ [] ∧ names.find? (startsWith text ·) = some name ∧
      (names.takeWhile (· ≠ [])).find? (startsWith text ·) = some name) ∨
    names.find? (startsWith text ·) = some [] ∧
      (names.takeWhile (· ≠ [])).find? (startsWith text ·) = none := by
  induction names with
  | nil => simp at nameless
  | cons name rest ih =>
    by_cases empty : name = []
    · right
      simp [empty, startsWith]
    have rest := ih ((mem_cons.1 nameless).resolve_left (Ne.symm empty))
    by_cases fits : startsWith text name = true
    · left
      exact ⟨name, empty, by simp [fits], by simp [empty, fits]⟩
    · simpa [empty, fits] using rest

theorem find?_source : (substitutions.map (·.source)).find? (startsWith text ·) =
    (substitutions.find? fun substitution =>
      startsWith text substitution.source).map (·.source) := by
  rw [find?_map]
  rfl

theorem tiled_first (some : text ≠ []) (tiled : Tiled names text) :
    (names.find? (startsWith text ·)).isSome := by
  cases tiled with
  | done => exact absurd rfl some
  | name _ first _ => simp [first]

theorem tiled_name_iff {name rest : Bytes}
    (first : names.find? (startsWith (name ++ rest) ·) = some name) (some : name ≠ []) :
    Tiled names (name ++ rest) ↔ Tiled names rest := by
  constructor
  · intro tiled
    generalize whole : name ++ rest = text at tiled first
    cases tiled with
    | done => simp [some] at whole
    | @name other others _ here tail =>
      obtain rfl : other = name := Option.some.inj (here.symm.trans first)
      exact append_cancel_left whole ▸ tail
  · exact .name some first

theorem substituteFrom_isSome_iff_tiled (nameless : [] ∈ substitutions.map (·.source)) :
    (substituteFrom substitutions 0 text).isSome ↔
      Tiled ((substitutions.map (·.source)).takeWhile (· ≠ [])) text := by
  induction size : text.length using Nat.strong_induction_on generalizing text with
  | h left ih =>
    cases text with
    | nil => simp [substituteFrom, Tiled.done]
    | cons byte rest =>
      have going : byte :: rest ≠ [] := cons_ne_nil byte rest
      rw [substituteFrom]
      rcases find?_takeWhile nameless (byte :: rest) with ⟨name, named, found, first⟩ |
        ⟨found, none⟩
      all_goals
        rw [find?_source] at found
        obtain ⟨substitution, found, source⟩ := Option.map_eq_some_iff.1 found
        rw [found]
        dsimp only
      · have fits : startsWith (byte :: rest) name = true := by
          simpa [source] using find?_some found
        obtain ⟨tail, whole⟩ := isPrefixOf_iff_prefix.1 fits
        rw [source, if_neg named, Option.isSome_map, substituteFrom_drop]
        have behind : rest.drop (name.length - 1) = tail := by
          cases name with
          | nil => exact absurd rfl named
          | cons letter letters =>
            rw [cons_append, List.cons.injEq] at whole
            rw [← whole.2]
            simp
        have shorter : tail.length < left := by
          have length := congrArg List.length whole
          have positive := length_pos_iff.2 named
          rw [length_append, size] at length
          omega
        rw [behind, ih tail.length shorter rfl]
        rw [← whole] at first ⊢
        exact (tiled_name_iff first named).symm
      · rw [if_pos source]
        refine iff_of_false (by simp) fun tiled => ?_
        have some := tiled_first going tiled
        rw [none] at some
        simp at some

theorem substituteFrom_isSome_of_named (named : [] ∉ substitutions.map (·.source)) :
    (substituteFrom substitutions 0 text).isSome := by
  induction size : text.length using Nat.strong_induction_on generalizing text with
  | h left ih =>
    cases text with
    | nil => simp [substituteFrom]
    | cons byte rest =>
      rw [length_cons] at size
      rw [substituteFrom]
      split
      next substitution found =>
        have source : substitution.source ≠ [] := by
          intro nameless
          exact named (nameless ▸ mem_map_of_mem (mem_of_find?_eq_some found))
        rw [if_neg source, Option.isSome_map, substituteFrom_drop]
        exact ih _ (by rw [length_drop]; omega) rfl
      next =>
        rw [Option.isSome_map]
        exact ih _ (by omega) rfl

theorem substituteFrom_isSome_iff : (substituteFrom substitutions 0 text).isSome ↔
    NamesFirst (substitutions.map (·.source)) text := by
  unfold NamesFirst
  by_cases nameless : [] ∈ substitutions.map (·.source)
  · rw [substituteFrom_isSome_iff_tiled nameless]
    simp [nameless]
  · simp [substituteFrom_isSome_of_named nameless, nameless]

theorem fragmentBindings_names {fragment : Function} {composition : Instruction}
    {bindings : List Substitution} (h : fragmentBindings fragment composition = some bindings) :
    bindings.map (·.source) = fragment.params.map (·.name) := by
  have related := mapM_eq_some_iff.1 h
  have names : List.Forall₂ (fun parameter binding => binding.source = parameter.1.name)
      fragment.params.zipIdx bindings := by
    refine related.imp fun parameter binding bound => ?_
    obtain ⟨span, -, rfl⟩ := Option.map_eq_some_iff.1 bound
    rfl
  have first : fragment.params.map (·.name) = fragment.params.zipIdx.map (·.1.name) := by
    conv_lhs => rw [← zipIdx_map_fst 0 fragment.params, map_map]
    rfl
  rw [first]
  clear related h first
  generalize fragment.params.zipIdx = parameters at names ⊢
  induction names with
  | nil => rfl
  | cons same _ ih => rw [map_cons, map_cons, same, ih]

end Names

/-! ## The parse -/

section Parses

variable {source path : Bytes}

theorem parseModule_isSome_iff : (parseModule source path).isSome ↔ ParseEnds source path := by
  rw [parseModule, Option.isSome_map, expandCompositions_isSome_iff, ← replacementsEnd_iff]
  refine forall₂_congr fun composition fragment => forall_congr' fun composes => ?_
  refine forall₂_congr fun bindings bound => ?_
  constructor
  · intro defined few line mem
    have line := defined line mem
    rw [appendEnds_iff]
    unfold materializeLine at line
    split at line
    next none => simp [instructionText, none]
    next =>
      rw [if_neg (not_lt.2 few), Option.isSome_map] at line
      exact line
  · intro ends line mem
    unfold materializeLine
    split
    next => rfl
    split
    next => rfl
    next few =>
      rw [Option.isSome_map, ← appendEnds_iff]
      exact ends (not_lt.1 few) line mem

/-- A parse comes to its end if and only if no composition of the source brings the replacement
of its parameters to one without a name. -/
theorem parseEnds_iff (source path : Bytes) :
    ParseEnds source path ↔ ParametersNamed source path := by
  refine forall₂_congr fun composition fragment => forall_congr' fun composes => ?_
  have each {bindings : List Substitution} {line : Instruction}
      (bound : fragmentBindings fragment composition = some bindings)
      (some : fragment.params ≠ []) : AppendEnds { line with substitutions := bindings } ↔
        NamesFirst (fragment.params.map (·.name)) line.text := by
    have bindings_ne : bindings ≠ [] := by
      rintro rfl
      exact some (length_eq_zero_iff.1 (length_fragmentBindings bound).symm)
    rw [appendEnds_iff, instructionText, if_neg bindings_ne, substituteFrom_isSome_iff,
      fragmentBindings_names bound]
  constructor
  · intro ends bound few some line mem
    obtain ⟨bindings, bound⟩ := Option.isSome_iff_exists.1 bound
    exact (each bound some).1 (ends bindings bound (length_fragmentBindings bound ▸ few) line mem)
  · intro named bindings bound few line mem
    by_cases none : fragment.params = []
    · left
      have length := length_fragmentBindings bound
      rw [none] at length
      exact length_eq_zero_iff.1 length
    · exact (each bound none).2 (named (by rw [bound]; rfl)
        (length_fragmentBindings bound ▸ few) none line mem)

/-- A fragment whose parameter has a type and no name. -/
def namelessSource : Bytes := ascii
  "fragment zero(:u64)
  mov $0, %rax
export def f() -> void
  clobbers:
    rax
  body:
    compose zero(rax)
    ret
"

theorem namelessSource_loops : ¬ ParseEnds namelessSource [] := by
  rw [← parseModule_isSome_iff, show namelessSource = _ from ascii_ofList _]
  decide +kernel

end Parses

end Elisa.Easm
