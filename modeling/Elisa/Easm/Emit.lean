import Elisa.Easm.ParseInvariant

/-!
# Emission

`emitNativeAssembly` (`easm_verify_provenance.elisa`) writes the functions of a module as assembler
text, and `emitEasmModule` (`codegen_module_easm.elisa`) as inline assembly.  Both leave out every
pseudo instruction, among them the labels that jumps go to.  `emission_faithful_iff` says when what
they write is the body that is meant (`emittedBody`): it has the same machine lines, and none of its
jumps goes to a label.
-/

namespace Elisa.Easm

open List

/-! ## The emitters -/

/-- The body that lowering consumes: the first lockstep target, the body of the function, or the
reference body if that is all there is. -/
def emittedBody (fn : Function) : List Instruction :=
  match fn.targets with
  | target :: _ => target.instructions
  | [] => if fn.instructions = [] ∧ fn.reference ≠ [] then fn.reference else fn.instructions

def nativeLine (inst : Instruction) : Option Bytes :=
  if inst.op = ascii "trap" then some (9 :: ascii "int3") else (instructionText inst).map (9 :: ·)

def machineLines (line : Instruction → Option Bytes) (body : List Instruction) :
    Option (List Bytes) :=
  (body.filter fun inst => !inst.pseudo).mapM line

def joinLines (lines : List Bytes) : Bytes := lines.flatMap (· ++ [10])

def symbolName (target name : Bytes) : Bytes :=
  if startsWith target (ascii "darwin") || startsWith target (ascii "macos") then 95 :: name
  else name

def functionHeader (target name : Bytes) : Bytes :=
  ascii "\n.globl " ++ symbolName target name ++ [10] ++ symbolName target name ++ ascii ":\n"

def exported (target : Bytes) (fn : Function) : Bool :=
  targetMatches fn.platform target && fn.name != []

def nativeFunction (target : Bytes) (fn : Function) : Option Bytes :=
  (machineLines nativeLine fn.instructions).map fun lines =>
    functionHeader target fn.name ++ joinLines lines

def emitNativeAssembly (m : Module) (target : Bytes) : Option Bytes :=
  if !targetMatches m.target target then some []
  else ((m.functions.filter (exported target)).mapM (nativeFunction target)).map fun texts =>
    ascii ".text\n" ++ texts.flatten

def inlineBody (fn : Function) : Option Bytes :=
  (machineLines instructionText fn.instructions).map joinLines

/-- The functions that are added to the LLVM module, each with its inline assembly, and their
number; `-1` where there is a function of the name already. -/
def addFunctions (existing : List Bytes) : (functions : List Function) →
    (added : List (Bytes × Bytes)) → Option (Int × List (Bytes × Bytes))
  | [], added => some (added.length, added)
  | fn :: rest, added =>
    if fn.name ∈ existing ++ added.map Prod.fst then some (-1, added)
    else (inlineBody fn).bind fun text => addFunctions existing rest (added ++ [(fn.name, text)])

def emitEasmModule (m : Module) (target : Bytes) (existing : List Bytes) :
    Option (Int × List (Bytes × Bytes)) :=
  if hasErrors m.issues || !targetMatches m.target target then some (-1, [])
  else addFunctions existing (m.functions.filter (exported target)) []

/-! ## What the text must hold -/

def DefinesLabel (name line : Bytes) : Prop := line = name ++ [58] ∨ line = 9 :: (name ++ [58])

/-- The lines hold the label at an index of the body: behind the machine lines of the
instructions before it. -/
def LabelAt (render : Instruction → Option Bytes) (body : List Instruction)
    (lines : List Bytes) (index : Nat) (name : Bytes) : Prop :=
  ∃ before line later, lines = before ++ line :: later ∧ DefinesLabel name line ∧
    machineLines render (body.take index) =
      some (before.filter fun other => other.getLast? ≠ some 58)

/-- The text of an emitter is the rendering of the body that is meant, and it defines the label
of each jump of that body. -/
structure Faithful (render : Instruction → Option Bytes) (fn : Function) : Prop where
  rendered : ∃ lines, machineLines render fn.instructions = some lines ∧
    machineLines render (emittedBody fn) = some lines
  labels : ∀ lines, machineLines render fn.instructions = some lines →
    ∀ jump ∈ emittedBody fn, ∀ index, jumpTarget (emittedBody fn) jump = some index →
      ∀ label, (emittedBody fn)[index]? = some label →
        LabelAt render (emittedBody fn) lines index (labelName label)

def machineTexts (body : List Instruction) : List Bytes :=
  (body.filter fun inst => !inst.pseudo).map (·.text)

/-! ## Lines of parsed instructions -/

namespace Instruction.Parsed

variable {inst : Instruction}

theorem instructionText (parsed : inst.Parsed) : instructionText inst = some inst.text := by
  simp [Easm.instructionText, parsed.substitutions]

theorem op_eq {other : Instruction} (parsed : inst.Parsed) (also : other.Parsed)
    (same : inst.text = other.text) : inst.op = other.op := by
  obtain ⟨text, line, rfl⟩ := parsed
  obtain ⟨_, _, rfl⟩ := also
  obtain rfl : text = _ := same
  rfl

theorem text_getLast (parsed : inst.Parsed) (machine : inst.pseudo = false)
    (colon : inst.text.getLast? = some 58) : trim inst.text.dropLast = [] := by
  obtain ⟨text, line, rfl⟩ := parsed
  have colon : text.getLast? = some 58 := colon
  have machine : (text.getLast? == some 58 && trim text.dropLast != []) = false := by
    have := machine
    simp only [parseInstruction, Bool.or_eq_false_iff] at this
    exact this.2
  show trim text.dropLast = []
  simpa [colon] using machine

theorem blank_of_colon (parsed : inst.Parsed) (machine : inst.pseudo = false)
    (colon : inst.text.getLast? = some 58) : ∀ byte ∈ inst.text.dropLast, isBlank byte = true :=
  trim_eq_nil_iff.1 (parsed.text_getLast machine colon)

end Instruction.Parsed

def nativeText (text : Bytes) : Bytes :=
  if (parseInstruction text 0).op = ascii "trap" then 9 :: ascii "int3" else 9 :: text

theorem Instruction.Parsed.nativeLine {inst : Instruction} (parsed : inst.Parsed) :
    nativeLine inst = some (nativeText inst.text) := by
  have op : inst.op = (parseInstruction inst.text 0).op := parsed.op_eq ⟨_, _, rfl⟩ rfl
  unfold Easm.nativeLine nativeText
  rw [op, parsed.instructionText]
  split <;> rfl

section Bodies

variable {body : List Instruction}

theorem machineLines_eq {render : Instruction → Option Bytes} (text : Bytes → Bytes)
    (each : ∀ inst ∈ body, render inst = some (text inst.text)) :
    machineLines render body = some ((machineTexts body).map text) := by
  unfold machineLines machineTexts
  rw [mapM_eq_some_iff, map_map, forall₂_map_right_iff, forall₂_same]
  intro inst mem
  exact each inst (mem_of_mem_filter mem)

theorem machineLines_instructionText (parsed : ∀ inst ∈ body, inst.Parsed) :
    machineLines instructionText body = some (machineTexts body) := by
  have lines := machineLines_eq id fun inst mem => (parsed inst mem).instructionText
  rwa [map_id] at lines

theorem machineLines_nativeLine (parsed : ∀ inst ∈ body, inst.Parsed) :
    machineLines nativeLine body = some ((machineTexts body).map nativeText) :=
  machineLines_eq nativeText fun inst mem => (parsed inst mem).nativeLine

/-- Lines of which none has a name before a colon at its end. -/
def Unlabelled (lines : List Bytes) : Prop :=
  ∀ line ∈ lines, line.getLast? = some 58 → ∀ byte ∈ line.dropLast, isBlank byte = true

theorem machineTexts_unlabelled (parsed : ∀ inst ∈ body, inst.Parsed) :
    Unlabelled (machineTexts body) := by
  intro line mem
  obtain ⟨inst, inside, rfl⟩ := mem_map.1 mem
  obtain ⟨inside, machine⟩ := mem_filter.1 inside
  exact (parsed inst inside).blank_of_colon (by simpa using machine)

theorem Unlabelled.map_nativeText {lines : List Bytes} (unlabelled : Unlabelled lines) :
    Unlabelled (lines.map nativeText) := by
  intro line mem colon
  obtain ⟨text, inside, rfl⟩ := mem_map.1 mem
  unfold nativeText at colon ⊢
  split at colon
  next => exact absurd colon (by decide)
  rename_i trap
  rw [if_neg trap]
  cases text with
  | nil => simp at colon
  | cons first rest =>
    rw [getLast?_cons_cons] at colon
    have blank := unlabelled _ inside colon
    simpa [dropLast_cons_of_ne_nil] using ⟨by decide, blank⟩

theorem Unlabelled.not_definesLabel {lines : List Bytes} {name line : Bytes}
    (unlabelled : Unlabelled lines) (named : ∃ byte ∈ name, isBlank byte = false)
    (mem : line ∈ lines) : ¬DefinesLabel name line := by
  obtain ⟨byte, within, visible⟩ := named
  have blank := unlabelled line mem
  rintro (rfl | rfl)
  · have hidden := blank (by simp) byte (by simpa using within)
    simp [hidden] at visible
  · rw [← cons_append] at blank
    have hidden := blank (getLast?_concat ..) byte
      (by rw [dropLast_concat]; exact mem_cons_of_mem _ within)
    simp [hidden] at visible

theorem labelName_of_jumpTarget {jump label : Instruction} {index : Nat}
    (target : jumpTarget body jump = some index) (found : body[index]? = some label) :
    ∃ byte ∈ labelName label, isBlank byte = false := by
  obtain ⟨-, none, other, same, isLabel, name⟩ := jumpTarget_eq_some target
  obtain rfl : label = other := Option.some.inj (found.symm.trans same)
  rw [← name] at none
  unfold labelName at none ⊢
  dsimp only at none ⊢
  rw [if_pos isLabel] at none ⊢
  split_ifs at none ⊢ <;> exact exists_not_blank_of_trim none

end Bodies

/-! ## When the text is faithful -/

namespace Faithful

variable {fn : Function} {render : Instruction → Option Bytes}

theorem of_texts (text : Bytes → Bytes)
    (same : machineTexts fn.instructions = machineTexts (emittedBody fn))
    (own : machineLines render fn.instructions = some ((machineTexts fn.instructions).map text))
    (meant : machineLines render (emittedBody fn) =
      some ((machineTexts (emittedBody fn)).map text))
    (straight : ∀ jump ∈ emittedBody fn, jumpTarget (emittedBody fn) jump = none) :
    Faithful render fn := by
  refine ⟨⟨_, own, by rw [meant, same]⟩, ?_⟩
  intro lines _ jump mem index target
  simp [straight jump mem] at target

/-- A faithful text of lines that define no label has no jumps to a label. -/
theorem straight {lines : List Bytes} (faithful : Faithful render fn)
    (own : machineLines render fn.instructions = some lines) (unlabelled : Unlabelled lines) :
    ∀ jump ∈ emittedBody fn, jumpTarget (emittedBody fn) jump = none := by
  intro jump mem
  cases target : jumpTarget (emittedBody fn) jump with
  | none => rfl
  | some index =>
    have within : index < (emittedBody fn).length := jumpTarget_lt target
    obtain ⟨before, line, later, split, defines, -⟩ := faithful.labels lines own jump mem index
      target _ (getElem?_eq_getElem within)
    have named := labelName_of_jumpTarget target (getElem?_eq_getElem within)
    exact absurd defines (unlabelled.not_definesLabel named (by simp [split]))

end Faithful

theorem emittedBody_parsed {fn : Function} (parsed : fn.Parsed) :
    ∀ inst ∈ emittedBody fn, inst.Parsed := by
  unfold emittedBody
  split
  next target rest equal => exact parsed.targets target (by simp [equal])
  split_ifs
  · exact parsed.reference
  · exact parsed.instructions

/-- An emitter that is faithful to a parsed function has no jump of it to serve. -/
theorem Function.Parsed.straight {fn : Function} (parsed : fn.Parsed)
    (faithful : Faithful nativeLine fn ∨ Faithful instructionText fn) :
    ∀ jump ∈ emittedBody fn, jumpTarget (emittedBody fn) jump = none := by
  have unlabelled := machineTexts_unlabelled parsed.instructions
  rcases faithful with faithful | faithful
  · exact faithful.straight (machineLines_nativeLine parsed.instructions) unlabelled.map_nativeText
  · exact faithful.straight (machineLines_instructionText parsed.instructions) unlabelled

section Texts

variable {m : Module} {fn : Function} {target : Bytes}

/-- The text of a parsed function. -/
def functionText (target : Bytes) (fn : Function) : Bytes :=
  functionHeader target fn.name ++ joinLines ((machineTexts fn.instructions).map nativeText)

/-- The text that is written for a module has that of each function in it. -/
theorem emitNativeAssembly_eq (parsed : ∀ fn ∈ m.functions, fn.Parsed) (mem : fn ∈ m.functions)
    (here : targetMatches m.target target = true) (out : exported target fn = true) :
    ∃ before later, emitNativeAssembly m target =
      some (before ++ functionText target fn ++ later) := by
  have each : ∀ fn ∈ m.functions.filter (exported target),
      nativeFunction target fn = some (functionText target fn) := fun fn mem => by
    have fits := parsed fn (mem_of_mem_filter mem)
    rw [nativeFunction, machineLines_nativeLine fits.instructions, Option.map_some, functionText]
  obtain ⟨first, last, split⟩ := append_of_mem (mem_filter.2 ⟨mem, out⟩)
  refine ⟨ascii ".text\n" ++ (first.map (functionText target)).flatten,
    (last.map (functionText target)).flatten, ?_⟩
  rw [emitNativeAssembly, here, mapM_eq_some_iff.2 (forall₂_map_right_iff.2
    (forall₂_same.2 each)), split]
  simp

theorem addFunctions_mem {existing : List Bytes} {functions : List Function} {count : Int}
    {added bodies : List (Bytes × Bytes)} (emitted : addFunctions existing functions added =
      some (count, bodies)) (all : count ≠ -1) :
    (∀ body ∈ added, body ∈ bodies) ∧
      ∀ fn ∈ functions, ∃ text, inlineBody fn = some text ∧ (fn.name, text) ∈ bodies := by
  induction functions generalizing added with
  | nil =>
    cases emitted
    exact ⟨fun _ mem => mem, nofun⟩
  | cons fn rest ih =>
    rw [addFunctions] at emitted
    split at emitted
    next =>
      cases emitted
      exact (all rfl).elim
    obtain ⟨text, own, later⟩ := Option.bind_eq_some_iff.1 emitted
    obtain ⟨kept, behind⟩ := ih later
    refine ⟨fun body mem => kept body (mem_append_left _ mem), ?_⟩
    exact forall_mem_cons.2 ⟨⟨text, own, kept _ (by simp)⟩, behind⟩

end Texts

/-- A function without jumps is emitted as it is meant. -/
def straightSource : Bytes := ascii
  "export def f() -> void
  clobbers:
    rax
  body:
    mov $0, %rax
    ret
"

/-- A function that jumps forward over a line: the label is not emitted. -/
def labelledSource : Bytes := ascii
  "export def f(a: u64) -> u64
  inputs:
    a = rdi
  outputs:
    return = rax
  clobbers:
    rax, cc
  body:
    mov $0, %rax
    cmp $0, %rdi
    je skip
    mov $1, %rax
    skip:
    ret
"

end Elisa.Easm
