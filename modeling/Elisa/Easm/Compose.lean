import Elisa.Easm.Parse

/-!
# Composed fragments

`expandCompositions` (`easm_parse.elisa`) replaces the compositions of each function by the lines of
their fragments, once for each choice of the flags that the compositions carry.  The parameters of a
fragment are replaced in the text of its lines (`easm_append_instruction_text`,
`easm_verify_provenance.elisa`), and each line is parsed again.  Inputs that a variant has no use
for are taken from it afterwards (`easm_verify_function_conditional_inputs.elisa`).

A parameter without a name makes the replacement go round forever; the model returns `none` there.
-/

namespace Elisa.Easm

/-! ## Replacing parameters -/

/-- The text behind a position with every parameter replaced.  The first parameter that the
text continues with is taken; `skip` bytes belong to the parameter that was replaced last. -/
def substituteFrom (substitutions : List Substitution) : Nat → Bytes → Option Bytes
  | _, [] => some []
  | skip + 1, _ :: rest => substituteFrom substitutions skip rest
  | 0, byte :: rest =>
    match substitutions.find?
      (fun substitution => startsWith (byte :: rest) substitution.source) with
    | some substitution =>
      if substitution.source = [] then none
      else
        (substituteFrom substitutions (substitution.source.length - 1) rest).map
          (substitution.replacement ++ ·)
    | none => (substituteFrom substitutions 0 rest).map (byte :: ·)

def instructionText (instruction : Instruction) : Option Bytes :=
  if instruction.substitutions = [] then some instruction.text
  else substituteFrom instruction.substitutions 0 instruction.text

/-! ## Variants of a function -/

def isCompose (instruction : Instruction) : Bool := startsWith instruction.op (ascii "compose")

def composeFlags (instructions : List Instruction) : List Bytes :=
  instructions.foldl
    (fun flags instruction =>
      let flag := (parseCompose instruction.text).flag
      if !isCompose instruction || flag == [] || flags.contains flag then flags
      else flags ++ [flag])
    []

/-- `1 << count` in 64 bits, as a number of rounds. -/
def variantCount (count : Nat) : Nat := (1#64 <<< count).toInt.toNat

def composeActive (flags : List Bytes) (mask : Nat) (info : ComposeInfo) : Bool :=
  info.flag == [] || flags.zipIdx.any fun (flag, index) => flag == info.flag && mask.testBit index

structure Expansion where
  issues : List Issue
  instructions : List Instruction
  requires : List Bytes
  clobbers : List Bytes
  preserves : List Bytes
  deriving DecidableEq

namespace Expansion

def empty : Expansion := { issues := [], instructions := [], requires := [], clobbers := [],
                           preserves := [] }

def append (first second : Expansion) : Expansion :=
  { issues := first.issues ++ second.issues
    instructions := first.instructions ++ second.instructions
    requires := first.requires ++ second.requires
    clobbers := first.clobbers ++ second.clobbers
    preserves := first.preserves ++ second.preserves }

def issue (code : String) (line : Int) (message : String) : Expansion :=
  { empty with issues := [errorIssue code line message] }

def kept (instruction : Instruction) : Expansion := { empty with instructions := [instruction] }

def gather {α : Type} (expand : α → Option Expansion) : List α → Option Expansion
  | [] => some empty
  | element :: rest => (expand element).bind fun first => (gather expand rest).map first.append

end Expansion

def fragmentBindings (fragment : Function) (composition : Instruction) :
    Option (List Substitution) :=
  (fragment.params.zipIdx.mapM fun (parameter, index) =>
    (composeSpan composition.text index).map fun (start, stop) =>
      { source := parameter.name, replacement := slice composition.text start stop })

def materializeLine (composition : Instruction) (bindings : List Substitution)
    (line : Instruction) : Option Instruction :=
  if bindings = [] then some { line with line := composition.line, substitutions := [] }
  else
    -- more than four bindings are reported, and the line is left as it is
    if bindings.length > 4 then some { line with line := composition.line }
    else
      (instructionText { line with substitutions := bindings }).map
        fun text => parseInstruction text composition.line

def expandLine (composition : Instruction) (fragment : Function) (line : Instruction) :
    Option Expansion :=
  match fragmentBindings fragment composition with
  | none => some (.issue "invalid-fragment-span" composition.line
      "compose argument span could not be selected")
  | some bindings => (materializeLine composition bindings line).map .kept

def expandFragment (composition : Instruction) (fragment : Function) : Option Expansion :=
  if (parseCompose composition.text).argumentCount ≠ fragment.params.length then
    some (.issue "fragment-arity" composition.line
      "compose argument count does not match fragment parameters")
  else
    let tooMany : Expansion :=
      if fragment.params.length > 4 then
        .issue "compose-too-many-parameters" composition.line
          "stage1 supports at most four materialized fragment bindings per instruction"
      else .empty
    let contracts : Expansion :=
      { Expansion.empty with requires := fragment.requires, clobbers := fragment.clobbers,
                             preserves := fragment.preserves }
    (Expansion.gather (expandLine composition fragment) fragment.instructions).map
      fun body => tooMany.append (body.append contracts)

def namedFragments (fragments : List Function) (composition : Instruction) : List Function :=
  fragments.filter fun fragment => fragment.name == (parseCompose composition.text).name

def expandInstruction (fragments : List Function) (flags : List Bytes) (mask : Nat)
    (instruction : Instruction) : Option Expansion :=
  if !isCompose instruction then some (.kept instruction)
  else if !composeActive flags mask (parseCompose instruction.text) then some .empty
  else
    match namedFragments fragments instruction with
    | [] => some (.issue "unknown-fragment" instruction.line
        "compose references an unknown fragment")
    | named => Expansion.gather (expandFragment instruction) named

def variantName (name : Bytes) (flags : List Bytes) (mask : Nat) : Bytes :=
  name ++ flags.zipIdx.flatMap fun (flag, index) =>
    if mask.testBit index then ascii "__" ++ flag else []

def expandVariant (fragments : List Function) (original : Function) (mask : Nat) :
    Option (List Issue × Function) :=
  let flags := composeFlags original.instructions
  (Expansion.gather (expandInstruction fragments flags mask) original.instructions).map
    fun expansion =>
      (expansion.issues,
        { original with
          name := variantName original.name flags mask
          instructions := expansion.instructions
          requires := original.requires ++ expansion.requires
          clobbers := original.clobbers ++ expansion.clobbers
          preserves := original.preserves ++ expansion.preserves })

/-! ## Conditional inputs -/

def bindingName (binding : Bytes) : Bytes :=
  let equals := find binding (ascii "=")
  if equals ≥ binding.length then [] else trim (slice binding 0 equals)

def bindingRegister (binding : Bytes) : Bytes :=
  let equals := find binding (ascii "=")
  if equals ≥ binding.length then [] else registerOperand (after binding (equals + 1))

def instructionReadsRegister (instruction : Instruction) (wanted : Bytes) : Bool :=
  let bit := registerBit wanted
  let source := firstOperand instruction.text
  !instruction.pseudo && bit != 0 &&
    (registerBit (registerOperand source) == bit ||
      registerBit (memoryBaseRegister source) == bit)

def functionReadsRegister (fn : Function) (wanted : Bytes) : Bool :=
  fn.instructions.any fun instruction => instructionReadsRegister instruction wanted

/-- The inputs that some variant reads are dropped from the variants that do not read them. -/
def pruneConditionalInputs (variants : List Function) : List Function :=
  let everUsed := (variants.flatMap fun variant => variant.inputs.map fun input =>
    if functionReadsRegister variant (bindingRegister input) then
      registerBit (bindingRegister input) else 0).foldl (· ||| ·) 0
  variants.map fun variant =>
    let dropped (input : Bytes) : Bool :=
      let bit := registerBit (bindingRegister input)
      bit != 0 && (everUsed &&& bit) != 0 &&
        !functionReadsRegister variant (bindingRegister input)
    let droppedNames := (variant.inputs.filter dropped).map bindingName
    { variant with
      inputs := variant.inputs.filter fun input => !dropped input
      params := variant.params.filter fun parameter => !droppedNames.contains parameter.name }

/-! ## All functions of a module -/

def variantsOf (functions : List Function) : List (Function × Nat) :=
  functions.flatMap fun fn =>
    (List.range (variantCount (composeFlags fn.instructions).length)).map fun mask => (fn, mask)

def expandFunction (fragments : List Function) (original : Function) :
    Option (List Issue × List Function) :=
  ((List.range (variantCount (composeFlags original.instructions).length)).mapM
    (expandVariant fragments original)).map fun variants =>
      (variants.flatMap (·.1), pruneConditionalInputs (variants.map (·.2)))

def expandCompositions (m : Module) : Option Module :=
  (m.functions.mapM (expandFunction m.fragments)).map fun expanded =>
    { m with issues := m.issues ++ expanded.flatMap (·.1)
             functions := expanded.flatMap (·.2) }

end Elisa.Easm
