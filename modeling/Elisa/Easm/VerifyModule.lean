import Elisa.Easm.VerifyMemory

/-!
# Verification of a module

`verifyModule` collects the issues of all passes over a module (`easm_verify_function.elisa`,
`easm_verify_memory_effects.elisa`); `parseModule` (`easm_parse.elisa`) parses the source, expands
the compositions and verifies the result.
-/

namespace Elisa.Easm

/-! ## Targets -/

def platformKeyMatches (key target : Bytes) : Bool :=
  if key = [] ∨ key = ascii "any" then true
  else if oneOf key ["x86_64", "amd64"] then
    startsWith target (ascii "x86_64") || startsWith target (ascii "amd64")
  else if oneOf key ["aarch64", "arm64"] then
    startsWith target (ascii "aarch64") || startsWith target (ascii "arm64")
  else holds target key

/-- Whether a declared platform admits a target; a list in parentheses asks for all its keys. -/
def targetMatches (declared target : Bytes) : Bool :=
  if declared = [] ∨ declared = ascii "any" then true
  else if declared.head? = some 40 then
    let closing := find declared (ascii ")")
    decide (closing < declared.length) &&
      (splitCommas (slice declared 1 closing)).all fun piece =>
        platformKeyMatches (trim piece) target
  else platformKeyMatches declared target

/-! ## Layouts and protocols -/

def fieldExtentChecked (offset width : Int) : Option Int :=
  if offset < 0 ∨ width < 0 ∨ width > i64Max - offset then none else some (offset + width)

/-- The size of a layout: the declared one, or the end of its last field. -/
def layoutSizeChecked (layout : Layout) : Option Int :=
  let largest := layout.fields.foldl
    (fun largest field => largest.bind fun largest =>
      (fieldExtentChecked field.offset field.width).map (max largest))
    (some 0)
  let declared :=
    if layout.size > 0 then layout.size else if layout.stride > 0 then layout.stride else 0
  largest.map fun largest => if declared > 0 then declared else largest

def verifyLayout (layout : Layout) : List Issue :=
  let total := layoutSizeChecked layout
  layout.fields.flatMap fun (field : LayoutField) =>
    if field.offset < 0 then
      [errorIssue "layout-negative-offset" field.line "layout field offset must be non-negative"]
    else if field.width < 0 then
      [errorIssue "layout-negative-width" field.line "layout field width must be non-negative"]
    else
      match fieldExtentChecked field.offset field.width with
      | none => [errorIssue "layout-field-extent-overflow" field.line
          "layout field extent is not representable as a nonnegative signed 64-bit value"]
      | some extent =>
        match total with
        | none => []
        | some total =>
          issueIf (decide (field.width > 0) && decide (total > 0) && decide (extent > total))
            "layout-field-out-of-bounds" field.line
            "layout field extends past the declared layout size"

def verifyProtocol (protocol : Protocol) : List Issue :=
  protocol.methods.zipIdx.flatMap fun (method, index) =>
    (protocol.methods.take index).flatMap fun earlier =>
      issueIf (method.name == earlier.name) "duplicate-protocol-method" protocol.line
        "protocol method duplicates an earlier declaration"

/-! ## Functions -/

def registerContractAtomValid (atom : Bytes) : Bool :=
  let value := trim atom
  let value := if value.head? = some 37 then after value 1 else value
  oneOf value ["memory", "memory.read", "memory.write", "cc", "flags", "callee_saved"] ||
    registerBit value != 0

def registerContractValuesValid (value : Bytes) : Bool :=
  trim value == [] || (splitCommas (trim value)).all registerContractAtomValid

def verifyRegisterContracts (fn : Function) : List Issue :=
  fn.clobbers.flatMap (fun clobber => issueIf (!registerContractValuesValid clobber)
    "invalid-clobber-register" fn.line
    "clobbers contains an unknown register or machine atom") ++
  fn.preserves.flatMap (fun preserve => issueIf (!registerContractValuesValid preserve)
    "invalid-preserve-register" fn.line
    "preserves contains an unknown register or machine atom")

def verifyFunctionHeader (m : Module) (outerIndex : Nat) (fn : Function) : List Issue :=
  let unbound (binding : Bytes) (code message : String) : List Issue :=
    issueIf (find binding (ascii "=") == binding.length) code fn.line message
  issueIf (fn.name == []) "empty-function-name" fn.line "function name must not be empty" ++
  verifyRegisterContracts fn ++
  issueIf (fn.name != [] && (m.functions.take outerIndex).any fun earlier =>
    fn.name == earlier.name)
    "duplicate-export" fn.line "EASM export duplicates an earlier export" ++
  issueIf (!startsWith fn.returnType (ascii "void") && fn.outputs == []) "missing-return-output"
    fn.line "non-void EASM export must declare an output binding" ++
  fn.inputs.flatMap (unbound · "invalid-input-binding"
    "input binding must use name = register syntax") ++
  fn.outputs.flatMap (unbound · "invalid-output-binding"
    "output binding must use name = register syntax") ++
  issueIf (calleeSavedUnprotected fn) "callee-saved-not-preserved" fn.line
    "callee-saved register is clobbered without a preservation contract" ++
  verifyCalleeSavedPreservation fn ++
  m.protocols.flatMap fun protocol => protocol.methods.flatMap fun method =>
    issueIf (method.name == fn.name && method.arity != fn.params.length)
      "protocol-arity-mismatch" fn.line
      "platform implementation does not match protocol method arity"

def scanEndIssues (fn : Function) (scan : ScanState) : List Issue :=
  issueIf (scan.stackTouched && scan.stackKnown && decide (scan.stackDelta ≠ 0) &&
      !hasWord fn.requires "stack.balance.unchecked") "stack-unbalanced" fn.line
    "stack pointer delta is not restored before function exit" ++
  issueIf (scan.usesCall && fn.stackFacts == [] &&
      !hasWord fn.requires "stack.call_alignment.unchecked") "call-without-stack-contract" fn.line
    "call requires an explicit stack contract" ++
  issueIf (scan.writesSegmentAny && hasWord fn.control "returns" &&
      !hasWord fn.requires "x86_64.segment.restore" &&
      !hasWord fn.requires "x86_64.segment.persistent")
    "segment-register-return-without-lifetime-contract" fn.line
    "returning after writing fs/gs requires restore or persistent segment intent"

def verifyFunctionPost (layouts : List Layout) (fn : Function) (scan : ScanState) : List Issue :=
  scanEndIssues fn scan ++ verifyHandles fn ++ verifyMemoryRoles fn layouts ++
    verifyFrameContracts fn ++ verifyMachineRoles fn

def verifyOneFunction (m : Module) (outerIndex : Nat) (fn : Function) : List Issue :=
  let scan := verifyFunctionInstructions fn
  if !targetMatches fn.platform m.target then []
  else verifyFunctionHeader m outerIndex fn ++ scan.issues ++ verifyFunctionPost m.layouts fn scan

def verifyModuleFunctions (m : Module) : List Issue :=
  m.functions.zipIdx.flatMap fun (fn, index) => verifyOneFunction m index fn

/-! ## Compositions -/

def composeIssues (fragments : List Function) (inst : Instruction) : List Issue :=
  let nameStart := find inst.text (ascii "compose ") + 8
  let nameEnd := firstSpace (after inst.text nameStart) + nameStart
  let opening := find inst.text (ascii "(")
  let nameEnd := if opening ≥ nameStart ∧ opening < nameEnd then opening else nameEnd
  let name := trim (slice inst.text nameStart nameEnd)
  let rest := after inst.text opening
  let arguments := slice rest 1 (find rest (ascii ")"))
  let named := fragments.filter fun fragment => fragment.name == name
  named.flatMap (fun fragment =>
    issueIf (decide (opening < inst.text.length) &&
        composeArgumentCount arguments != fragment.params.length) "fragment-arity" inst.line
      "compose argument count does not match fragment parameters") ++
  issueIf named.isEmpty "unknown-fragment" inst.line "compose references an unknown fragment"

def verifyFunctionCompositions (fragments : List Function) (fn : Function) : List Issue :=
  (fn.instructions.filter isCompose).flatMap (composeIssues fragments) ++
    verifyControlFlowMerges fn

/-! ## Modules -/

def unknownOps (code message : String) (instructions : List Instruction) : List Issue :=
  instructions.flatMap fun inst =>
    issueIf (inst.op == [] || !knownOp inst.op) code inst.line message

def verifyModuleBodies (m : Module) : List Issue :=
  verifyModuleFunctions m ++
  m.fragments.flatMap (fun fragment => unknownOps "unknown-fragment-op"
    "fragment instruction mnemonic is not in the EASM operation set" fragment.instructions) ++
  m.functions.flatMap (verifyFunctionCompositions m.fragments)

def verifyLockstepBody (m : Module) (source : Function) (instructions : List Instruction) :
    List Issue :=
  let body := { source with instructions := instructions, reference := [], targets := [] }
  m.layouts.flatMap verifyLayout ++ m.protocols.flatMap verifyProtocol ++
    verifyModuleBodies
      { m with functions := [body], fragments := [], templates := [], issues := [] }

def verifyLocksteps (m : Module) (fn : Function) : List Issue :=
  (if fn.reference = [] ∧ fn.targets = [] then []
   else
    issueIf (fn.reference == []) "lockstep-missing-reference" fn.line
      "target lockstep implementation requires a reference body" ++
    fn.targets.flatMap fun body =>
      issueIf (body.lockstep != ascii "reference") "lockstep-unknown-reference" body.line
        "lockstep target must name the reference body" ++
      unknownOps "unknown-target-op"
        "target instruction mnemonic is not in the EASM operation set" body.instructions ++
      verifyLockstepBody m fn body.instructions) ++
  unknownOps "unknown-reference-op"
    "reference instruction mnemonic is not in the EASM operation set" fn.reference ++
  if fn.reference = [] then [] else verifyLockstepBody m fn fn.reference

def verifyModule (m : Module) : List Issue :=
  m.layouts.flatMap verifyLayout ++ m.protocols.flatMap verifyProtocol ++
  verifyModuleFunctions m ++ m.functions.flatMap (verifyLocksteps m) ++
  m.fragments.flatMap (fun fragment => unknownOps "unknown-fragment-op"
    "fragment instruction mnemonic is not in the EASM operation set" fragment.instructions) ++
  m.functions.flatMap (verifyFunctionCompositions m.fragments)

/-! ## Templates -/

def templateHoleClass (typeName : Bytes) : Bytes :=
  if oneOf typeName ["u16", "i16", "GuestFsSelector", "HostFsSelector", "GuestGsSelector",
      "HostGsSelector"] then ascii "sel16"
  else ascii "wide64"

def templateOperandClass (op : Bytes) : Bytes :=
  if oneOf op ["movw", "fldcw", "fnstcw"] then ascii "sel16"
  else if oneOf op ["movabs", "movq", "lea", "call", "callq", "jmp", "jmpq", "push", "pushq"] then
    ascii "wide64"
  else []

def analyzeTemplate (template : Template) : Template × List Issue :=
  let used (inst : Instruction) := template.holes.filter fun hole => holds inst.text hole.name
  let points := template.instructions.zipIdx.flatMap fun (inst, index) =>
    (used inst).map fun hole =>
      { hole := hole.name, typeName := hole.typeName, instructionIndex := index
        className := templateOperandClass inst.op }
  let issues := template.instructions.flatMap fun inst =>
    issueIf (inst.op == ascii "compose") "template-compose" inst.line
      "templates may not compose fragments" ++
    (used inst).flatMap fun hole =>
      issueIf (templateOperandClass inst.op != [] &&
          templateOperandClass inst.op != templateHoleClass hole.typeName)
        "template-hole-type-mismatch" inst.line
        "template hole type does not match the instruction operand width"
  let unused := template.holes.flatMap fun hole =>
    issueIf (!template.instructions.any fun inst => holds inst.text hole.name)
      "unused-template-hole" template.line "template hole is declared but never referenced"
  ({ template with patchPoints := points }, issues ++ unused)

def analyzeTemplates (m : Module) : Module :=
  let analyzed := m.templates.map analyzeTemplate
  { m with templates := analyzed.map (·.1), issues := m.issues ++ analyzed.flatMap (·.2) }

/-! ## The whole front -/

/-- Parse, expand and verify a source; `none` if the expansion does not end. -/
def parseModule (source path : Bytes) : Option Module :=
  (expandCompositions (parseDeclarations source path)).map fun m =>
    let m := analyzeTemplates m
    { m with issues := m.issues ++ verifyModule m }

/-- The module and the function on which a check of a source was made. -/
theorem exists_function {source path : Bytes} {p : Module → Bool} {q : Module → Function → Bool}
    (checked : ((parseModule source path).any fun m => p m && m.functions.any (q m)) = true) :
    ∃ m fn, parseModule source path = some m ∧ p m = true ∧ fn ∈ m.functions ∧ q m fn = true := by
  obtain ⟨m, parsed, found⟩ := (Option.any_eq_true _ _).1 checked
  obtain ⟨sound, found⟩ := Bool.and_eq_true_iff.1 found
  obtain ⟨fn, mem, found⟩ := List.any_eq_true.1 found
  exact ⟨m, fn, parsed, sound, mem, found⟩

end Elisa.Easm
