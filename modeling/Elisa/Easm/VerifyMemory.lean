import Elisa.Easm.Flow

/-!
# Verification of memory roles and preserved registers

The checks of `easm_verify_memory.elisa`: where the base of an address comes from, which fields of a
layout it may touch, which parameters a body reads and changes, and that callee-saved registers are
saved before they are written and restored after.
-/

namespace Elisa.Easm

/-! ## Types carried by registers, in the order of the text -/

structure MemoryProvenance where
  register : Bytes
  typeName : Bytes
  parameter : Bytes
  deriving DecidableEq

def provenanceRegistersEqual (left right : Bytes) : Bool :=
  registerBit left != 0 && registerBit left == registerBit right

def provenanceEntry (states : List MemoryProvenance) (register : Bytes) :
    Option MemoryProvenance :=
  states.find? fun state => provenanceRegistersEqual state.register register

def provenanceType (states : List MemoryProvenance) (register : Bytes) : Bytes :=
  match provenanceEntry states register with
  | some state => state.typeName
  | none => []

def provenanceParameter (states : List MemoryProvenance) (register : Bytes) : Bytes :=
  match provenanceEntry states register with
  | some state => state.parameter
  | none => []

/-- The first entry of a register is replaced, or a new one stands at the end. -/
def provenanceSetParameter (states : List MemoryProvenance) (register typeName parameter : Bytes) :
    List MemoryProvenance :=
  let entry := { register := register, typeName := typeName, parameter := parameter }
  match states.findIdx? fun state => provenanceRegistersEqual state.register register with
  | some index => states.set index entry
  | none => states ++ [entry]

def updateMemoryProvenance (states : List MemoryProvenance) (inst : Instruction) :
    List MemoryProvenance :=
  let op := inst.op
  let writes := if startsWith op (ascii "call") then callClobberMask else implicitWriteMask op
  if inst.pseudo then states
  else if writes ≠ 0 then
    states.map fun state =>
      if setBit writes (registerBit state.register) then
        { state with typeName := [], parameter := [] }
      else state
  else
    let destination := registerOperand inst.destination
    let source := registerOperand inst.source
    let wide := addressRegisterWidth destination = .width64
    let copy (states : List MemoryProvenance) (target carrier : Bytes) : List MemoryProvenance :=
      provenanceSetParameter states target (provenanceType states carrier)
        (provenanceParameter states carrier)
    if startsWith op (ascii "xchg") then
      if wide ∧ addressRegisterWidth source = .width64 ∧ oneOf op ["xchgq", "xchg"] then
        provenanceSetParameter (copy states source destination) destination
          (provenanceType states source) (provenanceParameter states source)
      else
        let states := if source ≠ [] then provenanceSetParameter states source [] [] else states
        if destination ≠ [] then provenanceSetParameter states destination [] [] else states
    else if destination = [] then states
    else if oneOf op ["mov", "movq"] ∧ wide ∧
        (source = [] ∨ addressRegisterWidth source = .width64) then copy states destination source
    else if oneOf op ["lea", "leaq"] ∧ wide ∧
        addressRegisterWidth (memoryBaseRegister inst.source) = .width64 then
      copy states destination (memoryBaseRegister inst.source)
    else if keepsCarrier op ∧ wide then copy states destination destination
    else provenanceSetParameter states destination [] []

def inputProvenance (fn : Function) : List MemoryProvenance :=
  fn.inputs.foldl
    (fun states input =>
      if bindingRegister input = [] then states
      else provenanceSetParameter states (bindingRegister input)
        (paramType fn (bindingName input)) (bindingName input))
    []

def memoryProvenanceType (fn : Function) (register : Bytes) : Bytes :=
  provenanceType (fn.instructions.foldl updateMemoryProvenance (inputProvenance fn)) register

/-! ## Bases of addresses -/

def rawScalarType (typeName : Bytes) : Bool :=
  oneOf typeName ["u8", "u16", "u32", "u64", "i8", "i16", "i32", "i64", "usize", "uintptr"]

def specialMemoryBase (register : Bytes) : Bool :=
  register == [] || register == ascii "rsp" || register == ascii "rip"

def addressFormIssues (inst : Instruction) : List Issue :=
  let scan := scanInstruction inst.text
  let operands :=
    if scan.count = 0 then [] else if scan.count = 1 then [inst.source]
    else [inst.source, inst.destination]
  if inst.pseudo || !scan.valid || decide (scan.count > 2) then []
  else operands.flatMap fun operand =>
    if !memoryOperand operand then []
    else if holds operand (ascii "[") || holds operand (ascii "]") then
      [errorIssue "unsupported-bracket-address" inst.line
        "square-bracket memory operands are not supported by the verified EASM address model"]
    else issueIf (memoryBaseRegister operand == []) "unresolved-memory-base" inst.line
      "memory operand has no parsed register base"

def rawBaseIssues (fn : Function) (inst : Instruction) : List Issue :=
  if inst.pseudo || startsWith inst.op (ascii "lea") then []
  else (addressOperands inst).flatMap fun operand =>
    let base := memoryBaseRegister operand
    issueIf (memoryOperand operand && !specialMemoryBase base &&
        rawScalarType (memoryProvenanceType fn base) &&
        !hasWord fn.requires "memory.base.untyped") "raw-memory-base" inst.line
      ("raw scalar register used as a memory base; use a typed pointer carrier or require " ++
        "memory.base.untyped")

def carrierLayout (typeName : Bytes) : Bytes :=
  let opening := find typeName (ascii "[")
  if opening ≥ typeName.length then []
  else
    let rest := after typeName opening
    trim (slice rest 1 (find rest (ascii "]")))

def sizeGuardLowerBound (facts : List Bytes) : Int :=
  facts.foldl
    (fun greatest fact =>
      let marker := find fact (ascii "size >=")
      let candidate :=
        if marker ≥ fact.length then greatest
        else max greatest (parseI64 (trim (after fact (marker + 7))))
      max candidate 0)
    0

def layoutIssues (fn : Function) (inst : Instruction) (operand : Bytes) (layout : Layout) :
    List Issue :=
  match memoryDisplacementChecked operand with
  | none => [errorIssue "invalid-memory-displacement" inst.line
      "layout memory displacement must be a valid signed 64-bit decimal integer"]
  | some displacement =>
    match layout.fields.find? (fun field => field.offset == displacement) with
    | none => [errorIssue "layout-unknown-field" inst.line
        "memory displacement is not a declared field in the carrier layout"]
    | some field =>
      if field.offset < 0 then
        [errorIssue "layout-unknown-field" inst.line
          "memory displacement is not a declared field in the carrier layout"]
      else
        let width := accessWidth inst.op
        issueIf (decide (width > 0) && decide (field.width > 0) && decide (width ≠ field.width))
          "layout-field-width-mismatch" inst.line
          "memory access width does not match the declared layout field width" ++
        issueIf (decide (field.requiresSizeAtLeast > 0) &&
            decide (field.requiresSizeAtLeast > sizeGuardLowerBound fn.facts))
          "overlay-field-needs-size-guard" inst.line
          ("layout field requires a dominating runtime size guard at least as strong as its " ++
            "declared lower bound")

/-- The type of a base where the text stands: what the text has established, or the type of the
input if the text has not mentioned the register. -/
def baseType (fn : Function) (states : List MemoryProvenance) (base : Bytes) : Bytes :=
  match provenanceEntry states base with
  | some state => state.typeName
  | none => inputTypeForRegister fn base

def baseIssues (fn : Function) (layouts : List Layout) (states : List MemoryProvenance)
    (inst : Instruction) (operand : Bytes) : List Issue :=
  let base := memoryBaseRegister operand
  let typeName := baseType fn states base
  let untyped := hasWord fn.requires "memory.base.untyped"
  if !memoryOperand operand || specialMemoryBase base then []
  else
    issueIf (typeName == [] && !untyped) "raw-memory-base" inst.line
      "memory base provenance was not established from a typed carrier" ++
    issueIf (rawScalarType typeName && !untyped) "raw-memory-base" inst.line
      ("raw scalar register used as a memory base; use a typed pointer carrier or require " ++
        "memory.base.untyped") ++
    (if carrierLayout typeName = [] then []
     else (layouts.filter fun layout => layout.name == carrierLayout typeName).flatMap
      (layoutIssues fn inst operand))

/-- The scan of the addresses of a body, with the types that the text has established. -/
def memoryRoleScan (fn : Function) (layouts : List Layout) :
    List MemoryProvenance → List Instruction → List Issue
  | _, [] => []
  | states, inst :: rest =>
    (if inst.pseudo || startsWith inst.op (ascii "lea") then []
     else (addressOperands inst).flatMap (baseIssues fn layouts states inst)) ++
      memoryRoleScan fn layouts (updateMemoryProvenance states inst) rest

def verifyMemoryRoles (fn : Function) (layouts : List Layout) : List Issue :=
  fn.instructions.flatMap addressFormIssues ++
  fn.instructions.flatMap (rawBaseIssues fn) ++
  memoryRoleScan fn layouts (inputProvenance fn) fn.instructions ++
  verifyProvenanceMerges fn ++
  verifySimpleProvenanceJoins fn

/-! ## Frames, machine roles and handles -/

/-- The parameters that a body reads and changes. -/
def frameScan (fn : Function) : List MemoryProvenance → List Instruction → List Issue
  | _, [] => []
  | states, inst :: rest =>
    let operand := if memoryOperand inst.destination then inst.destination else inst.source
    let base := memoryBaseRegister operand
    let carrier := provenanceParameter states base
    let touches := memoryOperand operand && !specialMemoryBase base && carrier != []
    if inst.pseudo then frameScan fn states rest
    else
      issueIf (touches && memoryWrites inst && !contractHasExact fn.changes carrier)
        "frame-write-outside-changes" inst.line
        "memory write uses a carrier not listed in changes" ++
      issueIf (touches && memoryReads inst && !contractHasExact fn.reads carrier &&
          !contractHasExact fn.changes carrier)
        "frame-read-outside-reads" inst.line
        "memory read uses a carrier not listed in reads or changes" ++
      frameScan fn (updateMemoryProvenance states inst) rest

def verifyFrameContracts (fn : Function) : List Issue :=
  let unknown (carrier : Bytes) (message : String) : List Issue :=
    issueIf (paramType fn (trim carrier) == []) "frame-unknown-carrier" fn.line message
  if fn.reads = [] ∧ fn.changes = [] then []
  else
    fn.reads.flatMap (unknown ·
      "reads names a parameter that is not present in the EASM signature") ++
    fn.changes.flatMap (unknown ·
      "changes names a parameter that is not present in the EASM signature") ++
    frameScan fn (inputProvenance fn) fn.instructions

def verifyMachineRoles (fn : Function) : List Issue :=
  let selectors :=
    if hasWord fn.requires "x86_64.segment.write" &&
        !hasWord fn.requires "x86_64.segment.selector.untyped" then
      fn.params.flatMap fun parameter =>
        issueIf (holds (trim parameter.name) (ascii "selector") && rawScalarType parameter.typeName)
          "raw-segment-selector" fn.line
          ("segment-mutating EASM requires a typed segment selector or an explicit untyped " ++
            "override")
    else []
  let targets :=
    if hasWord fn.requires "control.indirect" &&
        !hasWord fn.requires "control.target.untyped" then
      fn.inputs.flatMap fun input =>
        let name := trim (bindingName input)
        issueIf ((holds name (ascii "target") || holds name (ascii "callee")) &&
            rawScalarType (paramType fn name)) "raw-indirect-control-target" fn.line
          ("indirect-control target must use a typed callable role or an explicit untyped " ++
            "override")
    else []
  let handoffs :=
    if (hasWord fn.control "tail_jumps" || hasWord fn.control "noreturn") &&
        !hasWord fn.requires "stack.owner.untyped" then
      fn.params.flatMap fun parameter =>
        issueIf (holds (trim parameter.name) (ascii "stack") &&
            holds (trim parameter.name) (ascii "top") && rawScalarType parameter.typeName)
          "raw-stack-handoff" fn.line
          "stack handoff must use a typed stack role or an explicit untyped override"
    else []
  selectors ++ targets ++ handoffs

def handleRegisters (fn : Function) : List Bytes :=
  fn.inputs.filterMap fun input =>
    let typeName := paramType fn (bindingName input)
    let register := bindingRegister input
    if startsWith typeName (ascii "Handle[") && holds typeName (ascii "]") && register != [] then
      some register
    else none

def verifyHandles (fn : Function) : List Issue :=
  fn.instructions.flatMap fun inst =>
    if inst.pseudo then []
    else (handleRegisters fn).flatMap fun handle =>
      issueIf (memoryOperand inst.source && memoryBaseRegister inst.source == handle ||
          memoryOperand inst.destination && memoryBaseRegister inst.destination == handle)
        "handle-deref-forbidden" inst.line "opaque Handle value cannot be used as a memory base"

/-! ## Callee-saved registers -/

def calleeSavedRegisters : List String := ["rbx", "rbp", "r12", "r13", "r14", "r15"]

def calleeSavedUnprotected (fn : Function) : Bool :=
  !hasWord fn.preserves "callee_saved" &&
    !hasWord fn.requires "callee_saved.preservation.unchecked" &&
    calleeSavedRegisters.any (hasWord fn.clobbers) &&
    !calleeSavedRegisters.any (hasWord fn.preserves)

def i64AddChecked (left right : Int) : Option Int :=
  if right > 0 ∧ left > i64Max - right ∨ right < 0 ∧ left < i64Min - right then none
  else some (left + right)

def i64SubChecked (left right : Int) : Option Int :=
  if right > 0 ∧ left < i64Min + right ∨ right < 0 ∧ left > i64Max + right then none
  else some (left - right)

def rspStackSlot (operand : Bytes) (stackDelta : Int) (stackKnown : Bool) : Option Int :=
  if !stackKnown || !memoryOperand operand || memoryBaseRegister operand != ascii "rsp" ||
      memoryIndexRegister operand != [] then none
  else (memoryDisplacementChecked operand).bind (i64AddChecked stackDelta)

/-- What the scan for one callee-saved register knows. -/
structure PreserveState where
  /-- The slot that holds the entry value of the register, if one does. -/
  saved : Option Int
  stackDelta : Int
  stackKnown : Bool
  written : Bool
  restoredAfterWrite : Bool
  controlFlowUnsafe : Bool
  deriving DecidableEq

/-- Whether the register may differ from its entry value. -/
def PreserveState.dirty (state : PreserveState) : Bool :=
  state.written && !state.restoredAfterWrite

def PreserveState.cut (state : PreserveState) : PreserveState :=
  { state with controlFlowUnsafe := state.controlFlowUnsafe || state.dirty, saved := none }

def preserveStack (inst : Instruction) (source destination : Bytes) (state : PreserveState) :
    PreserveState :=
  let op := inst.op
  let moved (delta : Option Int) : PreserveState :=
    match delta with
    | some value =>
      if state.stackKnown then { state with stackDelta := value }
      else { state with stackKnown := false }
    | none => { state with stackKnown := false }
  let register := registerOperand destination
  if startsWith op (ascii "push") then
    if oneOf op ["push", "pushq"] then moved (i64SubChecked state.stackDelta 8)
    else { state with stackKnown := false }
  else if startsWith op (ascii "pop") then
    if registerBit register = Mask.rsp then { state with stackKnown := false }
    else if oneOf op ["pop", "popq"] then moved (i64AddChecked state.stackDelta 8)
    else { state with stackKnown := false }
  else if startsWith op (ascii "add") || startsWith op (ascii "sub") then
    if registerBit register = Mask.rsp then
      match immediateOperandAfterDollarChecked source with
      | none => { state with stackKnown := false }
      | some value =>
        if register ≠ ascii "rsp" then { state with stackKnown := false }
        else moved (if startsWith op (ascii "add") then i64AddChecked state.stackDelta value
          else i64SubChecked state.stackDelta value)
    else state
  else if registerBit register = Mask.rsp ∨
      startsWith op (ascii "xchg") ∧ registerBit (registerOperand source) = Mask.rsp ∨
      oneOf op ["leave", "enter"] then { state with stackKnown := false }
  else state

/-- The operands that the scan sees: none if the line cannot be split. -/
def preserveOperands (inst : Instruction) : Bytes × Bytes :=
  (substituteOperand (firstOperand inst.text) inst, substituteOperand (lastOperand inst.text) inst)

def writesRegister (inst : Instruction) (source destination : Bytes) (bit : Mask) : Bool :=
  setBit (implicitWriteMask inst.op) bit ||
    !writesNoRegister inst.op &&
      (setBit (registerBit (registerOperand destination)) bit ||
        startsWith inst.op (ascii "xchg") && setBit (registerBit (registerOperand source)) bit)

def preserveEffect (register : Bytes) (inst : Instruction) (source destination : Bytes)
    (state : PreserveState) : PreserveState :=
  let op := inst.op
  let isPush := startsWith op (ascii "push")
  let isFullMov := oneOf op ["mov", "movq"]
  let clean := !state.dirty
  let pushSlot := i64SubChecked state.stackDelta 8
  let saveSlot :=
    if isFullMov && registerOperand source == register then
      rspStackSlot destination state.stackDelta state.stackKnown
    else none
  let registerSave := saveSlot.isSome && clean
  let pushSave := isPush && registerOperand source == register && state.stackKnown &&
    pushSlot.isSome && clean
  let saved := if pushSave then pushSlot else state.saved
  let saved := if registerSave then saveSlot else saved
  let writesMemory := policyMemoryWrites op inst.pseudo (memoryOperand destination)
    (memoryOperand source)
  let saved :=
    if !registerSave && (writesMemory || oneOf op ["call", "callq"]) then none else saved
  let saved :=
    if isPush && !pushSave && (!state.stackKnown || pushSlot.isNone || pushSlot == saved) then none
    else saved
  let restoreSlot :=
    if oneOf op ["pop", "popq"] && registerOperand destination == register then
      if state.stackKnown then some state.stackDelta else none
    else if isFullMov && registerOperand destination == register then
      rspStackSlot source state.stackDelta state.stackKnown
    else none
  let restores := restoreSlot.isSome && restoreSlot == saved
  let restoredAfterWrite := state.restoredAfterWrite || state.written && restores
  let writes := writesRegister inst source destination (registerBit register)
  let destroyed := writes && !isPush && !restores
  { state with
    saved := saved
    written := state.written || destroyed
    restoredAfterWrite := if destroyed then false else restoredAfterWrite }

def preserveStep (register : Bytes) (state : PreserveState) (inst : Instruction) : PreserveState :=
  if inst.pseudo then if inst.op = ascii "label" then state.cut else state
  else
    let (source, destination) := preserveOperands inst
    let state :=
      if inst.op = ascii "label" ∨ startsWith inst.op (ascii "j") then state.cut else state
    let state :=
      if startsWith inst.op (ascii "ret") then
        { state with controlFlowUnsafe := state.controlFlowUnsafe || state.dirty }
      else state
    preserveStack inst source destination (preserveEffect register inst source destination state)

def initialPreserve : PreserveState :=
  { saved := none, stackDelta := 0, stackKnown := true, written := false,
    restoredAfterWrite := false, controlFlowUnsafe := false }

def preservationUnproven (fn : Function) (register : Bytes) : Bool :=
  let state := fn.instructions.foldl (preserveStep register) initialPreserve
  state.written && (!state.restoredAfterWrite || state.controlFlowUnsafe)

def preservesClobbered (fn : Function) (register : Bytes) : Bool :=
  (contractHasExact fn.preserves register || hasWord fn.preserves "callee_saved") &&
    contractHasExact fn.clobbers register &&
    !hasWord fn.requires "callee_saved.preservation.unchecked"

def verifyCalleeSavedPreservation (fn : Function) : List Issue :=
  calleeSavedRegisters.flatMap fun name =>
    let register := ascii name
    issueIf (contractHasExact fn.preserves register && !contractHasExact fn.clobbers register)
      "preserve-without-clobber" fn.line
      "preserves declares a callee-saved register that is absent from clobbers" ++
    issueIf (preservesClobbered fn register && preservationUnproven fn register)
      "callee-saved-preservation-unproven" fn.line
      ("callee-saved register is clobbered but no save-before-write and restore-after-write " ++
        "proof was found")

end Elisa.Easm
