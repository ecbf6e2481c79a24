import Elisa.Easm.Compose

/-!
# Verification of a body, in the order of its text

`verifyFunctionInstructions` (`easm_verify_function.elisa`) goes once through the body of a
function.  It checks the shape of each instruction, keeps the registers that have a value, sums up
how far the stack pointer has moved, and checks both against the contracts.  A jump leaves the state
as it is.

The stack offset is unbounded here; 64 bits suffice for fewer than 2^32 instructions.
-/

namespace Elisa.Easm

/-! ## Contracts -/

/-- Whether a word stands in a list of comma-separated words. -/
def contractHasExact (values : List Bytes) (needle : Bytes) : Bool :=
  values.any fun value => (splitCommas value).any fun piece =>
    trim piece != [] && trim piece == needle

def hasWord (values : List Bytes) (word : String) : Bool := contractHasExact values (ascii word)

def contractHasRegister (values : List Bytes) (register : Bytes) : Bool :=
  contractHasExact values register || values.any fun value =>
    let equals := find value (ascii "=")
    decide (equals < value.length) && registerOperand (after value (equals + 1)) == register

def paramType (fn : Function) (name : Bytes) : Bytes :=
  match fn.params.find? (fun parameter => parameter.name == name) with
  | some parameter => parameter.typeName
  | none => []

def inputTypeForRegister (fn : Function) (register : Bytes) : Bytes :=
  match fn.inputs.find? (fun input =>
      decide (find input (ascii "=") < input.length) &&
        registerOperand (after input (find input (ascii "=") + 1)) == register) with
  | some input => paramType fn (bindingName input)
  | none => []

/-! ## Operand roles -/

def exactRegisterForm (operand register : Bytes) : Bool :=
  operand == 37 :: register || operand == 42 :: 37 :: register

def controlOps : List String := ["call", "callq", "jmp", "jmpq"]

/-- A symbol that a control instruction names. -/
def isDirectControlTarget (op operand : Bytes) (isFinalOperand : Bool) : Bool :=
  isFinalOperand && operand != [] &&
    !([37, 36, 42, 40, 91].contains (operand.headD 0)) &&
    find operand (ascii ":") == operand.length &&
    (oneOf op controlOps || oneOf op conditionalJumps)

def operandIsDirectRegister (operand : Bytes) : Bool :=
  let register := registerOperand operand
  operand.head? == some 37 && exactRegisterForm operand register && registerBit register != 0

def operandIsSegmentRegister (operand : Bytes) : Bool :=
  operand == ascii "%fs" || operand == ascii "%gs"

def operandAddressWidth (operand : Bytes) : AddressWidth :=
  if operandIsDirectRegister operand then addressRegisterWidth (registerOperand operand)
  else .unknown

def indexFits (index : Bytes) (baseWidth : AddressWidth) : Bool :=
  operandAddressWidth index == baseWidth && registerBit (registerOperand index) != Mask.rsp

def memoryAddressTupleSupported (operand : Bytes) : Bool :=
  let opening := find operand (ascii "(")
  let rest := after operand opening
  let closing := find rest (ascii ")")
  let inside := slice rest 1 closing
  if !memoryOperand operand || holds operand (ascii "[") || holds operand (ascii "]") then false
  else if opening ≥ operand.length ∨ holds (slice operand 0 opening) (ascii ")") then false
  else if closing ≥ rest.length then false
  else if trim (after rest (closing + 1)) ≠ [] then false
  else if holds inside (ascii "(") || holds inside (ascii ")") then false
  else
    let comma := find inside (ascii ",")
    if comma ≥ inside.length then
      trim inside == ascii "%rip" || operandAddressWidth (trim inside) != .unknown
    else
      let base := trim (slice inside 0 comma)
      let width := operandAddressWidth base
      if base = [] ∨ width = .unknown ∨ base = ascii "%rip" then false
      else
        let tail := after inside (comma + 1)
        let second := find tail (ascii ",")
        if second ≥ tail.length then trim tail == [] || indexFits (trim tail) width
        else
          let index := trim (slice tail 0 second)
          let scale := trim (after tail (second + 1))
          index != [] && operandAddressWidth index != .unknown && indexFits index width &&
            !holds scale (ascii ",") && oneOf scale ["1", "2", "4", "8"]

def operandIsSupportedMemory (operand : Bytes) : Bool :=
  let base := memoryBaseRegister operand
  let index := memoryIndexRegister operand
  memoryAddressTupleSupported operand &&
    (base == [] || base == ascii "rip" || registerBit base != 0) &&
    (index == [] || registerBit index != 0 && registerBit index != Mask.rsp)

def operandIsImmediate (operand : Bytes) : Bool := operand.head? == some 36

def operandIsDataSource (operand : Bytes) : Bool :=
  operandIsDirectRegister operand || operandIsSupportedMemory operand || operandIsImmediate operand

def operandIsWritable (operand : Bytes) : Bool :=
  operandIsDirectRegister operand || operandIsSupportedMemory operand

def moveOperandRolesSupported (source destination : Bytes) : Bool :=
  if operandIsSegmentRegister source && operandIsSegmentRegister destination then false
  else if operandIsSegmentRegister source then operandIsWritable destination
  else if operandIsSegmentRegister destination then
    operandIsWritable source && !operandIsImmediate source
  else operandIsDataSource source && operandIsWritable destination

def operandIsControlTarget (op operand : Bytes) : Bool :=
  if isDirectControlTarget op operand true && !memoryOperand operand then true
  else if !oneOf op controlOps || decide (operand.length < 2) || operand.head? != some 42 then false
  else
    let target := trim (after operand 1)
    operandIsDirectRegister target || operandIsSupportedMemory target

def instructionOperandRolesSupported (op : Bytes) (count : Nat) (source destination : Bytes) :
    Bool :=
  if !operandAritySupported op count then false
  else if count = 0 then true
  else if op = ascii "mrs" then false
  else if oneOf op controlOps then operandIsControlTarget op destination
  else if oneOf op conditionalJumps then isDirectControlTarget op destination true
  else if oneOf op ["push", "pushq"] then
    operandIsDataSource source || operandIsSegmentRegister source
  else if oneOf op ["pop", "popq"] then
    operandIsWritable destination || operandIsSegmentRegister destination
  else if oneOf op ["inc", "incq", "dec", "decq", "neg", "negq", "not", "notq"] then
    operandIsWritable destination
  else if oneOf op ["fldcw", "ldmxcsr"] then operandIsSupportedMemory source
  else if oneOf op ["fnstcw", "stmxcsr"] then operandIsSupportedMemory destination
  else if oneOf op ["lea", "leaq"] then
    operandIsSupportedMemory source && operandIsDirectRegister destination
  else if startsWith op (ascii "shl") || startsWith op (ascii "sal") ||
      startsWith op (ascii "shr") || startsWith op (ascii "sar") then
    if count = 1 then operandIsWritable destination
    else
      (operandIsImmediate source ||
        operandIsDirectRegister source && registerOperand source == ascii "cl") &&
        operandIsWritable destination
  else if oneOf op ["xchg", "xchgl", "xchgq"] then
    operandIsWritable source && operandIsWritable destination &&
      !(memoryOperand source && memoryOperand destination)
  else if oneOf op ["mov", "movq", "movb", "movw", "movl"] then
    moveOperandRolesSupported source destination
  else if oneOf op extensionMoves then
    !operandIsImmediate source && operandIsDirectRegister destination && operandIsDataSource source
  else if oneOf op twoOperandOps then operandIsDataSource source && operandIsWritable destination
  else false

/-! ## The shape of an instruction -/

def checkedOperands (inst : Instruction) : Bytes × Bytes :=
  let scan := scanInstruction inst.text
  if inst.pseudo then (inst.source, inst.destination)
  else if scan.valid && decide (scan.count > 0) && decide (scan.count ≤ 2) then
    (inst.source, inst.destination)
  else ([], [])

def unsupportedOperands (inst : Instruction) : Bool :=
  let scan := scanInstruction inst.text
  let operands := checkedOperands inst
  !scan.valid || decide (scan.count > 2) ||
    knownOp inst.op && !(operandAritySupported inst.op scan.count &&
      instructionOperandRolesSupported inst.op scan.count operands.1 operands.2)

/-- An operand that is neither an address nor a register, an immediate or a symbol. -/
def unmodeledOperandForm (op operand : Bytes) (isFinalOperand : Bool) : Bool :=
  operand != [] &&
    (!memoryOperand operand && !exactRegisterForm operand (registerOperand operand) &&
        operand.head? != some 36 && !isDirectControlTarget op operand isFinalOperand ||
      operand.head? == some 36 && oneOf op ["ret", "retq"])

def unmodeledOperand (inst : Instruction) : Bool :=
  let count := (scanInstruction inst.text).count
  let (source, destination) := checkedOperands inst
  let directDestination := destination.head? == some 37 &&
    exactRegisterForm destination (registerOperand destination)
  count == 2 && memoryOperand source && memoryOperand destination ||
    oneOf inst.op ["lea", "leaq"] &&
      (count != 2 || !memoryOperand source || !directDestination) ||
    decide (count ≥ 1) && unmodeledOperandForm inst.op source (count == 1) ||
    decide (count ≥ 2) && unmodeledOperandForm inst.op destination true

/-! ## The state of the scan -/

/-- What the scan of a body knows behind the instructions that it has seen. -/
structure ScanState where
  issues : List Issue
  live : List Bytes
  stackDelta : Int
  stackTouched : Bool
  stackKnown : Bool
  usesCall : Bool
  writesSegmentAny : Bool
  deriving DecidableEq

def issueIf (condition : Bool) (code : String) (line : Int) (message : String) : List Issue :=
  if condition then [errorIssue code line message] else []

def setBit (mask bit : Mask) : Bool := mask &&& bit != 0

def initialLive (fn : Function) : List Bytes :=
  (fn.inputs.filter fun input => decide (find input (ascii "=") < input.length)).filterMap
    fun input =>
      let register := registerOperand (after input (find input (ascii "=") + 1))
      if register = [] then none else some register

/-! ### Implicit effects -/

def checkImplicit (fn : Function) (live : List Bytes) (inst : Instruction) : List Issue :=
  let capability := requiredCapability inst.op
  let reads := implicitReadMask inst.op
  let writes := implicitWriteMask inst.op
  let unread (bit : Mask) (name : String) : List Issue :=
    issueIf (setBit reads bit && !live.contains (ascii name)) "implicit-read-uninitialized"
      inst.line s!"instruction implicitly reads {name}, which is not established"
  let unclobbered (bit : Mask) (name : String) : List Issue :=
    issueIf (setBit writes bit && !hasWord fn.clobbers name &&
        !contractHasRegister fn.outputs (ascii name)) "implicit-clobber-missing" inst.line
      s!"instruction implicitly writes {name} without an output or clobber declaration"
  issueIf (capability != [] && !contractHasExact fn.requires capability) "missing-capability"
      inst.line "instruction requires a capability in the requires contract" ++
    unread Mask.rax "rax" ++ unread Mask.rcx "rcx" ++
    unclobbered Mask.rax "rax" ++ unclobbered Mask.rcx "rcx" ++
    unclobbered Mask.rdx "rdx" ++ unclobbered Mask.rbx "rbx"

/-- An operation with implicit results leaves only these established. -/
def implicitLive (live : List Bytes) (op : Bytes) : List Bytes :=
  let writes := implicitWriteMask op
  if writes = 0 then live
  else
    ([(Mask.rax, "rax"), (Mask.rcx, "rcx"), (Mask.rdx, "rdx"), (Mask.rbx, "rbx")].filter
      fun (bit, _) => setBit writes bit).map fun (_, name) => ascii name

/-! ### Reads -/

/-- Whether a register may be read: it has a value, or the caller's value is preserved. -/
def established (fn : Function) (live : List Bytes) (register : Bytes) : Bool :=
  live.contains register || contractHasRegister fn.preserves register

def readRegister (inst : Instruction) : Bytes :=
  if startsWith inst.op (ascii "pop") then [] else registerOperand (checkedOperands inst).1

def unestablishedAddress (fn : Function) (live : List Bytes) (register : Bytes) : Bool :=
  register != [] && register != ascii "rsp" && register != ascii "rip" &&
    !established fn live register

def checkReads (fn : Function) (live : List Bytes) (inst : Instruction) : List Issue :=
  let (source, destination) := checkedOperands inst
  let read := readRegister inst
  let target := registerOperand destination
  let sourceBase := memoryBaseRegister source
  let destinationBase := memoryBaseRegister destination
  let sourceIndex := memoryIndexRegister source
  let destinationIndex := memoryIndexRegister destination
  let report (condition : Bool) (message : String) : List Issue :=
    issueIf condition "register-read-uninitialized" inst.line message
  report (read != [] && registerBit read != Mask.rsp && !selfZeroing inst &&
      !established fn live read)
    "instruction reads a register that is not declared as an input or preserved" ++
  report (readsDestination inst && target != read && registerBit target != Mask.rsp &&
      !established fn live target)
    ("read-modify-write instruction reads a destination register that is not declared as " ++
      "an input or preserved") ++
  report (unestablishedAddress fn live sourceBase)
    "memory address reads a base register that is not declared as an input or preserved" ++
  report (unestablishedAddress fn live destinationBase && destinationBase != sourceBase)
    "memory address reads a base register that is not declared as an input or preserved" ++
  report (unestablishedAddress fn live sourceIndex && sourceIndex != sourceBase &&
      sourceIndex != destinationBase)
    "memory address reads an index register that is not declared as an input or preserved" ++
  report (unestablishedAddress fn live destinationIndex && destinationIndex != sourceBase &&
      destinationIndex != destinationBase && destinationIndex != sourceIndex)
    "memory address reads an index register that is not declared as an input or preserved"

/-! ### Writes -/

def writeRegister (inst : Instruction) : Bytes :=
  if writesNoRegister inst.op then [] else registerOperand (checkedOperands inst).2

def exchangedRegister (inst : Instruction) : Bytes :=
  let source := registerOperand (checkedOperands inst).1
  if exchangesMemoryOperand inst.op && source != writeRegister inst then source else []

def addLive (live : List Bytes) (register : Bytes) : List Bytes :=
  if register = [] ∨ live.contains register then live else live ++ [register]

def checkWrites (fn : Function) (inst : Instruction) : List Issue :=
  let undeclared (register : Bytes) : List Issue :=
    issueIf (register != [] && !contractHasRegister fn.outputs register &&
        !contractHasRegister fn.clobbers register) "register-write-without-clobber" inst.line
      "instruction writes a register that is not declared as an output or clobber"
  undeclared (writeRegister inst) ++ undeclared (exchangedRegister inst)

def liveAfter (live : List Bytes) (inst : Instruction) : List Bytes :=
  if startsWith inst.op (ascii "call") then []
  else addLive (addLive (implicitLive live inst.op) (writeRegister inst)) (exchangedRegister inst)

/-! ### Memory, segments and flags -/

def writesSegment (inst : Instruction) : Bool :=
  operandIsSegmentRegister (trim (checkedOperands inst).2)

def checkMemory (fn : Function) (inst : Instruction) : List Issue :=
  let (source, destination) := checkedOperands inst
  let segment (operand : Bytes) : Bool := holds operand (ascii "%fs") || holds operand (ascii "%gs")
  let flags := startsWith inst.op (ascii "add") || startsWith inst.op (ascii "sub") ||
    startsWith inst.op (ascii "cmp") || startsWith inst.op (ascii "test")
  issueIf (memoryReads inst && !hasWord fn.clobbers "memory" && !hasWord fn.clobbers "memory.read")
    "memory-read-without-clobber" inst.line
    "memory read requires a memory or memory.read clobber" ++
  issueIf (memoryWrites inst && !hasWord fn.clobbers "memory" &&
      !hasWord fn.clobbers "memory.write")
    "memory-write-without-clobber" inst.line
    "memory write requires a memory or memory.write clobber" ++
  issueIf ((segment source || segment destination) && !hasWord fn.requires "x86_64.segment")
    "segment-register-intent-missing" inst.line
    "fs/gs use requires an x86_64.segment capability" ++
  issueIf (writesSegment inst && !hasWord fn.requires "x86_64.segment.write")
    "segment-register-write-intent-missing" inst.line
    "writing fs/gs requires x86_64.segment.write intent" ++
  issueIf (writesSegment inst && !hasWord fn.clobbers "memory" &&
      !hasWord fn.clobbers "memory.write")
    "segment-register-write-without-memory-clobber" inst.line
    "writing fs/gs requires a memory clobber" ++
  issueIf (flags && !hasWord fn.clobbers "cc" && !hasWord fn.clobbers "flags")
    "cc-clobber-missing" inst.line "arithmetic instruction requires a cc or flags clobber"

/-! ### The stack pointer -/

/-- What an instruction does to the stack offset of the scan: what it adds, whether the offset
stays known, whether the stack counts as touched, and the issues. -/
structure StackStep where
  delta : Int
  known : Bool
  touched : Bool
  issues : List Issue
  deriving DecidableEq

def StackStep.none : StackStep := { delta := 0, known := true, touched := false, issues := [] }

def StackStep.lost (code : String) (line : Int) (message : String) : StackStep :=
  { delta := 0, known := false, touched := true, issues := [errorIssue code line message] }

def StackStep.moved (delta : Int) : StackStep :=
  { delta := delta, known := true, touched := true, issues := [] }

def stackAdjustment (inst : Instruction) : StackStep :=
  let (source, destination) := checkedOperands inst
  if registerOperand destination ≠ ascii "rsp" then
    .lost "unsupported-stack-pointer-width" inst.line
      ("stack-pointer arithmetic must write the 64-bit %rsp register; narrower aliases are " ++
        "unsupported")
  else
    match immediateOperandAfterDollarChecked source with
    | none => .lost "invalid-stack-adjustment" inst.line
        "stack-pointer adjustment requires a valid signed 32-bit immediate"
    | some value => .moved (if startsWith inst.op (ascii "add") then value else -value)

def stackWrite (fn : Function) (inst : Instruction) : StackStep :=
  let register := stackPointerWriteRegister inst
  if register = [] then .none
  else if register ≠ ascii "rsp" then
    .lost "unsupported-stack-pointer-width" inst.line
      ("direct stack-pointer writes must use the 64-bit %rsp register; narrower aliases are " ++
        "unsupported")
  else if !hasWord fn.requires "stack.balance.unchecked" then
    .lost "unsupported-stack-pointer-write" inst.line
      ("direct stack-pointer writes outside modeled push/pop and immediate add/sub are " ++
        "unsupported without stack.balance.unchecked")
  else { StackStep.none with known := false, touched := true }

def stackStep (fn : Function) (inst : Instruction) : StackStep :=
  let destination := registerOperand (checkedOperands inst).2
  if startsWith inst.op (ascii "push") then
    -- a push of the stack pointer is taken for a write of it
    let write := stackWrite fn inst
    { write with delta := -8, touched := true }
  else if startsWith inst.op (ascii "pop") then
    if registerBit destination = Mask.rsp then
      .lost "pop-stack-pointer" inst.line
        "pop may not write the stack pointer or one of its aliases"
    else .moved 8
  else if (startsWith inst.op (ascii "add") || startsWith inst.op (ascii "sub")) &&
      registerBit destination == Mask.rsp then stackAdjustment inst
  else stackWrite fn inst

def checkCallAlignment (fn : Function) (inst : Instruction) (known : Bool) (delta : Int) :
    List Issue :=
  if !startsWith inst.op (ascii "call") || hasWord fn.requires "stack.call_alignment.unchecked" then
    []
  else if !known then
    [errorIssue "call-stack-alignment-unknown" inst.line
      "call stack alignment is unknown after an unmodeled stack-pointer write"]
  else issueIf (decide ((8 + delta).tmod 16 ≠ 0)) "call-stack-misaligned" inst.line
    "call executes with stack pointer not aligned to 16 bytes"

/-! ### Control -/

def checkControl (fn : Function) (inst : Instruction) : List Issue :=
  let target := trim (checkedOperands inst).2
  let indirect := holds target (ascii "*") || memoryOperand target || target.head? == some 37
  let direct := hasWord fn.requires "control.direct" || hasWord fn.requires "relocation.symbol"
  let contracted := fn.labels.any fun label => label.name == target
  let mentioned := fn.instructions.any fun possible =>
    possible.op == ascii "label" && holds possible.text target
  let isJump := startsWith inst.op (ascii "jmp")
  issueIf (isConditionalJump inst.op && (labelIndex fn.instructions target).isNone && !direct)
    "unknown-label" inst.line "conditional jump target is not a declared local label" ++
  issueIf (isJump && !indirect && target != [] && !contracted && !mentioned && !direct)
    "unknown-label" inst.line "direct jump target is not a declared label" ++
  issueIf ((startsWith inst.op (ascii "call") || isJump) && indirect &&
      !hasWord fn.requires "control.indirect")
    "indirect-control-intent-missing" inst.line
    "indirect call/jmp requires control.indirect intent" ++
  issueIf ((startsWith inst.op (ascii "call") || isJump) && !indirect && !direct && !contracted)
    "direct-control-intent-missing" inst.line
    "direct symbolic call/jmp requires control.direct or relocation.symbol intent"

/-! ## The scan -/

def shapeIssues (inst : Instruction) : List Issue :=
  if inst.pseudo then []
  else if unsupportedOperands inst then
    [errorIssue "unsupported-operands" inst.line
      "instruction operand shape is outside the verified EASM model"]
  else issueIf (unmodeledOperand inst) "unsupported-operand-form" inst.line
    "operand form is outside the verified EASM register, immediate, and address model"

def unknownOpIssues (inst : Instruction) : List Issue :=
  issueIf (inst.op == [] || !knownOp inst.op) "unknown-op" inst.line
    "instruction mnemonic is not in the EASM operation set"

def verifyInstruction (fn : Function) (state : ScanState) (inst : Instruction) : ScanState :=
  let state := { state with issues := state.issues ++ unknownOpIssues inst }
  if shapeIssues inst ≠ [] then { state with issues := state.issues ++ shapeIssues inst }
  else
    let step := stackStep fn inst
    let known := state.stackKnown && step.known
    let delta := state.stackDelta + step.delta
    { issues := state.issues ++ checkImplicit fn state.live inst ++
        checkReads fn (implicitLive state.live inst.op) inst ++ checkWrites fn inst ++
        checkMemory fn inst ++ step.issues ++ checkCallAlignment fn inst known delta ++
        checkControl fn inst
      live := liveAfter state.live inst
      stackDelta := delta
      stackTouched := state.stackTouched || step.touched
      stackKnown := known
      usesCall := state.usesCall || startsWith inst.op (ascii "call")
      writesSegmentAny := state.writesSegmentAny || writesSegment inst }

def duplicateLabelContracts (fn : Function) : List Issue :=
  fn.labels.zipIdx.flatMap fun (label, index) =>
    (fn.labels.take index).flatMap fun earlier =>
      issueIf (label.name == earlier.name) "duplicate-label-contract" label.line
        "label contract duplicates an earlier label"

def initialScan (fn : Function) : ScanState :=
  { issues := duplicateLabelContracts fn, live := initialLive fn, stackDelta := 0,
    stackTouched := false, stackKnown := true, usesCall := false, writesSegmentAny := false }

def verifyFunctionInstructions (fn : Function) : ScanState :=
  fn.instructions.foldl (verifyInstruction fn) (initialScan fn)

end Elisa.Easm
