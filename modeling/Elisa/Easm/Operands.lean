import Elisa.Easm.Text

/-!
# Operands of machine instructions

Operands are found in the text of an instruction each time they are needed
(`easm_operand_scan*.elisa`), with the bindings of a composed fragment in their place, and registers
in the operands.  A register is known by the bit of its widest form (`easm_register_masks.elisa`);
the tables of operations (`easm_register_effect_policy.elisa`, `easm_memory_effect_policy.elisa`,
`easm_address_width_policy.elisa`, `easm_access_width.elisa`) are here as well.
-/

namespace Elisa.Easm

/-! ## Registers -/

/-- A set of registers, one bit for each. -/
abbrev Mask := BitVec 64

namespace Mask

abbrev rax : Mask := 1
abbrev rcx : Mask := 2
abbrev rdx : Mask := 4
abbrev rbx : Mask := 8
abbrev rsi : Mask := 16
abbrev rdi : Mask := 32
abbrev rbp : Mask := 64
abbrev rsp : Mask := 128
abbrev r8 : Mask := 256
abbrev r9 : Mask := 512
abbrev r10 : Mask := 1024
abbrev r11 : Mask := 2048
abbrev r12 : Mask := 4096
abbrev r13 : Mask := 8192
abbrev r14 : Mask := 16384
abbrev r15 : Mask := 32768

end Mask

/-- The registers with the names that stand for their parts, in the order of the bits. -/
def registerTable : List (List String) :=
  [["rax", "eax", "ax", "al"], ["rcx", "ecx", "cx", "cl"], ["rdx", "edx", "dx", "dl"],
   ["rbx", "ebx", "bx", "bl"], ["rsi", "esi", "si", "sil"], ["rdi", "edi", "di", "dil"],
   ["rbp", "ebp", "bp", "bpl"], ["rsp", "esp", "sp", "spl"], ["r8", "r8d", "r8w", "r8b"],
   ["r9", "r9d", "r9w", "r9b"], ["r10", "r10d", "r10w", "r10b"], ["r11", "r11d", "r11w", "r11b"],
   ["r12", "r12d", "r12w", "r12b"], ["r13", "r13d", "r13w", "r13b"],
   ["r14", "r14d", "r14w", "r14b"], ["r15", "r15d", "r15w", "r15b"]]

/-- The position of a register in the table (`easm_provenance_slot`). -/
def registerSlot (register : Bytes) : Option Nat :=
  registerTable.findIdx? (oneOf register)

def registerBit (register : Bytes) : Mask :=
  match registerSlot register with
  | some slot => 1#64 <<< slot
  | none => 0

def callClobberMask : Mask :=
  .rax ||| .rcx ||| .rdx ||| .rsi ||| .rdi ||| .r8 ||| .r9 ||| .r10 ||| .r11

/-- What a call makes unknown; the result register stays. -/
def callInvalidatesLiveMask : Mask :=
  .rcx ||| .rdx ||| .rsi ||| .rdi ||| .r8 ||| .r9 ||| .r10 ||| .r11

def implicitReadMask (op : Bytes) : Mask := if op = ascii "cpuid" then .rax ||| .rcx else 0

def implicitWriteMask (op : Bytes) : Mask :=
  if op = ascii "cpuid" then .rax ||| .rbx ||| .rcx ||| .rdx
  else if op = ascii "rdtsc" then .rax ||| .rdx
  else 0

inductive AddressWidth where
  | unknown
  | width32
  | width64
  deriving DecidableEq

def addressRegisterWidth (register : Bytes) : AddressWidth :=
  if oneOf register ["rax", "rcx", "rdx", "rbx", "rsi", "rdi", "rbp", "rsp", "r8", "r9", "r10",
      "r11", "r12", "r13", "r14", "r15"] then .width64
  else if oneOf register ["eax", "ecx", "edx", "ebx", "esi", "edi", "ebp", "esp", "r8d", "r9d",
      "r10d", "r11d", "r12d", "r13d", "r14d", "r15d"] then .width32
  else .unknown

/-! ## Operations -/

def zeroOperandOps : List String :=
  ["ret", "retq", "cpuid", "cld", "std", "lfence", "rdtsc", "pause", "yield", "isb", "emms",
   "vzeroall", "trap"]

def conditionalJumps : List String :=
  ["je", "jz", "jne", "jnz", "jl", "jle", "jg", "jge", "jb", "jbe", "ja", "jae"]

def oneOperandOps : List String :=
  ["push", "pushq", "pop", "popq", "inc", "incq", "dec", "decq", "neg", "negq", "not", "notq",
   "call", "callq", "jmp", "jmpq"] ++ conditionalJumps ++
  ["fldcw", "fnstcw", "stmxcsr", "ldmxcsr"]

def extensionMoves : List String :=
  ["movsx", "movsxd", "movsbw", "movsbl", "movsbq", "movswl", "movswq", "movslq", "movzx",
   "movzbw", "movzbl", "movzbq", "movzwl", "movzwq"]

def twoOperandOps : List String :=
  ["mov", "movq", "movb", "movw", "movl"] ++ extensionMoves ++
  ["lea", "leaq", "xchg", "xchgl", "xchgq", "add", "addq", "sub", "subq", "and", "andq", "or",
   "orq", "xor", "xorq", "cmp", "cmpq", "test", "testq", "mrs"]

def shiftOps : List String := ["shl", "shlq", "sal", "salq", "shr", "shrq", "sar", "sarq"]

/-- The operation set: machine operations and the three operations of the parser. -/
def knownOp (op : Bytes) : Bool :=
  oneOf op zeroOperandOps || oneOf op oneOperandOps || oneOf op twoOperandOps ||
    oneOf op shiftOps || oneOf op ["compose", "state", "label"]

def operandAritySupported (op : Bytes) (count : Nat) : Bool :=
  let zero := oneOf op zeroOperandOps
  let one := oneOf op oneOperandOps
  let two := oneOf op twoOperandOps
  zero && count == 0 || !zero && one && count == 1 || !zero && !one && two && count == 2 ||
    !zero && !one && !two && oneOf op shiftOps && (count == 1 || count == 2)

def isConditionalJump (op : Bytes) : Bool :=
  startsWith op (ascii "j") && op != ascii "jmp" && op != ascii "jmpq"

def isTerminator (op : Bytes) : Bool := oneOf op ["jmp", "jmpq", "ret", "retq"]

def requiredCapability (op : Bytes) : Bytes :=
  if oneOf op ["xchg", "xchgl", "xchgq"] then ascii "x86_64.atomic.rmw"
  else if op = ascii "cpuid" then ascii "x86_64.cpuid"
  else if op = ascii "rdtsc" then ascii "x86_64.rdtsc"
  else if op = ascii "lfence" then ascii "x86_64.sse.lfence"
  else if op = ascii "pause" then ascii "x86_64.sse.pause"
  else if op = ascii "yield" then ascii "aarch64.yield"
  else if oneOf op ["mrs", "isb"] then ascii "aarch64.cntvct"
  else if oneOf op ["fldcw", "fnstcw", "stmxcsr", "ldmxcsr", "emms"] then
    ascii "x86_64.fpu_control"
  else if op = ascii "vzeroall" then ascii "x86_64.simd_state"
  else if op = ascii "trap" then ascii "debug.trap"
  else []

/-! ### Effects of operations -/

def readModifyWriteOps : List String :=
  ["add", "addq", "sub", "subq", "and", "andq", "or", "orq", "xor", "xorq", "inc", "incq", "dec",
   "decq", "neg", "negq", "not", "notq", "shl", "shlq", "sal", "salq", "shr", "shrq", "sar",
   "sarq", "xchg", "xchgl", "xchgq"]

def compareOps : List String := ["cmp", "cmpq", "test", "testq"]

def destinationReadsMemory (op : Bytes) : Bool :=
  oneOf op readModifyWriteOps || oneOf op compareOps || oneOf op ["call", "callq", "jmp", "jmpq"]

def destinationWritesMemory (op : Bytes) : Bool :=
  !oneOf op ["fldcw", "ldmxcsr", "cmp", "cmpq", "test", "testq", "push", "pushq", "call", "callq",
    "jmp", "jmpq"]

def exchangesMemoryOperand (op : Bytes) : Bool := oneOf op ["xchg", "xchgl", "xchgq"]

def policyMemoryReads (op : Bytes) (pseudo sourceMemory destinationMemory : Bool) : Bool :=
  if pseudo || oneOf op ["lea", "leaq"] || oneOf op ["fnstcw", "stmxcsr"] then false
  else if oneOf op ["pop", "popq"] then false
  else sourceMemory || destinationMemory && destinationReadsMemory op

def policyMemoryWrites (op : Bytes) (pseudo destinationMemory sourceMemory : Bool) : Bool :=
  if pseudo || oneOf op ["lea", "leaq"] then false
  else destinationMemory && destinationWritesMemory op || sourceMemory && exchangesMemoryOperand op

def destinationReadsRegister (op : Bytes) : Bool :=
  oneOf op readModifyWriteOps || oneOf op compareOps

def isSelfZeroing (op source destination : Bytes) : Bool :=
  source != [] && source == destination && oneOf op ["xor", "xorq", "sub", "subq"]

def accessWidth (op : Bytes) : Int :=
  if oneOf op ["movb", "xchgb"] then 1
  else if oneOf op ["movw", "xchgw"] then 2
  else if oneOf op ["movl", "xchgl"] then 4
  else if oneOf op ["movq", "xchgq"] then 8
  else 0

/-! ## Finding the operands -/

structure Substitution where
  /-- The name of a fragment parameter. -/
  source : Bytes
  replacement : Bytes
  deriving DecidableEq

/-- One line of a body.  The bindings of a composed fragment, at most four in the source, are
a list here. -/
structure Instruction where
  op : Bytes
  text : Bytes
  line : Int
  pseudo : Bool
  substitutions : List Substitution
  deriving DecidableEq

structure InstructionScanResult where
  start : Nat
  count : Nat
  firstSeparator : Nat
  lastSeparator : Nat
  hasAddressGroup : Bool
  addressOpen : Nat
  addressClose : Nat
  valid : Bool
  deriving DecidableEq

def invalidScanResult (length start : Nat) : InstructionScanResult :=
  { start := start, count := 0, firstSeparator := length, lastSeparator := length,
    hasAddressGroup := false, addressOpen := length, addressClose := length, valid := false }

def emptyScanResult (length : Nat) : InstructionScanResult :=
  { start := length, count := 0, firstSeparator := length, lastSeparator := length,
    hasAddressGroup := false, addressOpen := length, addressClose := length, valid := true }

def firstOperandByte (text : Bytes) (start : Nat) : Nat :=
  start + (trimBounds (after text start)).1

/-- The next comma outside the parenthesized group, or the length of the text. -/
def nextTopLevelSeparator (text : Bytes) (start : Nat) (hasAddress : Bool)
    (opening closing : Nat) : Nat :=
  if start = text.length then text.length
  else if !hasAddress || decide (opening > closing) then
    start + findByte (after text start) 44
  else
    let before := slice text start opening
    if start < opening ∧ findByte before 44 < before.length then start + findByte before 44
    else
      let outside :=
        if start ≤ closing then (if closing < text.length then closing + 1 else text.length)
        else start
      outside + findByte (after text outside) 44

/-- The parenthesized group of the operands, if there is one: `none` if the parentheses of the
operands are not one balanced pair. -/
def addressGroup (text : Bytes) (start : Nat) : Option (Bool × Nat × Nat) :=
  let operands := after text start
  let openRelative := findByte operands 40
  let closeRelative := findByte operands 41
  if openRelative < operands.length then
    if closeRelative < openRelative ∨ closeRelative ≥ operands.length then none
    else
      let opening := start + openRelative
      let afterOpen := after text (opening + 1)
      let closeAfterOpen := findByte afterOpen 41
      if closeAfterOpen ≥ afterOpen.length then none
      else
        let closing := opening + 1 + closeAfterOpen
        let contents := slice text (opening + 1) closing
        let trailing := after text (closing + 1)
        if findByte contents 40 < contents.length then none
        else if findByte trailing 40 < trailing.length ∨ findByte trailing 41 < trailing.length then
          none
        else some (true, opening, closing)
  else if closeRelative < operands.length then none
  else some (false, text.length, text.length)

def blankSpan (span : Bytes) : Bool := decide (firstOperandByte span 0 ≥ span.length)

/-- The operands of a line.  Three or more operands count as three. -/
def scanInstruction (text : Bytes) : InstructionScanResult :=
  let length := text.length
  let start := firstOperandByte text (firstSpace text)
  if start ≥ length then emptyScanResult length
  else
    match addressGroup text start with
    | none => invalidScanResult length start
    | some (hasAddress, opening, closing) =>
      let result (count first last : Nat) : InstructionScanResult :=
        { start := start, count := count, firstSeparator := first, lastSeparator := last,
          hasAddressGroup := hasAddress, addressOpen := opening, addressClose := closing,
          valid := true }
      let first := nextTopLevelSeparator text start hasAddress opening closing
      if first ≥ length then result 1 length length
      else if blankSpan (slice text start first) then invalidScanResult length start
      else
        let second := nextTopLevelSeparator text (first + 1) hasAddress opening closing
        if second ≥ length then
          if blankSpan (after text (first + 1)) then invalidScanResult length start
          else result 2 first first
        else if blankSpan (slice text (first + 1) second) ||
          blankSpan (after text (second + 1)) then
          invalidScanResult length start
        else result 3 first second

def firstOperand (text : Bytes) : Bytes :=
  let scan := scanInstruction text
  if !scan.valid || scan.count == 0 then []
  else if scan.firstSeparator < text.length then trim (slice text scan.start scan.firstSeparator)
  else trim (after text scan.start)

def lastOperand (text : Bytes) : Bytes :=
  let scan := scanInstruction text
  if !scan.valid || scan.count == 0 then []
  else if scan.lastSeparator < text.length then trim (after text (scan.lastSeparator + 1))
  else trim (after text scan.start)

/-- An operand that is the name of a bound parameter stands for the argument. -/
def substituteOperand (operand : Bytes) (instruction : Instruction) : Bytes :=
  let value := trim operand
  match instruction.substitutions.find? (fun substitution => value == substitution.source) with
  | some substitution => substitution.replacement
  | none => value

def Instruction.source (instruction : Instruction) : Bytes :=
  substituteOperand (firstOperand instruction.text) instruction

def Instruction.destination (instruction : Instruction) : Bytes :=
  substituteOperand (lastOperand instruction.text) instruction

/-! ## Registers in an operand -/

def isNameByte (byte : UInt8) : Bool :=
  byte ≥ 48 && byte ≤ 57 || byte ≥ 65 && byte ≤ 90 || byte ≥ 97 && byte ≤ 122 || byte == 95

def registerOperand (operand : Bytes) : Bytes :=
  let value := trim operand
  let value := if value.head? == some 42 then trim (after value 1) else value
  if value.head? == some 37 then (after value 1).takeWhile isNameByte
  else if registerBit value != 0 then value
  else []

def memoryOperand (operand : Bytes) : Bool :=
  holds operand (ascii "(") || holds operand (ascii "[")

def addressTuple (operand : Bytes) : Option Bytes :=
  let opening := find operand (ascii "(")
  if opening ≥ operand.length then none
  else
    let rest := after operand opening
    some (slice rest 1 (find rest (ascii ")")))

def memoryBaseRegister (operand : Bytes) : Bytes :=
  let opening := find operand (ascii "(")
  if opening ≥ operand.length then []
  else if find (after operand opening) (ascii ")") ≥ (after operand opening).length then []
  else
    match addressTuple operand with
    | none => []
    | some inside => registerOperand (slice inside 0 (find inside (ascii ",")))

def memoryIndexRegister (operand : Bytes) : Bytes :=
  match addressTuple operand with
  | none => []
  | some inside =>
    let comma := find inside (ascii ",")
    if comma ≥ inside.length then []
    else
      let rest := after inside (comma + 1)
      registerOperand (slice rest 0 (find rest (ascii ",")))

def memoryDisplacementChecked (operand : Bytes) : Option Int :=
  let opening := find operand (ascii "(")
  if opening ≥ operand.length then some 0
  else
    let text := trim (slice operand 0 opening)
    if text = [] then some 0 else parseSigned text

def immediateOperandAfterDollarChecked (operand : Bytes) : Option Int :=
  let dollar := find operand (ascii "$")
  if dollar ≥ operand.length then none
  else
    match parseSigned (trim (after operand (dollar + 1))) with
    | none => none
    | some value => if value < -2147483648 ∨ value > 2147483647 then none else some value

def operandRegisterMask (operand : Bytes) : Mask :=
  registerBit (registerOperand operand) ||| registerBit (memoryBaseRegister operand) |||
    registerBit (memoryIndexRegister operand)

def registerMask (text : Bytes) : Mask :=
  let names := ["%rax", "%rcx", "%rdx", "%rbx", "%rsi", "%rdi", "%rbp", "%rsp", "%r8", "%r9",
    "%r10", "%r11", "%r12", "%r13", "%r14", "%r15"]
  (names.zipIdx.map fun (name, slot) =>
    if holds text (ascii name) then 1#64 <<< slot else 0).foldl (· ||| ·) 0

def instructionRegisterMask (instruction : Instruction) : Mask :=
  instruction.substitutions.foldl
    (fun mask substitution =>
      if holds instruction.text substitution.source then
        mask ||| registerMask substitution.replacement |||
          operandRegisterMask substitution.replacement
      else mask)
    (registerMask instruction.text ||| operandRegisterMask instruction.source |||
      operandRegisterMask instruction.destination)

/-! ## What an instruction reads and writes -/

def memoryReads (instruction : Instruction) : Bool :=
  policyMemoryReads instruction.op instruction.pseudo (memoryOperand instruction.source)
    (memoryOperand instruction.destination)

def memoryWrites (instruction : Instruction) : Bool :=
  policyMemoryWrites instruction.op instruction.pseudo (memoryOperand instruction.destination)
    (memoryOperand instruction.source)

def selfZeroing (instruction : Instruction) : Bool :=
  !instruction.pseudo && isSelfZeroing instruction.op (registerOperand instruction.source)
    (registerOperand instruction.destination)

def readsDestination (instruction : Instruction) : Bool :=
  !instruction.pseudo && registerOperand instruction.destination != [] &&
    !selfZeroing instruction && destinationReadsRegister instruction.op

def writesNoRegister (op : Bytes) : Bool :=
  startsWith op (ascii "cmp") || startsWith op (ascii "test") || startsWith op (ascii "push") ||
    startsWith op (ascii "call") || startsWith op (ascii "jmp") || startsWith op (ascii "ret")

def writtenMask (instruction : Instruction) : Mask :=
  if writesNoRegister instruction.op then 0
  else
    let destination := registerBit (registerOperand instruction.destination)
    if startsWith instruction.op (ascii "xchg") then
      destination ||| registerBit (registerOperand instruction.source)
    else destination

def readMask (instruction : Instruction) : Mask :=
  if selfZeroing instruction then 0
  else if startsWith instruction.op (ascii "mov") || startsWith instruction.op (ascii "lea") then
    operandRegisterMask instruction.source |||
      (if registerOperand instruction.destination != [] then 0
       else operandRegisterMask instruction.destination)
  else if startsWith instruction.op (ascii "pop") then
    if registerOperand instruction.destination != [] then 0
    else operandRegisterMask instruction.destination
  else instructionRegisterMask instruction

def stackPointerWriteRegister (instruction : Instruction) : Bytes :=
  let destination := registerOperand instruction.destination
  if registerBit destination = Mask.rsp then destination
  else
    let source := registerOperand instruction.source
    if startsWith instruction.op (ascii "xchg") ∧ registerBit source = Mask.rsp then source
    else []

/-! ## Labels -/

def labelName (instruction : Instruction) : Bytes :=
  if instruction.op = ascii "label" then
    let text := trim instruction.text
    if text.getLast? = some 58 then trim text.dropLast else text
  else []

def labelIndex (instructions : List Instruction) (target : Bytes) : Option Nat :=
  if target = [] then none
  else instructions.findIdx? fun instruction =>
    instruction.op == ascii "label" && labelName instruction == target

end Elisa.Easm
