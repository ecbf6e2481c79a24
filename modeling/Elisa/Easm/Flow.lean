import Elisa.Easm.Verify

/-!
# Verification along control flow

The passes over the edges of a body: jumps to its labels and the step to the next line.
`verifyControlFlowMerges` (`easm_verify_provenance.elisa`) meets at each label what the edges into
it establish, `verifyProvenanceMerges` (`easm_model.elisa`) does the same for the types of
registers.  Both go over all lines until nothing changes, but at most once more than there are
lines.
-/

namespace Elisa.Easm

/-! ## Edges -/

/-- The label that a jump goes to: a target that is a register is no label. -/
def jumpTarget (instructions : List Instruction) (inst : Instruction) : Option Nat :=
  let target := inst.destination
  if startsWith inst.op (ascii "j") && target != [] && target.head? != some 37 then
    labelIndex instructions target
  else none

theorem jumpTarget_eq_some {instructions : List Instruction} {inst : Instruction} {index : Nat}
    (h : jumpTarget instructions inst = some index) :
    startsWith inst.op (ascii "j") = true ∧ inst.destination ≠ [] ∧
      ∃ label, instructions[index]? = some label ∧ label.op = ascii "label" ∧
        labelName label = inst.destination := by
  unfold jumpTarget labelIndex at h
  dsimp only at h
  split_ifs at h with jumps none
  obtain ⟨within, named, -⟩ := List.findIdx?_eq_some_iff_getElem.1 h
  rw [Bool.and_eq_true, beq_iff_eq, beq_iff_eq] at named
  rw [Bool.and_eq_true, Bool.and_eq_true] at jumps
  exact ⟨jumps.1.1, none, _, List.getElem?_eq_getElem within, named⟩

theorem jumpTarget_lt {instructions : List Instruction} {inst : Instruction} {index : Nat}
    (h : jumpTarget instructions inst = some index) : index < instructions.length := by
  obtain ⟨-, -, label, found, -⟩ := jumpTarget_eq_some h
  exact (List.getElem?_eq_some_iff.1 found).1

/-- The lines that a line can be followed by: first the target of a jump, then the next line. -/
def successors (instructions : List Instruction) (index : Nat) : List Nat :=
  match instructions[index]? with
  | none => []
  | some inst =>
    (jumpTarget instructions inst).toList ++
      if !isTerminator inst.op && decide (index + 1 < instructions.length) then [index + 1] else []

/-- Going over all lines until a round changes nothing, at most a number of times. -/
def rounds {α : Type} (round : α → α × Bool) : Nat → α → α
  | 0, table => table
  | fuel + 1, table =>
    match round table with
    | (table, true) => rounds round fuel table
    | (table, false) => table

/-! ## Registers and the stack -/

structure FlowState where
  live : Mask
  stackDelta : Int
  stackMod16 : Int
  stackKnown : Bool
  flagsLive : Bool
  valid : Bool
  deriving DecidableEq

/-- What is known at each line, the meet of what its edges bring, and how many there were. -/
structure FlowTable where
  entries : List FlowState
  meets : List Mask
  counts : List Nat
  deriving DecidableEq

def FlowState.unreached : FlowState :=
  { live := 0, stackDelta := 0, stackMod16 := 8, stackKnown := true, flagsLive := false,
    valid := false }

def FlowState.join (current incoming : FlowState) : FlowState :=
  let known := current.stackKnown && incoming.stackKnown &&
    decide (current.stackMod16 = incoming.stackMod16)
  { current with
    live := current.live &&& incoming.live
    flagsLive := current.flagsLive && incoming.flagsLive
    stackKnown := known
    stackMod16 := if known then current.stackMod16 else 0
    stackDelta := if current.stackDelta = incoming.stackDelta then current.stackDelta else 0 }

def propagateFlow (incoming : FlowState) (table : FlowTable) (target : Nat) : FlowTable × Bool :=
  match table.entries[target]?, table.meets[target]?, table.counts[target]? with
  | some current, some oldMeet, some count =>
    let meet := if count = 0 then incoming.live else oldMeet &&& incoming.live
    let meetChanged := count != 0 && meet != oldMeet
    let joined := if current.valid then current.join incoming else incoming
    ({ entries := table.entries.set target joined, meets := table.meets.set target meet
       counts := table.counts.set target (count + 1) },
      !current.valid || meetChanged || decide (current ≠ joined))
  | _, _, _ => (table, false)

/-- The stack pointer is written in a way that is not followed. -/
def FlowState.loseStack (state : FlowState) : FlowState :=
  { state with stackKnown := false, stackMod16 := 0 }

def FlowState.moveStack (state : FlowState) (delta : Int) : FlowState :=
  { state with
    stackDelta := state.stackDelta + delta
    stackMod16 := if state.stackKnown then (state.stackMod16 + delta).tmod 16
      else state.stackMod16 }

def stackTransfer (inst : Instruction) (state : FlowState) : FlowState :=
  let state := if startsWith inst.op (ascii "push") then state.moveStack (-8) else state
  let destination := registerOperand inst.destination
  if startsWith inst.op (ascii "pop") then
    if registerBit destination = Mask.rsp then state.loseStack else state.moveStack 8
  else if (startsWith inst.op (ascii "add") || startsWith inst.op (ascii "sub")) &&
      registerBit destination == Mask.rsp then
    if destination ≠ ascii "rsp" then state.loseStack
    else
      match immediateOperandAfterDollarChecked inst.source with
      | none => state.loseStack
      | some value =>
        state.moveStack (if startsWith inst.op (ascii "add") then value else -value)
  else if stackPointerWriteRegister inst ≠ [] then state.loseStack
  else state

def registerTransfer (inst : Instruction) (state : FlowState) : FlowState :=
  let isCall := startsWith inst.op (ascii "call")
  let live := state.live ||| writtenMask inst
  let compares := startsWith inst.op (ascii "cmp") || startsWith inst.op (ascii "test")
  let adds := startsWith inst.op (ascii "add") || startsWith inst.op (ascii "sub")
  { state with
    live := if isCall then live &&& ~~~callInvalidatesLiveMask else live
    flagsLive := if adds then false else if compares then true
      else if isCall then false else state.flagsLive }

def flowTransfer (inst : Instruction) (state : FlowState) : FlowState :=
  stackTransfer inst (registerTransfer inst state)

def flowLine (instructions : List Instruction) (table : FlowTable × Bool) (index : Nat) :
    FlowTable × Bool :=
  match instructions[index]?, table.1.entries[index]? with
  | some inst, some entry =>
    if entry.valid then
      (successors instructions index).foldl
        (fun (table, changed) target =>
          let (table, now) := propagateFlow (flowTransfer inst entry) table target
          (table, now || changed))
        table
    else table
  | _, _ => table

def flowRound (instructions : List Instruction) (table : FlowTable) : FlowTable × Bool :=
  (List.range instructions.length).foldl (flowLine instructions) (table, false)

/-- The registers of the input bindings. -/
def initialLiveMask (fn : Function) : Mask :=
  ((fn.inputs.filter fun input => decide (find input (ascii "=") < input.length)).map
    fun input => registerBit (registerOperand (after input (find input (ascii "=") + 1)))).foldl
      (· ||| ·) 0

def initialFlow (fn : Function) : FlowTable :=
  let count := fn.instructions.length
  let live := initialLiveMask fn
  { entries := (List.replicate count .unreached).set 0 { FlowState.unreached with
      live := live, valid := true }
    meets := (List.replicate count 0).set 0 live
    counts := (List.replicate count 0).set 0 1 }

def flowTable (fn : Function) : FlowTable :=
  rounds (flowRound fn.instructions) (fn.instructions.length + 1) (initialFlow fn)

/-- The registers that the lines behind a label read before they write them, up to the next
label or the end of the flow. -/
def demandedFrom : Mask → Mask → List Instruction → Mask
  | demanded, _, [] => demanded
  | demanded, defined, next :: rest =>
    let reads := readMask next ||| implicitReadMask next.op
    let writes := writtenMask next ||| implicitWriteMask next.op |||
      (if startsWith next.op (ascii "call") then callClobberMask else 0)
    let demanded := demanded ||| (reads &&& ~~~defined)
    if next.op = ascii "label" ∨ isTerminator next.op then demanded
    else demandedFrom demanded (defined ||| writes) rest

def callFollows (rest : List Instruction) : Bool :=
  (rest.takeWhile fun next => next.op != ascii "label").any fun next =>
    startsWith next.op (ascii "call")

def mergeIssues (fn : Function) (table : FlowTable) (index : Nat) : List Issue :=
  match fn.instructions[index]?, table.entries[index]?, table.meets[index]?,
      table.counts[index]? with
  | some inst, some entry, some meet, some count =>
    let label := labelName inst
    if inst.op ≠ ascii "label" ∨ count = 0 ∨ label = [] then []
    else if fn.labels.any fun contract => contract.name == label then []
    else
      let rest := fn.instructions.drop (index + 1)
      issueIf (demandedFrom 0 0 rest &&& ~~~meet != 0) "merge-state-unsound" inst.line
        ("merge label carries a register that is not established on every incoming edge; " ++
          "declare a labels contract or write the register on every edge") ++
      issueIf (entry.stackKnown && decide (entry.stackMod16 ≠ 0) && callFollows rest &&
          !hasWord fn.requires "stack.call_alignment.unchecked")
        "merge-stack-alignment-unsound" inst.line
        "merge label does not establish a common stack alignment before call"
  | _, _, _, _ => []

def verifyControlFlowMerges (fn : Function) : List Issue :=
  (List.range fn.instructions.length).flatMap (mergeIssues fn (flowTable fn))

/-! ## Types of registers -/

/-- The types that the registers carry, and those on which edges have disagreed. -/
structure ProvenanceFlow where
  types : List Bytes
  ambiguous : Mask
  valid : Bool
  deriving DecidableEq

structure ProvenanceTable where
  entries : List ProvenanceFlow
  counts : List Nat
  deriving DecidableEq

def ProvenanceFlow.empty : ProvenanceFlow :=
  { types := List.replicate 16 [], ambiguous := 0, valid := false }

def slotBit (slot : Nat) : Mask := 1#64 <<< slot

def ProvenanceFlow.join (current incoming : ProvenanceFlow) : ProvenanceFlow :=
  { types := current.types.zipWith (fun old new => if old = new then old else []) incoming.types
    ambiguous := current.ambiguous ||| incoming.ambiguous |||
      ((current.types.zip incoming.types).zipIdx.map fun ((old, new), slot) =>
        if old = new then 0 else slotBit slot).foldl (· ||| ·) 0
    valid := true }

def propagateProvenance (incoming : ProvenanceFlow) (table : ProvenanceTable) (target : Nat) :
    ProvenanceTable × Bool :=
  match table.entries[target]?, table.counts[target]? with
  | some current, some count =>
    let joined := if current.valid then current.join incoming else incoming
    ({ entries := table.entries.set target joined
       counts := table.counts.set target (if current.valid then count + 1 else 1) },
      !current.valid || decide (current ≠ joined))
  | _, _ => (table, false)

def ProvenanceFlow.typeAt (flow : ProvenanceFlow) (slot : Nat) : Bytes := flow.types.getD slot []

def ProvenanceFlow.ambiguousAt (flow : ProvenanceFlow) (slot : Nat) : Bool :=
  setBit flow.ambiguous (slotBit slot)

def ProvenanceFlow.assign (flow : ProvenanceFlow) (slot : Nat) (typeName : Bytes)
    (ambiguous : Bool) : ProvenanceFlow :=
  { flow with
    types := flow.types.set slot typeName
    ambiguous := if ambiguous then flow.ambiguous ||| slotBit slot
      else flow.ambiguous &&& ~~~slotBit slot }

def ProvenanceFlow.erase (flow : ProvenanceFlow) (slot : Nat) : ProvenanceFlow :=
  flow.assign slot [] false

/-- The registers of a mask lose their types. -/
def ProvenanceFlow.clobber (flow : ProvenanceFlow) (mask : Mask) : ProvenanceFlow :=
  { flow with
    types := flow.types.zipIdx.map fun (typeName, slot) =>
      if setBit mask (slotBit slot) then [] else typeName
    ambiguous := flow.ambiguous &&& ~~~mask }

/-- Additions and subtractions keep the type of an address. -/
def keepsCarrier (op : Bytes) : Bool :=
  oneOf op ["add", "addq", "sub", "subq", "inc", "incq", "dec", "decq"]

def exchangeTypes (flow : ProvenanceFlow) (op source destination : Bytes) : ProvenanceFlow :=
  let wide := addressRegisterWidth destination = .width64 ∧ addressRegisterWidth source = .width64 ∧
    oneOf op ["xchgq", "xchg"]
  match registerSlot source, registerSlot destination with
  | some from_, some to_ =>
    if wide then
      let sourceType := flow.typeAt from_
      let sourceAmbiguous := flow.ambiguousAt from_
      (flow.assign from_ (flow.typeAt to_) (flow.ambiguousAt to_)).assign to_ sourceType
        sourceAmbiguous
    else (flow.erase from_).erase to_
  | some slot, none => flow.erase slot
  | none, some slot => flow.erase slot
  | none, none => flow

def provenanceTransfer (inst : Instruction) (flow : ProvenanceFlow) : ProvenanceFlow :=
  let op := inst.op
  let clobbers := if startsWith op (ascii "call") then callClobberMask else implicitWriteMask op
  if clobbers ≠ 0 then flow.clobber clobbers
  else if startsWith op (ascii "cmp") || startsWith op (ascii "test") ||
      startsWith op (ascii "push") || startsWith op (ascii "jmp") ||
      startsWith op (ascii "ret") then flow
  else
    let destination := registerOperand inst.destination
    let source := registerOperand inst.source
    let wide := addressRegisterWidth destination = .width64
    if startsWith op (ascii "xchg") then exchangeTypes flow op source destination
    else
      match registerSlot destination with
      | none => flow
      | some slot =>
        if oneOf op ["mov", "movq"] ∧ wide ∧
            (registerSlot source = none ∨ addressRegisterWidth source = .width64) then
          match registerSlot source with
          | some from_ => flow.assign slot (flow.typeAt from_) (flow.ambiguousAt from_)
          | none => flow.erase slot
        else if oneOf op ["lea", "leaq"] ∧ wide then
          let base := memoryBaseRegister inst.source
          match registerSlot base with
          | some from_ =>
            if addressRegisterWidth base = .width64 then
              flow.assign slot (flow.typeAt from_) (flow.ambiguousAt from_)
            else flow.erase slot
          | none => flow.erase slot
        else if keepsCarrier op ∧ wide then flow
        else flow.erase slot

def provenanceLine (instructions : List Instruction) (table : ProvenanceTable × Bool)
    (index : Nat) : ProvenanceTable × Bool :=
  match instructions[index]?, table.1.entries[index]? with
  | some inst, some entry =>
    if entry.valid then
      (successors instructions index).foldl
        (fun (table, changed) target =>
          let (table, now) := propagateProvenance (provenanceTransfer inst entry) table target
          (table, now || changed))
        table
    else table
  | _, _ => table

def provenanceRound (instructions : List Instruction) (table : ProvenanceTable) :
    ProvenanceTable × Bool :=
  (List.range instructions.length).foldl (provenanceLine instructions) (table, false)

/-- The types of the parameters in the registers that they are bound to. -/
def initialProvenance (fn : Function) : ProvenanceFlow :=
  fn.inputs.foldl
    (fun flow input =>
      match registerSlot (bindingRegister input) with
      | some slot => { flow with types := flow.types.set slot (paramType fn (bindingName input)) }
      | none => flow)
    { ProvenanceFlow.empty with valid := true }

def provenanceTable (fn : Function) : ProvenanceTable :=
  let count := fn.instructions.length
  rounds (provenanceRound fn.instructions) (count + 1)
    { entries := (List.replicate count .empty).set 0 (initialProvenance fn)
      counts := (List.replicate count 0).set 0 1 }

def addressOperands (inst : Instruction) : List Bytes :=
  let scan := scanInstruction inst.text
  if scan.valid && scan.count == 1 then [inst.source] else [inst.source, inst.destination]

def verifyProvenanceMerges (fn : Function) : List Issue :=
  let table := provenanceTable fn
  fn.instructions.zipIdx.flatMap fun (inst, index) =>
    match table.entries[index]? with
    | none => []
    | some entry =>
      if entry.ambiguous = 0 ∨ inst.op = ascii "label" then []
      else (addressOperands inst).flatMap fun operand =>
        match registerSlot (memoryBaseRegister operand) with
        | none => []
        | some slot =>
          issueIf (memoryOperand operand && entry.ambiguousAt slot) "provenance-merge-unsound"
            inst.line "memory base has conflicting typed-carrier provenance at a control-flow merge"

/-! ### Joins of two edges -/

/-- The type that a register gets from an input through moves, followed back from the end of
the body. -/
def resolveCarrierType (fn : Function) : Nat → Bytes → Bytes
  | 0, _ => []
  | limit + 1, register =>
    let direct := inputTypeForRegister fn register
    if register = [] then []
    else if direct ≠ [] then direct
    else
      match fn.instructions.reverse.find? (fun candidate =>
          (startsWith candidate.op (ascii "mov") || startsWith candidate.op (ascii "lea")) &&
            registerOperand candidate.destination == register) with
      | none => []
      | some candidate =>
        resolveCarrierType fn limit
          (if startsWith candidate.op (ascii "lea") then memoryBaseRegister candidate.source
           else registerOperand candidate.source)

def lastCarrier (base : Bytes) (instructions : List Instruction) : Bytes :=
  match instructions.reverse.find? (fun candidate =>
      (startsWith candidate.op (ascii "mov") || startsWith candidate.op (ascii "lea")) &&
        registerOperand candidate.destination == base) with
  | none => []
  | some candidate =>
    if startsWith candidate.op (ascii "lea") then memoryBaseRegister candidate.source
    else registerOperand candidate.source

def verifySimpleProvenanceJoins (fn : Function) : List Issue :=
  fn.instructions.zipIdx.flatMap fun (inst, labelAt) =>
    let label := labelName inst
    if inst.op ≠ ascii "label" ∨ label = [] then []
    else
      match (fn.instructions.drop (labelAt + 1)).dropWhile
        (fun next => next.op == ascii "label") with
      | [] => []
      | use :: _ =>
        let base := memoryBaseRegister use.source
        if !memoryOperand use.source ∨ base = [] then []
        else (fn.instructions.take labelAt).zipIdx.flatMap fun (jump, jumpAt) =>
          if !isConditionalJump jump.op ∨ jump.destination ≠ label then []
          else
            let before := lastCarrier base (fn.instructions.take jumpAt)
            let between := lastCarrier base
              ((fn.instructions.take labelAt).drop (jumpAt + 1))
            let beforeType := resolveCarrierType fn 8 before
            let betweenType := resolveCarrierType fn 8 between
            issueIf (before != [] && between != [] && beforeType != [] && betweenType != [] &&
                beforeType != betweenType) "provenance-merge-unsound" use.line
              "memory base receives different typed carriers on incoming control-flow edges"

end Elisa.Easm
