import Elisa.Easm.Operands

/-!
# Modules of machine functions and their parser

The declarations of an EASM source (`easm_model.elisa`) and the line parser that builds them
(`easm_compose_text.elisa`, `easm_parse.elisa`), up to the expansion of composed fragments.  A line
that belongs nowhere is an issue.
-/

namespace Elisa.Easm

/-! ## Declarations -/

inductive Severity where
  | error
  | warning
  deriving DecidableEq

structure Issue where
  severity : Severity
  code : String
  line : Int
  message : String
  deriving DecidableEq

def errorIssue (code : String) (line : Int) (message : String) : Issue :=
  { severity := .error, code := code, line := line, message := message }

def hasErrors (issues : List Issue) : Bool := issues.any fun issue => issue.severity == .error

structure Param where
  name : Bytes
  typeName : Bytes
  deriving DecidableEq

structure TargetBody where
  arch : Bytes
  lockstep : Bytes
  instructions : List Instruction
  line : Int
  deriving DecidableEq

structure LabelContract where
  name : Bytes
  preconditions : List Bytes
  line : Int
  deriving DecidableEq

structure Function where
  name : Bytes
  params : List Param
  returnType : Bytes
  abi : Bytes
  effects : List Bytes
  requires : List Bytes
  changes : List Bytes
  reads : List Bytes
  clobbers : List Bytes
  preserves : List Bytes
  facts : List Bytes
  inputs : List Bytes
  outputs : List Bytes
  stackFacts : List Bytes
  control : List Bytes
  labels : List LabelContract
  instructions : List Instruction
  reference : List Instruction
  targets : List TargetBody
  line : Int
  platform : Bytes
  deriving DecidableEq

structure LayoutField where
  offset : Int
  name : Bytes
  typeName : Bytes
  width : Int
  requiresSizeAtLeast : Int
  line : Int
  deriving DecidableEq

structure Layout where
  name : Bytes
  fields : List LayoutField
  size : Int
  stride : Int
  line : Int
  deriving DecidableEq

structure ProtocolMethod where
  name : Bytes
  arity : Nat
  returnType : Bytes
  deriving DecidableEq

structure Protocol where
  name : Bytes
  methods : List ProtocolMethod
  line : Int
  deriving DecidableEq

structure PatchPoint where
  hole : Bytes
  typeName : Bytes
  instructionIndex : Nat
  className : Bytes
  deriving DecidableEq

structure Template where
  name : Bytes
  holes : List Param
  instructions : List Instruction
  patchPoints : List PatchPoint
  line : Int
  deriving DecidableEq

structure Module where
  path : Bytes
  name : Bytes
  target : Bytes
  issues : List Issue
  functions : List Function
  fragments : List Function
  protocols : List Protocol
  templates : List Template
  layouts : List Layout
  deriving DecidableEq

/-! ## Headers and instructions -/

def parseParams (text : Bytes) : List Param :=
  (splitCommas text).filterMap fun piece =>
    let part := trim piece
    if part = [] then none
    else
      let colon := find part (ascii ":")
      if colon < part.length then
        some { name := trim (slice part 0 colon), typeName := trim (after part (colon + 1)) }
      else some { name := part, typeName := [] }

def splitValues (text : Bytes) : List Bytes :=
  (splitCommas text).filterMap fun piece => if trim piece = [] then none else some (trim piece)

def signatureClause (signature : Bytes) (word : String) : Option Bytes :=
  let found := find signature (ascii word)
  if found < signature.length then some (trim (after signature (found + word.length))) else none

def makeFunction (lineView : Bytes) (lineNumber : Int) (fragment : Bool) : Function :=
  let prefixLength :=
    if fragment then 9 else if startsWith lineView (ascii "template def ") then 13 else 11
  let opening := find lineView (ascii "(")
  let closing := find lineView (ascii ")")
  let params :=
    if opening < closing then parseParams (slice lineView (opening + 1) closing) else []
  let rest := after lineView closing
  let arrow := find rest (ascii "->")
  let signature? : Option Bytes :=
    if !fragment && decide (closing < lineView.length) && decide (arrow < rest.length) then
      some (trim (after lineView (closing + arrow + 2)))
    else none
  let clause (word : String) : Option Bytes := signature?.bind (signatureClause · word)
  let abi := match clause " abi " with
    | some text => slice text 0 (firstSpace text)
    | none => []
  let platform := match clause " for " with
    | some text =>
      let stop :=
        if text.head? = some 40 ∧ find text (ascii ")") < text.length then
          find text (ascii ")") + 1
        else firstSpace text
      slice text 0 stop
    | none => ascii "any"
  let effects := match clause " can " with
    | some text =>
      let stop := find text (ascii " abi ")
      let stop := if stop = text.length then find text (ascii " for ") else stop
      [trim (slice text 0 stop)]
    | none => []
  { name := trim (slice lineView prefixLength opening)
    params := params
    returnType := match signature? with
      | some text => trim (slice text 0 (firstSpace text))
      | none => ascii "void"
    abi := abi
    effects := effects
    requires := (clause " requires ").toList
    changes := [], reads := []
    clobbers := (clause " clobbers ").toList
    preserves := [], facts := [], inputs := [], outputs := [], stackFacts := [], control := []
    labels := [], instructions := [], reference := [], targets := []
    line := lineNumber
    platform := platform }

/-- The operation of a line: its first word, or one of the operations that stand for a
composition, a fact and a label. -/
def parseInstruction (lineView : Bytes) (lineNumber : Int) : Instruction :=
  let word := slice lineView 0 (firstSpace lineView)
  let op := if startsWith lineView (ascii "compose ") then ascii "compose" else word
  let pseudo := word.head? == some 46 || startsWith lineView (ascii "compose ")
  let isState := startsWith lineView (ascii "state ") || startsWith lineView (ascii "fact ") ||
    startsWith lineView (ascii "assume ")
  let isLabel := lineView.getLast? == some 58 && trim lineView.dropLast != []
  { op := if isLabel then ascii "label" else if isState then ascii "state" else op
    text := lineView
    line := lineNumber
    pseudo := pseudo || isState || isLabel
    substitutions := [] }

/-! ## Compositions -/

structure ComposeInfo where
  flag : Bytes
  name : Bytes
  argumentCount : Nat
  valid : Bool
  deriving DecidableEq

def composeArgumentCount (text : Bytes) : Nat :=
  if trim text = [] then 0 else text.count 44 + 1

def invalidCompose : ComposeInfo := { flag := [], name := [], argumentCount := 0, valid := false }

/-- The parts of `compose flag name(arguments)`. -/
def parseCompose (text : Bytes) : ComposeInfo :=
  if !startsWith text (ascii "compose ") then invalidCompose
  else
    let rest := trim (after text 8)
    let opening := find rest (ascii "(")
    let head := if opening < rest.length then trim (slice rest 0 opening) else rest
    if head = [] then invalidCompose
    else
      let space := firstSpace head
      let flagged := decide (space < head.length)
      let arguments := slice (after rest opening) 1 (find (after rest opening) (ascii ")"))
      { flag := if flagged then trim (slice head 0 space) else []
        name := if flagged then trim (after head space) else head
        argumentCount := if opening < rest.length then composeArgumentCount arguments else 0
        valid := true }

/-- The piece of the arguments that is wanted, as a span of them: the pieces end at commas. -/
def composePiece : Nat → Nat → Bytes → Option (Nat × Nat)
  | 0, start, values => some (start, start + (values.takeWhile (· != 44)).length)
  | wanted + 1, start, values =>
    let stop := findByte values 44
    if stop < values.length then composePiece wanted (start + stop + 1) (values.drop (stop + 1))
    else none

def composeSpan (text : Bytes) (wanted : Nat) : Option (Nat × Nat) :=
  let opening := findByte text 40
  if opening ≥ text.length then none
  else
    let closing := opening + findByte (after text opening) 41
    let values := slice text (opening + 1) closing
    if wanted ≥ composeArgumentCount values then none
    else
      match composePiece wanted 0 values with
      | none => none
      | some (start, stop) =>
        let bounds := trimBounds (slice values start stop)
        some (opening + 1 + start + bounds.1, opening + 1 + start + bounds.2)

/-! ## Lines -/

inductive DeclarationKind where
  | none
  | function
  | fragment
  | protocol
  | template
  | layout
  deriving DecidableEq

inductive BodyMode where
  | none
  | reference
  | target
  deriving DecidableEq

structure ParseState where
  out : Module
  lineNumber : Int
  activeLayout : Int
  currentKind : DeclarationKind
  currentIndex : Int
  section_ : Bytes
  bodyMode : BodyMode
  activeTarget : Int
  deriving DecidableEq

def declarationIndexValid (kind : DeclarationKind) (index : Int) (out : Module) : Bool :=
  let below (count : Nat) : Bool := decide (0 ≤ index ∧ index < count)
  match kind with
  | .function => below out.functions.length
  | .fragment => below out.fragments.length
  | .protocol => below out.protocols.length
  | .template => below out.templates.length
  | .none => true
  | .layout => true

def bodyRoutingValid (mode : BodyMode) (kind : DeclarationKind) (activeTarget : Int) : Bool :=
  (mode != .target || decide (activeTarget ≥ 0) && kind == .function) &&
    (mode != .reference || kind == .function || kind == .fragment)

def ParseState.valid (state : ParseState) : Bool :=
  declarationIndexValid state.currentKind state.currentIndex state.out &&
    decide (state.activeLayout ≥ -1) &&
    (state.currentKind == .layout) == decide (state.activeLayout ≥ 0) &&
    decide (state.activeLayout < 0 ∨ state.activeLayout < state.out.layouts.length) &&
    (decide (state.activeTarget = -1) ||
      decide (state.activeTarget ≥ 0) && state.currentKind == .function &&
        decide (0 ≤ state.currentIndex ∧ state.currentIndex < state.out.functions.length) &&
        match state.out.functions[state.currentIndex.toNat]? with
        | some fn => decide (state.activeTarget < fn.targets.length)
        | none => false) &&
    bodyRoutingValid state.bodyMode state.currentKind state.activeTarget

def ParseState.leave (state : ParseState) : ParseState :=
  { state with activeLayout := -1, currentKind := .none, section_ := [], bodyMode := .none,
               activeTarget := -1 }

def ParseState.report (state : ParseState) (code message : String) : ParseState :=
  { state with out := { state.out with
      issues := state.out.issues ++ [errorIssue code state.lineNumber message] } }

def ParseState.reportIf (state : ParseState) (condition : Bool) (code message : String) :
    ParseState :=
  if condition then state.report code message else state

def ParseState.modifyFunction (state : ParseState) (change : Function → Function) : ParseState :=
  { state with out := { state.out with
      functions := state.out.functions.modify state.currentIndex.toNat change } }

/-! ### Targets, layouts and protocols -/

/-- A lockstep target of the current function, if the line declares one. -/
def parseTargetBody (state : ParseState) (lineView : Bytes) : Option ParseState :=
  let tail := trim (after lineView 7)
  let lockstep := find tail (ascii " lockstep ")
  if lockstep < tail.length then
    let name := trim (after tail (lockstep + 10))
    let name := if name.getLast? = some 58 then trim name.dropLast else name
    let body : TargetBody :=
      { arch := trim (slice tail 0 lockstep), lockstep := name, instructions := [],
        line := state.lineNumber }
    let count := match state.out.functions[state.currentIndex.toNat]? with
      | some fn => fn.targets.length
      | none => 0
    some { state.modifyFunction (fun fn => { fn with targets := fn.targets ++ [body] }) with
           activeTarget := count, bodyMode := .target, section_ := ascii "body" }
  else none

def typeWidth (typeName : Bytes) : Int :=
  if oneOf typeName ["u8", "i8", "bool"] then 1
  else if oneOf typeName ["u16", "i16"] then 2
  else if oneOf typeName ["u32", "i32", "f32"] then 4
  else if oneOf typeName ["u64", "i64", "f64", "ptr", "uintptr"] then 8
  else 0

def parseLayoutHeader (state : ParseState) (lineView : Bytes) : ParseState :=
  let header := trim (after lineView 7)
  -- the last colon of the header ends it
  let colon := if header.contains 58 then header.length - 1 - findByte header.reverse 58
    else header.length
  let nameEnd := firstSpace (slice header 0 colon)
  let attributes := trim (slice header nameEnd colon)
  let sizeText := trim (after attributes 5)
  let strideText := trim (after attributes 7)
  let hasSize := startsWith attributes (ascii "size ")
  let hasStride := startsWith attributes (ascii "stride ")
  let state := state.reportIf (hasSize && (parseSigned sizeText).isNone) "invalid-layout-size"
    "layout size must be a valid signed 64-bit decimal integer"
  let state := state.reportIf (hasStride && (parseSigned strideText).isNone) "invalid-layout-stride"
    "layout stride must be a valid signed 64-bit decimal integer"
  let layout : Layout :=
    { name := trim (slice header 0 nameEnd), fields := []
      size := if hasSize then parseI64 sizeText else 0
      stride := if hasStride then parseI64 strideText else 0
      line := state.lineNumber }
  { state with
    activeLayout := state.out.layouts.length
    out := { state.out with layouts := state.out.layouts ++ [layout] }
    currentKind := .layout, section_ := [], bodyMode := .none, activeTarget := -1 }

/-- The parts of a line of a layout: `offset name: type requires size >= bound`. -/
structure FieldText where
  name : Bytes
  typeName : Bytes
  numeric : Bool
  offset : Option Int
  guarded : Bool
  required : Option Int
  deriving DecidableEq

def fieldText (lineView : Bytes) : FieldText :=
  let firstEnd := firstSpace lineView
  let offsetText := slice lineView 0 firstEnd
  let rest := trim (after lineView firstEnd)
  let fieldEnd := firstSpace rest
  let fieldColon := find (slice rest 0 (fieldEnd + 1)) (ascii ":")
  let fieldEnd := if fieldColon < (slice rest 0 (fieldEnd + 1)).length then fieldColon else fieldEnd
  let typeStart := fieldEnd +
    ((after rest fieldEnd).takeWhile fun byte => isBlank byte || byte == 58).length
  let typeEnd := typeStart + firstSpace (after rest typeStart)
  let guardAt := find (after rest typeEnd) (ascii "requires size >= ")
  let guarded := decide (guardAt < (after rest typeEnd).length)
  let numeric := match offsetText.head? with
    | some byte => byte ≥ 48 && byte ≤ 57
    | none => false
  { name := trim (slice rest 0 fieldEnd)
    typeName := slice rest typeStart typeEnd
    numeric := numeric
    offset := bif numeric then parseSigned offsetText else none
    guarded := guarded
    required :=
      bif guarded then parseSigned (trim (after rest (typeEnd + guardAt + 17))) else some 0 }

def parseLayoutField (state : ParseState) (lineView : Bytes) : ParseState × Bool :=
  let parts := fieldText lineView
  let state := state.reportIf (parts.guarded && parts.required.isNone)
    "invalid-layout-required-size"
    "required layout size must be a valid signed 64-bit decimal integer"
  let state := state.reportIf (parts.numeric && parts.offset.isNone) "invalid-layout-field-offset"
    "layout field offset must be a valid signed 64-bit decimal integer"
  match parts.offset, parts.required with
  | some offset, some required =>
    if parts.name ≠ [] ∧ parts.typeName ≠ [] then
      let field : LayoutField :=
        { offset := offset, name := parts.name, typeName := parts.typeName
          width := typeWidth parts.typeName, requiresSizeAtLeast := required
          line := state.lineNumber }
      ({ state with out := { state.out with
          layouts := state.out.layouts.modify state.activeLayout.toNat
            fun layout => { layout with fields := layout.fields ++ [field] } } }, true)
    else ({ state with activeLayout := -1, currentKind := .none }, false)
  | _, _ => ({ state with activeLayout := -1, currentKind := .none }, false)

def parseProtocolHeader (state : ParseState) (lineView : Bytes) : ParseState :=
  let header := trim (after lineView 9)
  let protocol : Protocol :=
    { name := trim (slice header 0 (find header (ascii ":"))), methods := []
      line := state.lineNumber }
  { state with
    currentIndex := state.out.protocols.length
    out := { state.out with protocols := state.out.protocols ++ [protocol] }
    currentKind := .protocol, section_ := [], bodyMode := .none, activeTarget := -1 }

def parseProtocolMethod (state : ParseState) (lineView : Bytes) : ParseState × Bool :=
  let opening := find lineView (ascii "(")
  let closing := find lineView (ascii ")")
  let rest := after lineView closing
  let arrow := if closing < lineView.length then find rest (ascii "->") else lineView.length
  if opening < closing ∧ arrow < rest.length then
    let method : ProtocolMethod :=
      { name := trim (slice lineView 0 opening)
        arity := (parseParams (slice lineView (opening + 1) closing)).length
        returnType := trim (after lineView (closing + arrow + 2)) }
    ({ state with out := { state.out with
        protocols := state.out.protocols.modify state.currentIndex.toNat
          fun protocol => { protocol with methods := protocol.methods ++ [method] } } }, true)
  else ({ state with currentKind := .none }, false)

/-! ### Functions, fragments and templates -/

def parseDeclaration (state : ParseState) (lineView : Bytes) (fragment : Bool) : ParseState :=
  let fn := makeFunction lineView state.lineNumber fragment
  let state :=
    if fragment then
      { state with
        currentIndex := state.out.fragments.length
        out := { state.out with fragments := state.out.fragments ++ [fn] }
        currentKind := .fragment }
    else
      { state with
        currentIndex := state.out.functions.length
        out := { state.out with functions := state.out.functions ++ [fn] }
        currentKind := .function }
  { state with activeLayout := -1, section_ := [], bodyMode := .none, activeTarget := -1 }

def parseTemplateHeader (state : ParseState) (lineView : Bytes) : ParseState :=
  let fn := makeFunction lineView state.lineNumber false
  let template : Template :=
    { name := fn.name, holes := fn.params, instructions := [], patchPoints := []
      line := state.lineNumber }
  { state with
    currentIndex := state.out.templates.length
    out := { state.out with templates := state.out.templates ++ [template] }
    currentKind := .template, activeLayout := -1, section_ := ascii "body", bodyMode := .none
    activeTarget := -1 }

def parseTemplateLine (state : ParseState) (lineView : Bytes) : ParseState :=
  let instruction := parseInstruction lineView state.lineNumber
  { state with out := { state.out with
      templates := state.out.templates.modify state.currentIndex.toNat fun template =>
        let points := (template.holes.filter fun hole => holds instruction.text hole.name).map
          fun hole =>
            { hole := hole.name, typeName := hole.typeName
              instructionIndex := template.instructions.length
              className :=
                if oneOf hole.typeName ["u16", "i16"] then ascii "sel16" else ascii "wide64" }
        { template with instructions := template.instructions ++ [instruction]
                        patchPoints := template.patchPoints ++ points } } }

def addSectionLine (section_ lineView : Bytes) (lineNumber : Int) (fn : Function) : Function :=
  if section_ = ascii "facts" then { fn with facts := fn.facts ++ [lineView] }
  else if section_ = ascii "inputs" then { fn with inputs := fn.inputs ++ [lineView] }
  else if section_ = ascii "outputs" then { fn with outputs := fn.outputs ++ [lineView] }
  else if section_ = ascii "requires" then { fn with requires := fn.requires ++ [lineView] }
  else if section_ = ascii "changes" then { fn with changes := fn.changes ++ [lineView] }
  else if section_ = ascii "reads" then { fn with reads := fn.reads ++ [lineView] }
  else if section_ = ascii "clobbers" then { fn with clobbers := fn.clobbers ++ [lineView] }
  else if section_ = ascii "preserves" then { fn with preserves := fn.preserves ++ [lineView] }
  else if section_ = ascii "stack" then { fn with stackFacts := fn.stackFacts ++ [lineView] }
  else if section_ = ascii "control" then { fn with control := fn.control ++ [lineView] }
  else if section_ = ascii "labels" then
    let colon := find lineView (ascii ":")
    let contract : LabelContract :=
      { name := trim (slice lineView 0 colon)
        preconditions :=
          if colon < lineView.length then splitValues (after lineView (colon + 1)) else []
        line := lineNumber }
    { fn with labels := fn.labels ++ [contract] }
  else fn

def addInstruction (state : ParseState) (instruction : Instruction) : ParseState :=
  if state.currentKind = .function then
    state.modifyFunction fun fn =>
      if state.bodyMode = .reference then { fn with reference := fn.reference ++ [instruction] }
      else if state.bodyMode = .target ∧ state.activeTarget ≥ 0 then
        { fn with targets := fn.targets.modify state.activeTarget.toNat fun body =>
            { body with instructions := body.instructions ++ [instruction] } }
      else { fn with instructions := fn.instructions ++ [instruction] }
  else
    { state with out := { state.out with
        fragments := state.out.fragments.modify state.currentIndex.toNat fun fragment =>
          { fragment with instructions := fragment.instructions ++ [instruction] } } }

def parseBodyLine (state : ParseState) (lineView : Bytes) : ParseState :=
  let colon := find lineView (ascii ":")
  if lineView = ascii "reference:" then
    { state with bodyMode := .reference, activeTarget := -1, section_ := ascii "body" }
  else if startsWith lineView (ascii "body:") then
    { state with section_ := ascii "body", bodyMode := .none }
  else if state.section_ ≠ ascii "body" ∧ colon < lineView.length ∧
      after lineView (colon + 1) = [] then
    { state with section_ := trim (slice lineView 0 colon) }
  else if state.section_ ≠ [] ∧ state.section_ ≠ ascii "body" then
    if state.currentKind = .function then
      state.modifyFunction (addSectionLine state.section_ lineView state.lineNumber)
    else state
  else addInstruction state (parseInstruction lineView state.lineNumber)

def parseInnerLine (state : ParseState) (lineView : Bytes) : ParseState :=
  let isFragment := startsWith lineView (ascii "fragment ")
  if startsWith lineView (ascii "export def ") || isFragment then
    parseDeclaration state lineView isFragment
  else if startsWith lineView (ascii "template def ") then parseTemplateHeader state lineView
  else if state.currentKind = .template then parseTemplateLine state lineView
  else if state.currentKind = .function ∨ state.currentKind = .fragment then
    parseBodyLine state lineView
  else state.report "unexpected-top-level"
    "expected module, target, export def, fragment, protocol, layout, or template def"

def parseProtocolLine (state : ParseState) (lineView : Bytes) : ParseState :=
  if startsWith lineView (ascii "protocol ") then parseProtocolHeader state lineView
  else if state.currentKind = .protocol then
    match parseProtocolMethod state lineView with
    | (state, true) => state
    | (state, false) => parseInnerLine state lineView
  else parseInnerLine state lineView

def parseLayoutLine (state : ParseState) (lineView : Bytes) : ParseState :=
  if startsWith lineView (ascii "layout ") then parseLayoutHeader state lineView
  else if state.activeLayout ≥ 0 then
    match parseLayoutField state lineView with
    | (state, true) => state
    | (state, false) => parseProtocolLine state lineView
  else parseProtocolLine state lineView

def parseLine (state : ParseState) (rawLine : Bytes) : ParseState :=
  let state := if state.valid then state else { state.leave with currentIndex := -1 }
  let state := { state with lineNumber := state.lineNumber + 1 }
  let lineView := trim rawLine
  if lineView = [] ∨ lineView.head? = some 35 then state
  else if startsWith lineView (ascii "module ") then
    { state with out := { state.out with name := trim (after lineView 7) } }.leave
  else if startsWith lineView (ascii "target ") then
    let outer : ParseState :=
      { state with out := { state.out with target := trim (after lineView 7) } }.leave
    if state.currentKind = .function then (parseTargetBody state lineView).getD outer else outer
  else parseLayoutLine state lineView

/-- The lines of a source; a line feed at the end opens no further line. -/
def sourceLines : Bytes → List Bytes
  | [] => []
  | byte :: rest =>
    if byte = 10 then [] :: sourceLines rest
    else
      match sourceLines rest with
      | [] => [[byte]]
      | line :: lines => (byte :: line) :: lines

def emptyModule (path : Bytes) : Module :=
  { path := path, name := [], target := ascii "any", issues := [], functions := [],
    fragments := [], protocols := [], templates := [], layouts := [] }

def parseDeclarations (source path : Bytes) : Module :=
  ((sourceLines source).foldl parseLine
    { out := emptyModule path, lineNumber := 0, activeLayout := -1, currentKind := .none,
      currentIndex := -1, section_ := [], bodyMode := .none, activeTarget := -1 }).out

end Elisa.Easm
