import Elisa.Bytes
import Elisa.Lib.Outcome

/-!
# The frontend IR container

A bundle (`.elisair`, format v2) is a magic, a version, the source, a table of types and one of
nodes, and the number of the root.  Numbers are base-128 varints, texts and bodies are preceded by
their length, and a node is a type, a field count and its fields, each a number with a payload.

`frontend_ir.elisa` reads it.  A reader takes a cursor and gives back the next one; one that returns
`false` is `invalid` here, one that indexes past the input is a `fault`.  Where a reader fails the
bundle is refused (`Parsed.refused`), and what the tables hold by then is not kept.

`frontend_ir_write.elisa` writes it.  The rows of the type table are any rows (`TypeRow`), and the
walk that decides which nodes are written is left out: a node is the list of its `ir_put_*` calls
and its `ir_emit_node`.
-/

namespace Elisa.Driver

open Outcome

/-! ## Bounds -/

def u32ValueFits (value : Nat) : Bool := decide (value ≤ 4294967295)

def countFitsInput (count inputBytes : Nat) : Bool := decide (count ≤ inputBytes)

def rootIsValid (root nodeCount : Nat) : Bool := decide (root > 0 ∧ root ≤ nodeCount)

def versionIsSupported (version : Nat) : Bool := decide (version = 2)

def varintPayloadFits (shift payload : Nat) : Bool := decide (shift ≠ 63 ∨ payload ≤ 1)

def varintContinuedShiftFits (shift : Nat) : Bool := decide (shift ≤ 63)

/-! ## Readers -/

def irUvarintLoop (data : Bytes) : (fuel position shift result : Nat) → Outcome (Nat × Nat)
  | 0, _, _, _ => invalid
  | fuel + 1, position, shift, result =>
    if position < data.length then do
      let byte ← index data position
      let payload := (byte &&& 127).toNat
      require (varintPayloadFits shift payload)
      let result := result ||| ((payload <<< shift) % wordLimit)
      if byte &&& 128 = 0 then return (result, position + 1)
      else do
        require (varintContinuedShiftFits (shift + 7))
        irUvarintLoop data fuel (position + 1) (shift + 7) result
    else invalid

def irUvarint (data : Bytes) (offset : Nat) : Outcome (Nat × Nat) :=
  irUvarintLoop data (data.length - offset) offset 0 0

/-- A signed number: the low bit carries the sign. -/
def irVarint (data : Bytes) (offset : Nat) : Outcome (Int × Nat) := do
  let (raw, next) ← irUvarint data offset
  let magnitude : Int := (raw >>> 1 : Nat)
  return (if raw &&& 1 ≠ 0 then (0 - magnitude) - 1 else magnitude, next)

/-- The start and the length of a length-prefixed span, and the next cursor. -/
def irSpan (data : Bytes) (offset : Nat) : Outcome (Nat × Nat × Nat) := do
  let (length, next) ← irUvarint data offset
  require (decide (next ≤ data.length))
  require (decide (length ≤ data.length - next))
  return (next, length, next + length)

/-- `ELISAIR2` and a line feed. -/
def irMagic : Bytes := [69, 76, 73, 83, 65, 73, 82, 50, 10]

def irMagicMatches (data : Bytes) : Bool := decide (9 ≤ data.length) && data.take 9 == irMagic

def irSkipValueSchema (data : Bytes) : (remainingDepth offset : Nat) → Outcome (UInt8 × Nat)
  | 0, _ => invalid
  | remainingDepth + 1, offset =>
    if offset < data.length then do
      let kind ← index data offset
      let next := offset + 1
      if kind = 5 then do
        let (_, next) ← irSkipValueSchema data remainingDepth next
        return (kind, next)
      else if kind = 6 then do
        let (_, next) ← irSkipValueSchema data remainingDepth next
        let (_, next) ← irSkipValueSchema data remainingDepth next
        return (kind, next)
      else if kind = 7 then do
        let (_, _, next) ← irSpan data next
        return (kind, next)
      else return (kind, next)
    else invalid

/-! ## Bundles -/

structure IrField where
  id : Nat
  start : Nat
  length : Nat
deriving DecidableEq

structure IrNode where
  typeId : Nat
  fieldStart : Nat
  fieldCount : Nat
deriving DecidableEq

structure IrTypeField where
  nameStart : Nat
  nameLength : Nat
  id : Nat
  kind : UInt8
deriving DecidableEq

structure IrType where
  nameStart : Nat
  nameLength : Nat
  fieldStart : Nat
  fieldCount : Nat
  id : Nat
deriving DecidableEq

structure IrBundle where
  types : List IrType
  typeFields : List IrTypeField
  nodes : List IrNode
  fields : List IrField
  sourceNameStart : Nat
  sourceNameLength : Nat
  resolvedStart : Nat
  resolvedLength : Nat
  version : Nat
  root : Nat
deriving DecidableEq

def IrBundle.empty : IrBundle := ⟨[], [], [], [], 0, 0, 0, 0, 0, 0⟩

/-- What reading a part of a bundle ends in. -/
inductive Parsed (α : Type) where
  | ok (value : α)
  | refused (errorLine : String)
  | fault (f : Fault)
deriving DecidableEq

namespace Parsed

variable {α β : Type}

protected def bind (x : Parsed α) (next : α → Parsed β) : Parsed β :=
  match x with
  | ok a => next a
  | refused errorLine => refused errorLine
  | fault f => fault f

instance : Monad Parsed where
  pure := ok
  bind := Parsed.bind

def expect (errorLine : String) : Outcome α → Parsed α
  | .ok a => ok a
  | .invalid => refused errorLine
  | .fault f => fault f

end Parsed

open Parsed

def fieldDescriptorError : String := "truncated or oversized field descriptor"

def irReadTypeFields (data : Bytes) : (count position : Nat) → IrBundle → Parsed (Nat × IrBundle)
  | 0, position, bundle => return (position, bundle)
  | count + 1, position, bundle => do
      let (fieldId, position) ← expect fieldDescriptorError (irUvarint data position)
      let (nameStart, nameLength, position) ← expect fieldDescriptorError (irSpan data position)
      let (kind, position) ←
        expect fieldDescriptorError (irSkipValueSchema data data.length position)
      expect fieldDescriptorError (require (u32ValueFits fieldId))
      irReadTypeFields data count position
        { bundle with typeFields := bundle.typeFields ++ [⟨nameStart, nameLength, fieldId, kind⟩] }

def typeDescriptorError : String := "truncated or oversized type descriptor"

def irReadOneType (data : Bytes) (offset : Nat) (bundle : IrBundle) : Parsed (Nat × IrBundle) := do
  let (typeId, position) ← expect typeDescriptorError (irUvarint data offset)
  let (nameStart, nameLength, position) ← expect typeDescriptorError (irSpan data position)
  let (fieldCount, position) ← expect typeDescriptorError (irUvarint data position)
  expect typeDescriptorError
    (require (u32ValueFits typeId && countFitsInput fieldCount data.length))
  let firstField := bundle.typeFields.length
  let (position, bundle) ← irReadTypeFields data fieldCount position bundle
  return (position, { bundle with
    types := bundle.types ++ [⟨nameStart, nameLength, firstField, fieldCount, typeId⟩] })

def irReadTypes (data : Bytes) : (count position : Nat) → IrBundle → Parsed (Nat × IrBundle)
  | 0, position, bundle => return (position, bundle)
  | count + 1, position, bundle => do
      let (position, bundle) ← irReadOneType data position bundle
      irReadTypes data count position bundle

def irReadTypeTable (data : Bytes) (offset : Nat) (bundle : IrBundle) :
    Parsed (Nat × IrBundle) := do
  let (count, position) ← expect "truncated type table" (irUvarint data offset)
  expect "type count exceeds input size" (require (countFitsInput count data.length))
  irReadTypes data count position bundle

def nodeFieldError : String := "truncated or oversized node field"

def irReadNodeFields (data : Bytes) (limit : Nat) :
    (count position : Nat) → IrBundle → Parsed IrBundle
  | 0, _, bundle => return bundle
  | count + 1, position, bundle => do
      let (fieldId, position) ← expect nodeFieldError (irUvarint data position)
      let (payloadStart, payloadLength, position) ← expect nodeFieldError (irSpan data position)
      expect nodeFieldError (require (decide (position ≤ limit) && u32ValueFits fieldId))
      irReadNodeFields data limit count position
        { bundle with fields := bundle.fields ++ [⟨fieldId, payloadStart, payloadLength⟩] }

def nodeHeaderError : String := "truncated or oversized node header"

def irReadNodeBody (data : Bytes) (start limit : Nat) (bundle : IrBundle) : Parsed IrBundle := do
  let (typeId, position) ← expect nodeHeaderError (irUvarint data start)
  let (fieldCount, position) ← expect nodeHeaderError (irUvarint data position)
  expect nodeHeaderError (require (u32ValueFits typeId && countFitsInput fieldCount data.length))
  let firstField := bundle.fields.length
  let bundle ← irReadNodeFields data limit fieldCount position bundle
  return { bundle with nodes := bundle.nodes ++ [⟨typeId, firstField, fieldCount⟩] }

def irReadNodes (data : Bytes) : (count position : Nat) → IrBundle → Parsed (Nat × IrBundle)
  | 0, position, bundle => return (position, bundle)
  | count + 1, position, bundle => do
      let (bodyStart, bodyLength, position) ← expect "truncated node body" (irSpan data position)
      let bundle ← irReadNodeBody data bodyStart (bodyStart + bodyLength) bundle
      irReadNodes data count position bundle

def irReadNodeTable (data : Bytes) (offset : Nat) (bundle : IrBundle) :
    Parsed (Nat × IrBundle) := do
  let (count, position) ← expect "truncated node table" (irUvarint data offset)
  expect "node count exceeds input size" (require (countFitsInput count data.length))
  irReadNodes data count position bundle

def irReadHeader (data : Bytes) (offset : Nat) (bundle : IrBundle) : Parsed (Nat × IrBundle) := do
  let (nameStart, nameLength, position) ← expect "truncated bundle header" (irSpan data offset)
  let (sourceStart, sourceLength, position) ←
    expect "truncated bundle header" (irSpan data position)
  return (position, { bundle with
    sourceNameStart := nameStart, sourceNameLength := nameLength,
    resolvedStart := sourceStart, resolvedLength := sourceLength })

def irReadRoot (data : Bytes) (offset : Nat) (bundle : IrBundle) : Parsed IrBundle := do
  let (root, _) ← expect "truncated root reference" (irUvarint data offset)
  expect "root reference exceeds supported range" (require (u32ValueFits root))
  expect "root reference is out of range" (require (rootIsValid root bundle.nodes.length))
  return { bundle with root := root }

def irReadPrologue (data : Bytes) : Parsed (Nat × IrBundle) := do
  expect "not a frontend IR bundle (bad magic)" (require (irMagicMatches data))
  let (version, position) ← expect "truncated version" (irUvarint data 9)
  expect "unsupported frontend IR version" (require (versionIsSupported version))
  let (position, bundle) ← irReadHeader data position { IrBundle.empty with version := version }
  irReadTypeTable data position bundle

def irBundleParse (data : Bytes) : Parsed IrBundle := do
  let (position, bundle) ← irReadPrologue data
  let (position, bundle) ← irReadNodeTable data position bundle
  irReadRoot data position bundle

/-! ## Writers -/

def irUvarintOutLoop : (fuel remaining : Nat) → Bytes
  | 0, _ => []
  | fuel + 1, remaining =>
    let chunk := UInt8.ofNat (remaining &&& 127)
    let remaining := remaining >>> 7
    if remaining = 0 then [chunk] else (chunk ||| 128) :: irUvarintOutLoop fuel remaining

def irUvarintOut (value : Nat) : Bytes := irUvarintOutLoop 10 value

/-- Negative numbers go through `value + 1`, whose negation is representable. -/
def irVarintOut (value : Int) : Bytes :=
  irUvarintOut (if value < 0 then ((0 - (value + 1)).toNat <<< 1) ||| 1 else value.toNat <<< 1)

def irBlobOut (data : Bytes) : Bytes := irUvarintOut data.length ++ data

/-- The fields of a node so far, and how many they are. -/
structure FieldBuffer where
  fields : Bytes
  live : Nat
deriving DecidableEq

def FieldBuffer.empty : FieldBuffer := ⟨[], 0⟩

/-- An already-built payload; an empty one is omitted. -/
def irPutRaw (buffer : FieldBuffer) (fieldId : Nat) (payload : Bytes) : FieldBuffer :=
  if payload.length = 0 then buffer
  else ⟨buffer.fields ++ irUvarintOut fieldId ++ irBlobOut payload, (buffer.live + 1) % 2 ^ 32⟩

def irPutBool (buffer : FieldBuffer) (fieldId : Nat) (value : Bool) : FieldBuffer :=
  if !value then buffer
  else ⟨buffer.fields ++ irUvarintOut fieldId ++ irUvarintOut 1 ++ [1], (buffer.live + 1) % 2 ^ 32⟩

def irPutInt (buffer : FieldBuffer) (fieldId : Nat) (value : Int) : FieldBuffer :=
  if value = 0 then buffer
  else ⟨buffer.fields ++ irUvarintOut fieldId ++ irBlobOut (irVarintOut value),
    (buffer.live + 1) % 2 ^ 32⟩

def irPutStr (buffer : FieldBuffer) (fieldId : Nat) (text : Bytes) : FieldBuffer :=
  if text.length = 0 then buffer
  else ⟨buffer.fields ++ irUvarintOut fieldId ++ irBlobOut (irBlobOut text),
    (buffer.live + 1) % 2 ^ 32⟩

/-- A node reference; zero is none and omitted. -/
def irPutNode (buffer : FieldBuffer) (fieldId nodeId : Nat) : FieldBuffer :=
  if nodeId = 0 then buffer
  else ⟨buffer.fields ++ irUvarintOut fieldId ++ irBlobOut (irUvarintOut nodeId),
    (buffer.live + 1) % 2 ^ 32⟩

def irPutNodeList (buffer : FieldBuffer) (fieldId : Nat) (nodeIds : List Nat) : FieldBuffer :=
  if nodeIds.length = 0 then buffer
  else ⟨buffer.fields ++ irUvarintOut fieldId ++
    irBlobOut (irUvarintOut nodeIds.length ++ nodeIds.flatMap irUvarintOut),
    (buffer.live + 1) % 2 ^ 32⟩

structure Pos where
  column : Nat
  endColumn : Nat
  endLine : Nat
  endOffset : Nat
  line : Nat
  offset : Nat
deriving DecidableEq

/-- A position travels inline: its type, its field count and its fields. -/
def irPosOut (pos : Pos) (filename : Bytes) : Bytes :=
  let buffer := irPutInt FieldBuffer.empty 1 pos.column
  let buffer := irPutInt buffer 2 pos.endColumn
  let buffer := irPutInt buffer 3 pos.endLine
  let buffer := irPutInt buffer 4 pos.endOffset
  let buffer := irPutStr buffer 5 filename
  let buffer := irPutInt buffer 6 pos.line
  let buffer := irPutInt buffer 7 pos.offset
  irUvarintOut 278 ++ irUvarintOut buffer.live ++ buffer.fields

def irPutPos (buffer : FieldBuffer) (fieldId : Nat) (pos : Pos) (filename : Bytes) : FieldBuffer :=
  irPutRaw buffer fieldId (irPosOut pos filename)

def irPutStrList (buffer : FieldBuffer) (fieldId : Nat) (texts : List Bytes) : FieldBuffer :=
  if texts.length = 0 then buffer
  else irPutRaw buffer fieldId (irUvarintOut texts.length ++ texts.flatMap irBlobOut)

/-- The node bodies so far, and how many they are. -/
structure NodeBuffer where
  bodies : Bytes
  nodes : Nat
deriving DecidableEq

/-- Frame the fields as a body.  The new node's number is the new count. -/
def irEmitNode (buffer : NodeBuffer) (typeId : Nat) (fields : FieldBuffer) : NodeBuffer :=
  ⟨buffer.bodies ++
    irBlobOut (irUvarintOut typeId ++ irUvarintOut fields.live ++ fields.fields),
    (buffer.nodes + 1) % 2 ^ 32⟩

/-! ## The type table -/

/-- A value descriptor: a kind, with the element of a list, the key and the value of a
map, or the name of an inline type. -/
inductive IrSchema where
  | leaf (kind : UInt8) (plain : kind ≠ 5 ∧ kind ≠ 6 ∧ kind ≠ 7)
  | list (element : IrSchema)
  | map (key value : IrSchema)
  | inline (name : Bytes)
deriving DecidableEq

def IrSchema.out : IrSchema → Bytes
  | .leaf kind _ => [kind]
  | .list element => 5 :: element.out
  | .map key value => 6 :: (key.out ++ value.out)
  | .inline name => 7 :: irBlobOut name

structure TypeFieldRow where
  id : Nat
  name : Bytes
  schema : IrSchema

structure TypeRow where
  id : Nat
  name : Bytes
  fields : List TypeFieldRow

def TypeFieldRow.out (row : TypeFieldRow) : Bytes :=
  irUvarintOut row.id ++ irBlobOut row.name ++ row.schema.out

def TypeRow.out (row : TypeRow) : Bytes :=
  irUvarintOut row.id ++ irBlobOut row.name ++ irUvarintOut row.fields.length ++
    row.fields.flatMap TypeFieldRow.out

def irTypeTableOut (table : List TypeRow) : Bytes :=
  irUvarintOut table.length ++ table.flatMap TypeRow.out

/-! ## Bundles written -/

inductive IrPut where
  | bool (value : Bool)
  | int (value : Int)
  | str (text : Bytes)
  | node (nodeId : Nat)
  | nodeList (nodeIds : List Nat)
  | raw (payload : Bytes)
  | pos (position : Pos) (filename : Bytes)
  | strList (texts : List Bytes)
deriving DecidableEq

def IrPut.apply (buffer : FieldBuffer) (fieldId : Nat) : IrPut → FieldBuffer
  | .bool value => irPutBool buffer fieldId value
  | .int value => irPutInt buffer fieldId value
  | .str text => irPutStr buffer fieldId text
  | .node nodeId => irPutNode buffer fieldId nodeId
  | .nodeList nodeIds => irPutNodeList buffer fieldId nodeIds
  | .raw payload => irPutRaw buffer fieldId payload
  | .pos position filename => irPutPos buffer fieldId position filename
  | .strList texts => irPutStrList buffer fieldId texts

structure NodeCalls where
  typeId : Nat
  puts : List (Nat × IrPut)
deriving DecidableEq

def NodeCalls.fields (node : NodeCalls) : FieldBuffer :=
  node.puts.foldl (fun buffer put => put.2.apply buffer put.1) FieldBuffer.empty

def irEmitNodes (nodes : List NodeCalls) : NodeBuffer :=
  nodes.foldl (fun buffer node => irEmitNode buffer node.typeId node.fields) ⟨[], 0⟩

def irImage (table : List TypeRow) (filename source : Bytes) (nodes : List NodeCalls) (root : Nat) :
    Bytes :=
  irMagic ++ irUvarintOut 2 ++ irBlobOut filename ++ irBlobOut source ++ irTypeTableOut table ++
    irUvarintOut (irEmitNodes nodes).nodes ++ (irEmitNodes nodes).bodies ++ irUvarintOut root

end Elisa.Driver
