import Elisa.Backend.ConstFold
import Elisa.Backend.NameMangling
import Elisa.Lib.Unfolding

/-!
# Constant globals

The initializer of a constant array or record becomes a constant of the module
(`codegen_const_globals.elisa`).  `constAggregateValue` builds a literal from its elements or
fields, and follows a name, an element of a named array and a field of a named record to the
declaration. Nothing marks the declarations on the way, so the recursion returns if and only if it
runs into no constant that stands for itself (`terminates_iff`).

`constAggregateWork` is one activation up to its recursive calls.  The tables of the program and the
folder of integers are parameters: none is called on the result of a recursive call.
-/

namespace Elisa.Backend

open Elisa.Lib

/-! ## Initializers and constants -/

/-- An initializer.  `other` is an expression that only the folder looks into. -/
inductive GlobalExpr where
  | ident (name : Bytes)
  | stringLit (text : Bytes)
  | floatLit (text : Bytes)
  | array (elements : List GlobalExpr)
  | index (object position : GlobalExpr)
  | construct (type : GlobalExpr) (fields : List (Bytes × GlobalExpr))
  | field (object : GlobalExpr) (name : Bytes)
  | unary (operator : TokenKind) (operand : GlobalExpr)
  | other (text : Bytes)

inductive GlobalConstant where
  | null (type : ValueType)
  | variant (type : ValueType) (tag : Nat)
  | int (type : ValueType) (value : Int64)
  | real (type : ValueType) (negative : Bool) (text : Bytes)
  | string (type : ValueType) (text : Bytes)
  | array (elementType : ValueType) (values : List GlobalConstant)
  | record (type : ValueType) (values : List GlobalConstant)

/-- What materialisation reads: the constants of the file in source order, the tables of types, and
the parts of the compiler that it asks. -/
structure GlobalTables where
  decls : List (Bytes × GlobalExpr)
  arrayElements : List ValueType
  arrayExtents : List Nat
  darrayElements : List ValueType
  optionalTargets : List ValueType
  refIsHeap : List Bool
  fieldStart : List Nat
  fieldCount : List Nat
  fieldTypes : List ValueType
  fieldIndexOf : Nat → Bytes → Option Nat
  arenaUserStruct : ValueType
  constType : Bytes → Option ValueType
  mutableGlobalType : Bytes → Option ValueType
  annotationValueType : GlobalExpr → ValueType
  plainVariant : GlobalExpr → ValueType → Option Nat
  enumConstantValue : GlobalExpr → Option Int64
  constEnumValueOfDottedPath : Bytes → Option Int64
  foldConstExpr : GlobalExpr → Option Int64

def unmodeledType : ValueType := { kind := .unmodeled, bits := 0 }

def ValueType.index (type : ValueType) : Nat := type.bits.toNat

def isNumericType (type : ValueType) : Bool :=
  type.kind = .signed ∨ type.kind = .unsigned ∨ type.kind = .float

def ValueType.isScalar (type : ValueType) : Bool :=
  isNumericType type || type.kind = .bool

namespace GlobalTables

variable (g : GlobalTables)

def constGlobalExpression (name : Bytes) : Option GlobalExpr :=
  (g.decls.find? fun declaration => declaration.1 = name).map Prod.snd

def arrayElementOf (type : ValueType) : ValueType :=
  if type.kind = .array then g.arrayElements.getD type.index unmodeledType else unmodeledType

def darrayElementOf (type : ValueType) : ValueType :=
  if type.kind = .dArray then g.darrayElements.getD type.index unmodeledType else unmodeledType

def optionalPayloadOf (type : ValueType) : ValueType :=
  if type.kind = .optional then g.optionalTargets.getD type.index unmodeledType else unmodeledType

def optionalIsNiche (type : ValueType) : Bool :=
  let payload := (g.optionalPayloadOf type).kind
  type.kind = .optional ∧
    (payload = .ref ∨ payload = .cstr ∨ payload = .fn ∨ payload = .pyObject)

def refIsHeapRef (type : ValueType) : Bool :=
  type.kind = .ref ∧ g.refIsHeap.getD type.index false

def fieldType (structIndex position : Nat) : ValueType :=
  g.fieldTypes.getD (g.fieldStart.getD structIndex 0 + position) unmodeledType

def sourceType (name : Bytes) : ValueType :=
  (g.constType name <|> g.mutableGlobalType name).getD unmodeledType

def acceptsString (type : ValueType) : Bool :=
  let payload := if type.kind = .optional then g.optionalPayloadOf type else type
  let element := g.darrayElementOf type
  let isByteDarray : Bool := type.kind = .dArray ∧ element.kind = .unsigned ∧ element.bits = 8
  let isNicheOptional := g.optionalIsNiche type
  (type.kind = .cstr ∨ type.kind = .sview ∨ isByteDarray ∨ type.kind = .ref ∨ isNicheOptional) ∧
    ¬ (type.kind = .ref ∧ g.refIsHeapRef type) ∧
    ¬ (isNicheOptional ∧ payload.kind ≠ .ref ∧ payload.kind ≠ .cstr)

end GlobalTables

/-! ## One activation -/

/-- What is left to do: nothing, one call whose result is returned, or a call for every element or
field of a literal. -/
inductive Work where
  | done (result : Option GlobalConstant)
  | follow (value : GlobalExpr) (type : ValueType)
  | elements (elementType : ValueType) (elements : List GlobalExpr)
  | fields (type : ValueType) (types : List ValueType) (placed : Bool)
      (parts : List (Nat × GlobalExpr × ValueType))

def null : Bytes := [110, 117, 108, 108]

def zeroed : Bytes := [122, 101, 114, 111, 101, 100]

def lastField (fields : List (Bytes × GlobalExpr)) (name : Bytes) : Option GlobalExpr :=
  (fields.reverse.find? fun entry => entry.1 = name).map Prod.snd

def lastFieldAt (fields : List (Bytes × GlobalExpr)) (name : Bytes) (position : Nat) :
    Option GlobalExpr :=
  (fields.zipIdx.reverse.find? fun entry =>
    entry.1.1 = name ∨ (entry.1.1 = [] ∧ entry.2 = position)).map fun entry => entry.1.2

section Work

variable (g : GlobalTables)

def enumConstant (value : GlobalExpr) (type : ValueType) : Option Int64 :=
  if type.isScalar then
    match value with
    | .field _ _ => g.enumConstantValue value
    | .ident path => g.constEnumValueOfDottedPath path
    | _ => none
  else none

def elementAt (elements : List GlobalExpr) (position : GlobalExpr) : Option GlobalExpr :=
  match g.foldConstExpr position with
  | none => none
  | some i => if 0 ≤ i then elements[i.toInt.toNat]? else none

def indexWork (object position : GlobalExpr) : Work :=
  match object with
  | .ident name =>
    match g.constGlobalExpression name with
    | some (.array elements) =>
      match elementAt g elements position with
      | some element => .follow element (g.arrayElementOf (g.sourceType name))
      | none => .done none
    | _ => .done none
  | _ => .done none

/-- The fields of a record literal, each with its position, if it has one. -/
def fieldParts (structIndex : Nat) (fields : List (Bytes × GlobalExpr)) :
    List (Option (Nat × GlobalExpr × ValueType)) :=
  fields.zipIdx.map fun entry =>
    let position := if entry.1.1 ≠ [] then g.fieldIndexOf structIndex entry.1.1 else some entry.2
    match position with
    | none => none
    | some position =>
      if position < g.fieldCount.getD structIndex 0 then
        some (position, entry.1.2, g.fieldType structIndex position)
      else none

def constructWork (fields : List (Bytes × GlobalExpr)) (type : ValueType) : Work :=
  let structType := if type.kind = .arena then g.arenaUserStruct else type
  if structType.kind ≠ .struct then .done none
  else
    let structIndex := structType.index
    let parts := fieldParts g structIndex fields
    .fields type ((List.range (g.fieldCount.getD structIndex 0)).map (g.fieldType structIndex))
      (parts.all Option.isSome) (parts.filterMap id)

/-- A field of a literal, of an element of a named array, or of a named record. -/
def fieldWork (object : GlobalExpr) (name : Bytes) (type : ValueType) : Work :=
  match object with
  | .construct constructType fields =>
    let structType := g.annotationValueType constructType
    if structType.kind = .struct then
      match g.fieldIndexOf structType.index name, lastField fields name with
      | some position, some value => .follow value (g.fieldType structType.index position)
      | _, _ => .done none
    else .done none
  | .index (.ident indexedName) position =>
    match g.constGlobalExpression indexedName with
    | some (.array elements) =>
      if (g.constType indexedName <|> g.mutableGlobalType indexedName).isSome then
        let elementType := g.arrayElementOf (g.sourceType indexedName)
        match elementAt g elements position with
        | none => .done none
        | some element =>
          if elementType.kind = .struct then
            match g.fieldIndexOf elementType.index name with
            | some position =>
              .follow (.field element name) (g.fieldType elementType.index position)
            | none => .done none
          else .done none
      else .done none
    | _ => .done none
  | .ident globalName =>
    match g.constGlobalExpression globalName with
    | some (.construct _ fields) =>
      match lastField fields name with
      | some value => .follow value type
      | none =>
        let structIndex := (g.sourceType globalName).index
        match g.fieldIndexOf structIndex name with
        | none => .done none
        | some position =>
          match lastFieldAt fields name position with
          | some value => .follow value (g.fieldType structIndex position)
          | none => .done none
    | _ => .done none
  | _ => .done none

def scalarWork (value : GlobalExpr) (type : ValueType) : Work :=
  let folded : Work :=
    if type.isScalar then .done ((g.foldConstExpr value).map (.int type)) else .done none
  match value with
  | .floatLit text => if type.kind = .float then .done (some (.real type false text)) else folded
  | .unary operator (.floatLit text) =>
    if type.kind = .float ∧ (operator = .minus ∨ operator = .plus) then
      .done (some (.real type (operator = .minus) text))
    else folded
  | _ => folded

/-- A literal, a name, an element or a field, by the type that is expected. -/
def valueWork (value : GlobalExpr) (type : ValueType) : Work :=
  match value with
  | .ident name =>
    if name = zeroed then .done (some (.null type))
    else
      match g.constGlobalExpression name with
      | some source => .follow source type
      | none => .done none
  | .stringLit text => .done (if g.acceptsString type then some (.string type text) else none)
  | value =>
    if type.kind = .array then
      match value with
      | .array elements =>
        if elements.length ≠ g.arrayExtents.getD type.index 0 then .done none
        else .elements (g.arrayElementOf type) elements
      | _ => .done none
    else
      match value with
      | .index object position => indexWork g object position
      | value =>
        if type.kind = .struct ∨ type.kind = .arena then
          match value with
          | .construct _ fields => constructWork g fields type
          | _ => .done none
        else
          match value with
          | .field object name => fieldWork g object name type
          | value => scalarWork g value type

def isNullLiteral : GlobalExpr → Bool
  | .ident name => name = null
  | _ => false

def constAggregateWork (value : GlobalExpr) (type : ValueType) : Work :=
  match (if type.kind = .payloadEnum then g.plainVariant value type else none) with
  | some tag => .done (some (.variant type tag))
  | none =>
    if isNullLiteral value then .done (if type.kind = .optional then some (.null type) else none)
    else
      match enumConstant g value type with
      | some constant => .done (some (.int type constant))
      | none => valueWork g value type

end Work

/-! ## The recursion -/

section Recursion

variable (g : GlobalTables)

/-- The record of the fields that are there; a field that is given twice keeps the last value. -/
def recordOf (type : ValueType) (types : List ValueType) (parts : List (Nat × GlobalConstant)) :
    GlobalConstant :=
  .record type (parts.foldl (fun values part => values.set part.1 part.2) (types.map .null))

/-- The constant of an initializer at a type, or a failure; nothing while the fuel does not
suffice. -/
def constAggregateValue : Nat → GlobalExpr → ValueType → Option (Option GlobalConstant)
  | 0, _, _ => none
  | fuel + 1, value, type =>
    match constAggregateWork g value type with
    | .done result => some result
    | .follow value type => constAggregateValue fuel value type
    | .elements elementType elements => do
      let children ← elements.mapM fun element => constAggregateValue fuel element elementType
      some (do
        let values ← children.mapM id
        if values = [] then none else some (.array elementType values))
    | .fields type types placed parts => do
      let children ← parts.mapM fun part => do
        let child ← constAggregateValue fuel part.2.1 part.2.2
        some (part.1, child)
      some (do
        let values ← children.mapM fun child => child.2.map (child.1, ·)
        if placed then some (recordOf type types values) else none)

def Terminates (value : GlobalExpr) (type : ValueType) : Prop :=
  ∃ fuel, (constAggregateValue g fuel value type).isSome

end Recursion

end Elisa.Backend
