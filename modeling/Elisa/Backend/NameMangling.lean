import Elisa.Bytes

/-!
# Name mangling

The symbol of a generic instantiation is spelled by `mangledNameMultiInto`
(`codegen_name_mangling.elisa`): the base name, `__` and the spelling of each type argument, `__ov`
and the template slot where the name is overloaded, and a zero.

* `pushTypeName` spells a type by its kind, and by `bits` where that is an index or a value.
* `pushGenericArgName` spells a type argument: a const enum by its name, a struct by its registered
  name and, if it is an instantiation, `_` and the spelling of each of its arguments.
* `pushInstArgName` spells such an inner argument, a struct by its registered name only.

The argument lists are unrolled in the source, at four positions each.  A function that pushes onto
a byte array returns the bytes here.
-/

namespace Elisa.Backend

abbrev underscore : UInt8 := 95

/-! ## Types -/

inductive TypeKind where
  | unmodeled
  | signed
  | unsigned
  | bool
  | float
  | void
  | struct
  | array
  | packedEnum
  | packedStore
  | arena
  | payloadEnum
  | cstr
  | pyObject
  | ref
  | optional
  | errorUnion
  | dArray
  | view
  | sview
  | fn
  | guestCarrier
  | constUsize
deriving DecidableEq

/-- A modeled type.  `enumId` is the const enum a scalar was spelled as, plus
one. -/
structure ValueType where
  kind : TypeKind
  bits : UInt32
  enumId : UInt32 := 0
deriving DecidableEq

/-- A row of the generic struct instantiations: the struct it produced, and its
type arguments. -/
structure InstRow where
  index : Nat
  args : List ValueType
deriving DecidableEq

/-- The tables that spelling reads: the registered struct names, the const enum
names and the generic struct instantiations.  A generic struct's instantiations
are all registered under its base name, a tuple type under the empty one. -/
structure StructTable where
  names : List Bytes
  enumNames : List Bytes
  instRows : List InstRow

/-- The arguments of the first instantiation row of a struct, or `none` for a
plain struct (`generic_inst_row_of`, followed by the argument range it reads). -/
def StructTable.genericInstArgs (structs : StructTable) (structIndex : Nat) :
    Option (List ValueType) :=
  (structs.instRows.find? fun row => row.index == structIndex).map InstRow.args

/-! ## Decimal numbers -/

/-- The digits of a number, least significant first, in at most `steps` steps. -/
def decimalDigits : Nat → Nat → Bytes
  | 0, _ => []
  | steps + 1, remaining =>
    if remaining = 0 then []
    else (48 + remaining % 10).toUInt8 :: decimalDigits steps (remaining / 10)

def appendUsizeDecimal (value : Nat) : Bytes :=
  if value = 0 then [48] else (decimalDigits 24 value).reverse

/-! ## Spelling a type -/

def builtinStateMarkerName (tag : UInt32) : Bytes :=
  if tag = 1 then ascii "Local"
  else if tag = 2 then ascii "Frozen"
  else if tag = 3 then ascii "Joinable"
  else if tag = 4 then ascii "Pending"
  else if tag = 5 then ascii "Held"
  else ascii "unknown"

def builtinStateMarkerTag (name : Bytes) : UInt32 :=
  if name = ascii "Local" then 1
  else if name = ascii "Frozen" then 2
  else if name = ascii "Joinable" then 3
  else if name = ascii "Pending" then 4
  else if name = ascii "Held" then 5
  else 0

/-- The text of a kind, and whether `bits` follows it. -/
def typeText (valueType : ValueType) : Bytes × Bool :=
  match valueType.kind with
  | .unmodeled => (builtinStateMarkerName valueType.bits, false)
  | .bool => (ascii "bool", false)
  | .float => (if valueType.bits = 32 then ascii "f32" else ascii "f64", false)
  | .signed =>
    (if valueType.bits = 8 then ascii "i8"
     else if valueType.bits = 16 then ascii "i16"
     else if valueType.bits = 32 then ascii "i32"
     else ascii "i64", false)
  | .unsigned =>
    (if valueType.bits = 8 then ascii "u8"
     else if valueType.bits = 16 then ascii "u16"
     else if valueType.bits = 32 then ascii "u32"
     else ascii "u64", false)
  | .void => (ascii "void", false)
  | .struct => (ascii "st", true)
  | .array => (ascii "arr", true)
  | .packedEnum => (ascii "pe", true)
  | .packedStore => (ascii "ps", true)
  | .arena => (ascii "arena", false)
  | .payloadEnum => (ascii "en", true)
  | .cstr => (ascii "cstr", false)
  | .ref => (ascii "ref", true)
  | .optional => (ascii "opt", true)
  | .errorUnion => (ascii "eu", true)
  | .dArray => (ascii "da", true)
  | .view => (ascii "vw", true)
  | .sview => (ascii "sview", false)
  | .pyObject => (ascii "pyobj", false)
  | .fn => (ascii "fn", true)
  | .guestCarrier => (ascii "gc", true)
  | .constUsize => (ascii "n", true)

def pushTypeName (valueType : ValueType) : Bytes :=
  (typeText valueType).1 ++
    if (typeText valueType).2 then appendUsizeDecimal valueType.bits.toNat else []

/-! ## Spelling type arguments -/

def pushInstArgName (structs : StructTable) (valueType : ValueType) : Bytes :=
  if valueType.kind = .struct then structs.names.getD valueType.bits.toNat []
  else pushTypeName valueType

def appendInstArgAt (structs : StructTable) (args : List ValueType) (position : Nat) : Bytes :=
  match args[position]? with
  | some argument => underscore :: pushInstArgName structs argument
  | none => []

def pushGenericArgName (structs : StructTable) (valueType : ValueType) : Bytes :=
  if 0 < valueType.enumId ∧ valueType.enumId.toNat - 1 < structs.enumNames.length then
    structs.enumNames.getD (valueType.enumId.toNat - 1) []
  else if valueType.kind = .struct then
    structs.names.getD valueType.bits.toNat [] ++
      match structs.genericInstArgs valueType.bits.toNat with
      | none => []
      | some args =>
        appendInstArgAt structs args 0 ++ appendInstArgAt structs args 1 ++
          appendInstArgAt structs args 2 ++ appendInstArgAt structs args 3
  else pushTypeName valueType

/-- `__` and the type argument at a position; nothing past the end. -/
def appendMangledArg (structs : StructTable) (typeArgs : List ValueType) (position : Nat) :
    Bytes :=
  match typeArgs[position]? with
  | some argument => underscore :: underscore :: pushGenericArgName structs argument
  | none => []

/-- The symbol of an instantiation; the slot is given for an overloaded name. -/
def mangledNameMultiInto (structs : StructTable) (base : Bytes) (typeArgs : List ValueType)
    (slotSuffix : Option Nat) : Bytes :=
  base ++
    (appendMangledArg structs typeArgs 0 ++ appendMangledArg structs typeArgs 1 ++
      appendMangledArg structs typeArgs 2 ++ appendMangledArg structs typeArgs 3) ++
    (match slotSuffix with
      | some slot => underscore :: underscore :: 111 :: 118 :: appendUsizeDecimal slot
      | none => []) ++
    [0]

/-! ## Instantiations -/

/-- The names of the generic templates, by slot.  Their number is a `usize`. -/
structure GenericTable where
  names : List Bytes
  count_lt : names.length < 2 ^ 64

def GenericTable.genericSlotCount (generics : GenericTable) (name : Bytes) : Nat :=
  generics.names.count name

structure Instantiation (generics : GenericTable) (structs : StructTable) where
  slot : Fin generics.names.length
  typeArgs : List ValueType

namespace Instantiation

variable {generics : GenericTable} {structs : StructTable}

def base (inst : Instantiation generics structs) : Bytes := generics.names.get inst.slot

/-- Only an overloaded name gets its slot spelled. -/
def slotSuffix (inst : Instantiation generics structs) : Option Nat :=
  if 1 < generics.genericSlotCount inst.base then some inst.slot else none

def symbol (inst : Instantiation generics structs) : Bytes :=
  mangledNameMultiInto structs inst.base inst.typeArgs inst.slotSuffix

end Instantiation

end Elisa.Backend
