import Elisa.Semantic.SymbolIndex

/-!
# The table of types

Types are rows of parallel arrays, and the id of a type is the number of its row plus one.  Rows
with the same hash of name and elements are chained, the newest first.  Interning walks a chain and
keeps the last row that matches, or else puts a row at the end.  A read outside of an array traps
(`none`).
-/

namespace Elisa.Semantic

inductive SemTypeKind where
  | unknown
  | void
  | int
  | float
  | bool
  | char
  | string
  | named
  | tuple
  | optional
  | ref
  | container
  | region
  deriving DecidableEq

structure RegionId where
  value : UInt32

/-- The part of a symbol table that holds the types. -/
structure TypeTable where
  typeRowKind : List SemTypeKind
  typeRowName : List Bytes
  typeRowElemStart : List UInt32
  typeRowElemCount : List UInt32
  typeElemPool : List UInt32
  typeRowRegionIds : List UInt32
  typeRowHeads : Dict UInt32
  typeRowNext : List UInt32

namespace TypeTable

def empty : TypeTable :=
  { typeRowKind := [], typeRowName := [], typeRowElemStart := [], typeRowElemCount := [],
    typeElemPool := [], typeRowRegionIds := [], typeRowHeads := fun _ => none, typeRowNext := [] }

/-! ## Hashes and chains -/

def typeRowHash (name : Bytes) (elems : List UInt32) : UInt64 :=
  elems.foldl (fun hash elementId => (hash ^^^ elementId.toUInt64) * semanticHashPrime)
    (nameHash name)

def typeRowHashOne (name : Bytes) (elementId : UInt32) : UInt64 :=
  (nameHash name ^^^ elementId.toUInt64) * semanticHashPrime

def typeRowChainHead (table : TypeTable) (hash : UInt64) : UInt32 :=
  (table.typeRowHeads hash).getD symbolIndexRowNone

/-- Chains the row that is pushed next. -/
def indexTypeRow (table : TypeTable) (hash : UInt64) : TypeTable :=
  let row := table.typeRowKind.length
  let previous := typeRowChainHead table hash
  let next := table.typeRowNext ++ [previous]
  { table with typeRowNext := next, typeRowHeads := table.typeRowHeads.put hash row.toUInt32 }

/-! ## Comparing rows -/

/-- Whether the pool holds some elements from a place on. -/
def poolMatches (table : TypeTable) : Nat → List UInt32 → Option Bool
  | _, [] => some true
  | position, element :: rest => do
    let stored ← table.typeElemPool[position]?
    if stored ≠ element then some false else poolMatches table (position + 1) rest

def regionIsPlain (row : Nat) (kind : SemTypeKind) (table : TypeTable) : Bool :=
  kind ≠ .region || (table.typeRowRegionIds[row]?.any (· = 0))

def typeRowMatches (row : Nat) (kind : SemTypeKind) (name : Bytes) (elems : List UInt32)
    (table : TypeTable) : Option Bool := do
  let rowKind ← table.typeRowKind[row]?
  if rowKind ≠ kind then return false
  let rowName ← table.typeRowName[row]?
  if rowName ≠ name then return false
  if !regionIsPlain row kind table then return false
  let rowElemCount ← table.typeRowElemCount[row]?
  if rowElemCount.toNat ≠ elems.length then return false
  let rowStart ← table.typeRowElemStart[row]?
  poolMatches table rowStart.toNat elems

def typeRowMatchesOne (row : Nat) (kind : SemTypeKind) (name : Bytes) (elementId : UInt32)
    (table : TypeTable) : Option Bool := do
  let rowKind ← table.typeRowKind[row]?
  if rowKind ≠ kind then return false
  let rowName ← table.typeRowName[row]?
  if rowName ≠ name then return false
  if !regionIsPlain row kind table then return false
  let rowElemCount ← table.typeRowElemCount[row]?
  if rowElemCount ≠ 1 then return false
  let rowStart ← table.typeRowElemStart[row]?
  let stored ← table.typeElemPool[rowStart.toNat]?
  return stored = elementId

def typeRowMatchesScoped (row : Nat) (kind : SemTypeKind) (name : Bytes) (elems : List UInt32)
    (regionId : RegionId) (table : TypeTable) : Option Bool := do
  let rowKind ← table.typeRowKind[row]?
  if rowKind ≠ kind then return false
  let rowName ← table.typeRowName[row]?
  if rowName ≠ name then return false
  if !(table.typeRowRegionIds[row]?.any (· = regionId.value)) then return false
  let rowElemCount ← table.typeRowElemCount[row]?
  if rowElemCount.toNat ≠ elems.length then return false
  let rowStart ← table.typeRowElemStart[row]?
  poolMatches table rowStart.toNat elems

/-! ## Interning -/

def selectRow (table : TypeTable) (isMatch : Nat → Option Bool) :
    Nat → UInt32 → UInt32 → Option UInt32
  | 0, _, _ => none
  | fuel + 1, chainRow, selected =>
    if chainRow = symbolIndexRowNone then some selected
    else do
      let found ← isMatch chainRow.toNat
      let next ← table.typeRowNext[chainRow.toNat]?
      selectRow table isMatch fuel next (if found then chainRow else selected)

def pushRow (table : TypeTable) (hash : UInt64) (kind : SemTypeKind) (name : Bytes)
    (elems : List UInt32) (regionId : UInt32) : UInt32 × TypeTable :=
  let poolStart := table.typeElemPool.length.toUInt32
  let table := indexTypeRow { table with typeElemPool := table.typeElemPool ++ elems } hash
  let table :=
    { table with
      typeRowKind := table.typeRowKind ++ [kind]
      typeRowName := table.typeRowName ++ [name]
      typeRowElemStart := table.typeRowElemStart ++ [poolStart]
      typeRowElemCount := table.typeRowElemCount ++ [elems.length.toUInt32]
      typeRowRegionIds := table.typeRowRegionIds ++ [regionId] }
  (table.typeRowKind.length.toUInt32, table)

/-- What the ways to intern share: the hash and the test are theirs. -/
def internWith (table : TypeTable) (hash : UInt64) (isMatch : Nat → Option Bool)
    (kind : SemTypeKind) (name : Bytes) (elems : List UInt32) (regionId : UInt32) :
    Option (UInt32 × TypeTable) := do
  let selected ← selectRow table isMatch (table.typeRowNext.length + 1)
    (typeRowChainHead table hash) symbolIndexRowNone
  if selected ≠ symbolIndexRowNone then return (selected + 1, table)
  return pushRow table hash kind name elems regionId

def internType (kind : SemTypeKind) (name : Bytes) (elems : List UInt32) (table : TypeTable) :
    Option (UInt32 × TypeTable) :=
  internWith table (typeRowHash name elems) (typeRowMatches · kind name elems table) kind name elems
    0

def internTypeOne (kind : SemTypeKind) (name : Bytes) (elementId : UInt32) (table : TypeTable) :
    Option (UInt32 × TypeTable) :=
  internWith table (typeRowHashOne name elementId) (typeRowMatchesOne · kind name elementId table)
    kind name [elementId] 0

def internTypeWithRegionId (kind : SemTypeKind) (name : Bytes) (elems : List UInt32)
    (regionId : RegionId) (table : TypeTable) : Option (UInt32 × TypeTable) :=
  internWith table (typeRowHash name elems)
    (typeRowMatchesScoped · kind name elems regionId table) kind name elems regionId.value

def internRegionType (name : Bytes) (regionId : RegionId) (table : TypeTable) :
    Option (UInt32 × TypeTable) :=
  internTypeWithRegionId .region name [] regionId table

/-! ## Reading types -/

def internedKind (typeId : UInt32) (table : TypeTable) : SemTypeKind :=
  if typeId = 0 ∨ table.typeRowKind.length < typeId.toNat then .unknown
  else table.typeRowKind.getD (typeId.toNat - 1) .unknown

def internedName (typeId : UInt32) (table : TypeTable) : Bytes :=
  if typeId = 0 ∨ table.typeRowName.length < typeId.toNat then []
  else table.typeRowName.getD (typeId.toNat - 1) []

def internedElemCount (typeId : UInt32) (table : TypeTable) : UInt32 :=
  if typeId = 0 ∨ table.typeRowElemCount.length < typeId.toNat then 0
  else table.typeRowElemCount.getD (typeId.toNat - 1) 0

def internedElem (typeId position : UInt32) (table : TypeTable) : Option UInt32 :=
  if internedElemCount typeId table ≤ position then some 0
  else do
    let rowStart ← table.typeRowElemStart[typeId.toNat - 1]?
    table.typeElemPool[(rowStart + position).toNat]?

end TypeTable

/-! ## Calls -/

structure TypeRow where
  kind : SemTypeKind
  name : Bytes
  elems : List UInt32
  regionId : UInt32
  deriving DecidableEq

inductive InternCall where
  | internType (kind : SemTypeKind) (name : Bytes) (elems : List UInt32)
  | internTypeOne (kind : SemTypeKind) (name : Bytes) (elementId : UInt32)
  | internRegionType (name : Bytes) (regionId : RegionId)

namespace InternCall

def row : InternCall → TypeRow
  | internType kind name elems => ⟨kind, name, elems, 0⟩
  | internTypeOne kind name elementId => ⟨kind, name, [elementId], 0⟩
  | internRegionType name regionId => ⟨.region, name, [], regionId.value⟩

def run (table : TypeTable) : InternCall → Option (UInt32 × TypeTable)
  | internType kind name elems => table.internType kind name elems
  | internTypeOne kind name elementId => table.internTypeOne kind name elementId
  | internRegionType name regionId => table.internRegionType name regionId

/-- The ids that calls return one after another, and the table that they leave. -/
def runAll : TypeTable → List InternCall → Option (List UInt32 × TypeTable)
  | table, [] => some ([], table)
  | table, call :: rest => do
    let (id, table) ← call.run table
    let (ids, table) ← runAll table rest
    return (id :: ids, table)

end InternCall

namespace TypeTable

def internedElems (typeId : UInt32) (table : TypeTable) : Option (List UInt32) :=
  (List.range (internedElemCount typeId table).toNat).mapM fun position =>
    internedElem typeId position.toUInt32 table

def readBack (typeId : UInt32) (table : TypeTable) : Option TypeRow := do
  let elems ← internedElems typeId table
  let regionId ← table.typeRowRegionIds[typeId.toNat - 1]?
  return ⟨internedKind typeId table, internedName typeId table, elems, regionId⟩

/-- The arrays of rows and the chain have one entry for every type. -/
structure Lockstep (table : TypeTable) : Prop where
  name : table.typeRowName.length = table.typeRowKind.length
  elemStart : table.typeRowElemStart.length = table.typeRowKind.length
  elemCount : table.typeRowElemCount.length = table.typeRowKind.length
  regionIds : table.typeRowRegionIds.length = table.typeRowKind.length
  next : table.typeRowNext.length = table.typeRowKind.length

end TypeTable

end Elisa.Semantic
