import Elisa.Frontend.Ast
import Elisa.Semantic.SymbolIndex

/-!
# Looking up the binding at a position

References are rows with a position and the binding that they resolve to.  The rows of one owner, a
function, are chained, the newest first, with the last link and the number of links, so that a
reader can tell a broken chain.

`ownershipBindingAtPosition` answers with the binding of the rows that have an owner and exactly a
span, if these agree.  It walks the chain of the owner, or all rows when there is no index.  A read
outside of an array and an assertion that fails are `none`.
-/

namespace Elisa.Semantic

open Ast

structure DeclId where
  value : UInt32
  deriving DecidableEq

structure BindingId where
  owner : DeclId
  serial : UInt64
  deriving DecidableEq

def invalidDeclIdValue : UInt32 := 4294967295

def firstBindingSerial : UInt64 := 0

def ownershipBindingIdsEqual (left right : BindingId) : Bool :=
  left.owner.value = right.owner.value && left.serial = right.serial

/-- The part of a symbol table that holds the references; `symbols` is the number of symbols. -/
structure ReferenceTable where
  symbols : Nat
  refPos : List Pos
  refBindingIds : List BindingId
  refOwnerHeads : List UInt32
  refOwnerTails : List UInt32
  refOwnerCounts : List UInt32
  refOwnerObservedCounts : List Nat
  refOwnerNext : List UInt32
  refOwnerIndexValid : Bool

namespace ReferenceTable

def empty : ReferenceTable :=
  { symbols := 0, refPos := [], refBindingIds := [], refOwnerHeads := [], refOwnerTails := [],
    refOwnerCounts := [], refOwnerObservedCounts := [], refOwnerNext := [],
    refOwnerIndexValid := true }

/-! ## Recording references -/

def growOwners (table : ReferenceTable) (ownerIndex : Nat) : ReferenceTable :=
  let missing := ownerIndex + 1 - table.refOwnerHeads.length
  { table with
    refOwnerHeads := table.refOwnerHeads ++ List.replicate missing symbolIndexRowNone
    refOwnerTails := table.refOwnerTails ++ List.replicate missing symbolIndexRowNone
    refOwnerCounts := table.refOwnerCounts ++ List.replicate missing 0
    refOwnerObservedCounts := table.refOwnerObservedCounts ++ List.replicate missing 0 }

def chainReference (table : ReferenceTable) (ownerIndex referenceIndex : Nat) : ReferenceTable :=
  let head := table.refOwnerHeads.getD ownerIndex symbolIndexRowNone
  { table with
    refOwnerTails :=
      if head = symbolIndexRowNone then table.refOwnerTails.set ownerIndex referenceIndex.toUInt32
      else table.refOwnerTails
    refOwnerNext := table.refOwnerNext.set referenceIndex head
    refOwnerHeads := table.refOwnerHeads.set ownerIndex referenceIndex.toUInt32
    refOwnerCounts :=
      table.refOwnerCounts.set ownerIndex (table.refOwnerCounts.getD ownerIndex 0 + 1)
    refOwnerObservedCounts :=
      table.refOwnerObservedCounts.set ownerIndex
        (table.refOwnerObservedCounts.getD ownerIndex 0 + 1) }

def recordReference (table : ReferenceTable) (position : Pos) (bindingId : BindingId) :
    ReferenceTable :=
  let referenceIndex := table.refBindingIds.length
  let ownerIndex := bindingId.owner.value.toNat
  let table :=
    { table with
      refPos := table.refPos ++ [position]
      refBindingIds := table.refBindingIds ++ [bindingId]
      refOwnerNext := table.refOwnerNext ++ [symbolIndexRowNone] }
  if symbolIndexRowNone.toNat ≤ referenceIndex then { table with refOwnerIndexValid := false }
  else if ownerIndex < table.symbols then
    chainReference (growOwners table ownerIndex) ownerIndex referenceIndex
  else { table with refOwnerIndexValid := false }

/-! ## Rows -/

def spanIs (recorded position : Pos) : Bool :=
  recorded.offset = position.offset && recorded.endOffset = position.endOffset

def rowIs (table : ReferenceTable) (owner : DeclId) (position : Pos) (row : Nat) : Option Bool := do
  let id ← table.refBindingIds[row]?
  if id.owner.value ≠ owner.value then return false
  let recorded ← table.refPos[row]?
  return spanIs recorded position

def ownershipLookupCandidateMatches (table : ReferenceTable) (candidate : Nat) (owner : DeclId)
    (position : Pos) (bindingId : BindingId) : Option Bool := do
  if table.refPos.length ≤ candidate || table.refBindingIds.length ≤ candidate then return false
  let id ← table.refBindingIds[candidate]?
  if id.owner.value ≠ owner.value then return false
  if !ownershipBindingIdsEqual id bindingId then return false
  let recorded ← table.refPos[candidate]?
  return spanIs recorded position

def assertThat (condition : Bool) : Option Unit := if condition then some () else none

end ReferenceTable

structure OwnershipBindingLookupResult where
  known : Bool
  bindingId : BindingId
  witnessIndex : Nat
  deriving DecidableEq

def OwnershipBindingLookupResult.unknown : OwnershipBindingLookupResult where
  known := false
  bindingId := ⟨⟨invalidDeclIdValue⟩, firstBindingSerial⟩
  witnessIndex := symbolIndexRowNone.toNat

namespace ReferenceTable

/-! ## The rows that were found -/

/-- What both loops carry on. -/
structure Found where
  found : Bool
  resultIndex : Nat
  lookupValid : Bool
  deriving DecidableEq

section Lookup

variable (table : ReferenceTable) (owner : DeclId) (position : Pos)

def resultIsRow (state : Found) : Option Bool :=
  if !state.found then some true
  else if table.refPos.length ≤ state.resultIndex || table.refBindingIds.length ≤ state.resultIndex
  then some false
  else rowIs table owner position state.resultIndex

/-- A row with the owner and the span: the first is kept, and others must have its binding. -/
def noteRow (index : Nat) (id : BindingId) (state : Found) : Option Found :=
  if state.found then do
    let current ← table.refBindingIds[state.resultIndex]?
    return if ownershipBindingIdsEqual current id then state
      else { state with lookupValid := false }
  else do
    assertThat (← rowIs table owner position index)
    return { state with found := true, resultIndex := index }

/-! ## Walking the chain of the owner -/

/-- The state of the walk: the row that is next and the row before it. -/
structure Walk extends Found where
  row : UInt32
  lastRow : UInt32

def Walk.fail (walk : Walk) : Walk := { walk with lookupValid := false }

/-- One round: the walk, and whether it goes on. -/
def walkStep (head : Nat) (walk : Walk) : Option (Walk × Bool) := do
  assertThat (← resultIsRow table owner position walk.toFound)
  assertThat (walk.lastRow ≠ symbolIndexRowNone || walk.row.toNat = head)
  assertThat (walk.lastRow = symbolIndexRowNone ||
    table.refOwnerNext[walk.lastRow.toNat]?.any (walk.row = ·))
  if walk.row = symbolIndexRowNone || table.refPos.length ≤ walk.row.toNat ||
      table.refOwnerNext.length ≤ walk.row.toNat then return (walk.fail, false)
  let index := walk.row.toNat
  let id ← table.refBindingIds[index]?
  if id.owner.value ≠ owner.value then return (walk.fail, false)
  let recorded ← table.refPos[index]?
  let state ← if spanIs recorded position then noteRow table owner position index id walk.toFound
    else some walk.toFound
  let next ← table.refOwnerNext[index]?
  let walk := { state with row := next, lastRow := walk.row }
  assertThat (table.refOwnerNext[walk.lastRow.toNat]?.any (walk.row = ·))
  assertThat (← resultIsRow table owner position walk.toFound)
  return (walk, true)

def walkLoop (head : Nat) : Nat → Walk → Option Walk
  | 0, walk => some walk
  | steps + 1, walk => do
    let (walk, goesOn) ← walkStep table owner position head walk
    if goesOn then walkLoop head steps walk else some walk

def noneFound : Found := { found := false, resultIndex := 0, lookupValid := true }

def notValid : Found := { found := false, resultIndex := 0, lookupValid := false }

/-- The chain of the owner, whose number of rows and whose end must be as recorded. -/
def walkBucket : Option Found :=
  let ownerIndex := owner.value.toNat
  if table.refOwnerNext.length = table.refBindingIds.length &&
      table.refOwnerHeads.length = table.refOwnerTails.length &&
      table.refOwnerHeads.length = table.refOwnerCounts.length &&
      table.refOwnerHeads.length = table.refOwnerObservedCounts.length &&
      ownerIndex < table.refOwnerHeads.length then do
    let expectedCount ← table.refOwnerCounts[ownerIndex]?
    let expectedTail ← table.refOwnerTails[ownerIndex]?
    let head ← table.refOwnerHeads[ownerIndex]?
    let observedCount ← table.refOwnerObservedCounts[ownerIndex]?
    if table.refPos.length < expectedCount.toNat || expectedCount.toNat ≠ observedCount then
      return notValid
    if expectedCount.toNat = 0 then
      return if head ≠ symbolIndexRowNone || expectedTail ≠ symbolIndexRowNone then notValid
        else noneFound
    if head = symbolIndexRowNone || table.refPos.length ≤ head.toNat ||
        table.refOwnerNext.length ≤ head.toNat then return notValid
    let walk ← walkLoop table owner position head.toNat expectedCount.toNat
      { noneFound with row := head, lastRow := symbolIndexRowNone }
    return if walk.row ≠ symbolIndexRowNone || walk.lastRow ≠ expectedTail then walk.fail.toFound
      else walk.toFound
  else some notValid

/-! ## Scanning all rows -/

def scanLoop : Nat → Nat → Found → Option Found
  | 0, _, state => some state
  | rows + 1, index, state => do
    assertThat (← resultIsRow table owner position state)
    let id ← table.refBindingIds[index]?
    if id.owner.value ≠ owner.value then scanLoop rows (index + 1) state
    else do
      let recorded ← table.refPos[index]?
      if !spanIs recorded position then scanLoop rows (index + 1) state
      else do
        let state ← noteRow table owner position index id state
        assertThat (← resultIsRow table owner position state)
        scanLoop rows (index + 1) state

/-! ## Special shapes -/

def rejects : Bool :=
  owner.value = invalidDeclIdValue || table.symbols ≤ owner.value.toNat ||
    position.endOffset ≤ position.offset || table.refPos.length ≠ table.refBindingIds.length

def isFallbackRow : Option Bool :=
  if table.refOwnerIndexValid || table.rejects owner position || table.refPos.length ≠ 1 ||
      table.refBindingIds.length ≠ 1 then some false
  else rowIs table owner position 0

def isSelfLinkedRow : Option Bool :=
  if owner.value = invalidDeclIdValue || table.symbols ≤ owner.value.toNat ||
      position.endOffset ≤ position.offset || table.refPos.length ≠ 1 ||
      table.refBindingIds.length ≠ 1 || !table.refOwnerIndexValid ||
      table.refOwnerNext.length ≠ 1 || table.refOwnerHeads.length ≤ owner.value.toNat then
    some false
  else do
    let head ← table.refOwnerHeads[owner.value.toNat]?
    if head ≠ 0 then return false
    let next ← table.refOwnerNext[0]?
    if next ≠ 0 then return false
    rowIs table owner position 0

/-- The first row of the owner, where the index has one. -/
def bucketHead : Option (Option Nat) :=
  if !table.refOwnerIndexValid || table.refPos.length ≠ table.refBindingIds.length ||
      table.refOwnerNext.length ≠ table.refPos.length || owner.value = invalidDeclIdValue ||
      table.refOwnerHeads.length ≤ owner.value.toNat then some none
  else do
    let head ← table.refOwnerHeads[owner.value.toNat]?
    return if head = symbolIndexRowNone || table.refPos.length ≤ head.toNat then none
      else some head.toNat

/-- The owner has one row, which has another span. -/
def isOtherSpan : Option Bool := do
  match ← bucketHead table owner with
  | none => return false
  | some head =>
    let next ← table.refOwnerNext[head]?
    if next ≠ symbolIndexRowNone then return false
    let id ← table.refBindingIds[head]?
    if id.owner.value ≠ owner.value then return false
    let recorded ← table.refPos[head]?
    return !spanIs recorded position

/-- The owner has two rows, both with the span, and their bindings differ. -/
def isConflictingPair : Option Bool := do
  match ← bucketHead table owner with
  | none => return false
  | some head =>
    let next ← table.refOwnerNext[head]?
    if next = symbolIndexRowNone || table.refPos.length ≤ next.toNat then return false
    let last ← table.refOwnerNext[next.toNat]?
    if last ≠ symbolIndexRowNone then return false
    let id ← table.refBindingIds[head]?
    if id.owner.value ≠ owner.value then return false
    let second ← table.refBindingIds[next.toNat]?
    if second.owner.value ≠ owner.value then return false
    let recorded ← table.refPos[head]?
    if !spanIs recorded position then return false
    let recordedSecond ← table.refPos[next.toNat]?
    if !spanIs recordedSecond position then return false
    return !ownershipBindingIdsEqual id second

def isOwnersOnlyRow : Option Bool :=
  let ownerIndex := owner.value.toNat
  if table.refPos.length ≠ table.refBindingIds.length ||
      table.refOwnerNext.length ≠ table.refPos.length ||
      table.refOwnerHeads.length ≠ table.refOwnerTails.length ||
      table.refOwnerHeads.length ≠ table.refOwnerCounts.length ||
      table.refOwnerHeads.length ≠ table.refOwnerObservedCounts.length ||
      table.refOwnerHeads.length ≤ ownerIndex || table.refOwnerTails.length ≤ ownerIndex ||
      table.refOwnerCounts.length ≤ ownerIndex ||
      table.refOwnerObservedCounts.length ≤ ownerIndex then some false
  else do
    let head ← table.refOwnerHeads[ownerIndex]?
    if head = symbolIndexRowNone || table.refPos.length ≤ head.toNat then return false
    let next ← table.refOwnerNext[head.toNat]?
    if next ≠ symbolIndexRowNone then return false
    let tail ← table.refOwnerTails[ownerIndex]?
    if tail ≠ head then return false
    let count ← table.refOwnerCounts[ownerIndex]?
    if count ≠ 1 then return false
    let observedCount ← table.refOwnerObservedCounts[ownerIndex]?
    if observedCount ≠ 1 then return false
    rowIs table owner position head.toNat

/-! ## The lookup -/

/-- The binding of a row, with what is asserted of it. -/
def answer (index : Nat) : Option OwnershipBindingLookupResult := do
  assertThat (!table.rejects owner position)
  assertThat (!table.refOwnerIndexValid || table.refOwnerNext.length = table.refPos.length)
  assertThat (!table.refOwnerIndexValid || owner.value.toNat < table.refOwnerHeads.length)
  assertThat (index < table.refPos.length && index < table.refBindingIds.length)
  let id ← table.refBindingIds[index]?
  assertThat (id.owner.value = owner.value)
  assertThat (← rowIs table owner position index)
  assertThat (← ownershipLookupCandidateMatches table index owner position id)
  return { known := true, bindingId := id, witnessIndex := index }

def finish (state : Found) : Option OwnershipBindingLookupResult :=
  if state.lookupValid && state.found then answer table owner position state.resultIndex
  else do
    let missed ← if table.rejects owner position || !table.refOwnerIndexValid then some false
      else isOwnersOnlyRow table owner position
    assertThat (!missed)
    return .unknown

def ownershipBindingAtPosition : Option OwnershipBindingLookupResult := do
  if table.rejects owner position then return .unknown
  if ← isFallbackRow table owner position then answer table owner position 0
  else if ← isSelfLinkedRow table owner position then return .unknown
  else if ← isOtherSpan table owner position then return .unknown
  else if ← isConflictingPair table owner position then return .unknown
  else if table.refOwnerIndexValid then
    if ← isOwnersOnlyRow table owner position then do
      let head ← table.refOwnerHeads[owner.value.toNat]?
      answer table owner position head.toNat
    else do finish table owner position (← walkBucket table owner position)
  else do
    finish table owner position
      (← scanLoop table owner position table.refBindingIds.length 0 noneFound)

end Lookup

end ReferenceTable

end Elisa.Semantic
