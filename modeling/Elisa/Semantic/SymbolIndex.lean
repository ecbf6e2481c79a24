import Elisa.Bytes
import Elisa.Lib.RowChain

/-!
# The name index of the symbol table

The rows of `symbols` are chained by the hash of their names: the first and the last row of every
hash, the next row of every row, and how many rows a hash has, so that a reader can tell a truncated
chain.  `indexSymbol` takes the newest row in, or rebuilds the index.  A second index, one name for
each hash and a list for the names whose hash was taken, answers whether a name has been declared.
-/

namespace Elisa.Semantic

def semanticHashOffset : UInt64 := 14695981039346656037
def semanticHashPrime : UInt64 := 1099511628211

def symbolIndexRowNone : UInt32 := 4294967295

def nameHash (name : Bytes) : UInt64 :=
  name.foldl (fun hash byte => (hash ^^^ byte.toUInt64) * semanticHashPrime) semanticHashOffset

abbrev Dict (α : Type) := UInt64 → Option α

def Dict.put {α : Type} (dict : Dict α) (key : UInt64) (value : α) : Dict α :=
  fun key' => if key' = key then some value else dict key'

/-- The part of a symbol table that its name indexes read and write.  A symbol row is its
name here. -/
structure SymbolTable where
  symbols : List Bytes
  namePrimary : Dict Bytes
  nameOverflow : List Bytes
  symbolNameHead : Dict UInt32
  symbolNameTail : Dict UInt32
  symbolNameNext : List UInt32
  symbolNameCount : Dict UInt32
  symbolNameIndexValid : Bool
  symbolNameIndexedRows : Nat

def SymbolTable.empty : SymbolTable :=
  { symbols := [], namePrimary := fun _ => none, nameOverflow := [], symbolNameHead := fun _ =>
    none, symbolNameTail := fun _ => none, symbolNameNext := [], symbolNameCount := fun _ => none,
    symbolNameIndexValid := true, symbolNameIndexedRows := 0 }

/-! ## Names -/

def nameIndexed (table : SymbolTable) (name : Bytes) : Bool :=
  match table.namePrimary (nameHash name) with
  | some primary => if primary == name then true else table.nameOverflow.any (· == name)
  | none => false

def hashOccupied (table : SymbolTable) (hash : UInt64) : Bool := (table.namePrimary hash).isSome

def indexName (table : SymbolTable) (name : Bytes) : SymbolTable :=
  if nameIndexed table name then table
  else
    let hash := nameHash name
    let table := if hashOccupied table hash then
      { table with nameOverflow := table.nameOverflow ++ [name] } else table
    if !hashOccupied table hash then
      { table with namePrimary := Dict.put table.namePrimary hash name }
    else table

/-! ## Rows -/

def symbolChainHead (table : SymbolTable) (name : Bytes) : UInt32 :=
  (table.symbolNameHead (nameHash name)).getD symbolIndexRowNone

def symbolTailAt (table : SymbolTable) (hash : UInt64) : UInt32 :=
  (table.symbolNameTail hash).getD symbolIndexRowNone

def chainSymbol (table : SymbolTable) (hash : UInt64) (index : Nat) : SymbolTable :=
  let next := table.symbolNameNext ++ [symbolIndexRowNone]
  let tailRow := symbolTailAt table hash
  let row := UInt32.ofNat index
  let table := if tailRow != symbolIndexRowNone then
      { table with symbolNameNext := next.set tailRow.toNat row }
    else
      { table with
        symbolNameNext := next
        symbolNameHead := Dict.put table.symbolNameHead hash row }
  let previousCount := (table.symbolNameCount hash).getD 0
  { table with
    symbolNameTail := Dict.put table.symbolNameTail hash row
    symbolNameCount := Dict.put table.symbolNameCount hash (previousCount + 1)
    symbolNameIndexedRows := table.symbolNameIndexedRows + 1 }

/-- The rows of a rebuild from `index` on.  The flag is false where the rows go beyond
what a row number can name. -/
def rebuildRows : List Bytes → Nat → SymbolTable → SymbolTable × Bool
  | [], _, table => (table, true)
  | name :: names, index, table =>
    if index ≥ 4294967295 then (table, false)
    else rebuildRows names (index + 1) (chainSymbol table (nameHash name) index)

def rebuildSymbolNameIndex (table : SymbolTable) : SymbolTable :=
  let table := { table with
    symbolNameHead := fun _ => none
    symbolNameTail := fun _ => none
    symbolNameCount := fun _ => none
    symbolNameNext := []
    symbolNameIndexedRows := 0
    symbolNameIndexValid := true }
  match rebuildRows table.symbols 0 table with
  | (table, false) => { table with symbolNameIndexValid := false }
  | (table, true) =>
    { table with symbolNameIndexValid :=
        table.symbolNameNext.length == table.symbols.length
          && table.symbolNameIndexedRows == table.symbols.length }

def indexSymbol (table : SymbolTable) (name : Bytes) (index : Nat) : SymbolTable :=
  if !table.symbolNameIndexValid || index != table.symbolNameIndexedRows
      || index != table.symbolNameNext.length || decide (index ≥ table.symbols.length)
      || decide (index ≥ 4294967295) || table.symbols.getD index [] != name then
    rebuildSymbolNameIndex table
  else
    let table := chainSymbol table (nameHash name) index
    if table.symbolNameNext.length != table.symbolNameIndexedRows
        || table.symbolNameIndexedRows != table.symbols.length then rebuildSymbolNameIndex table
    else table

def symbolChainRows (table : SymbolTable) : Nat → UInt32 → List Nat
  | 0, _ => []
  | fuel + 1, row =>
    if row != symbolIndexRowNone then
      row.toNat :: symbolChainRows table fuel
        (table.symbolNameNext.getD row.toNat symbolIndexRowNone)
    else []

end Elisa.Semantic
