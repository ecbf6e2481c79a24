import Elisa.Bytes
import Elisa.Lib.RowChain

/-!
# Name chains

The backend finds the rows of a registry by name through bucket chains over an indexed prefix of the
name column and a scan of the rows behind it: the first and the last row of every bucket and, for
every indexed row, the next one of its bucket; `-1` is no row.  `nameChainExtend` takes in the rows
that pushes left outside, with a rebuild when the buckets have to grow.

The chains over names, over lines and over the function table differ in the key, its bucket and the
number of buckets.
-/

namespace Elisa.Backend

/-! ## The index -/

structure ChainIndex where
  buckets : List Int
  tails : List Int
  next : List Int
deriving DecidableEq

def nameChainNone : Int := -1

def ChainIndex.empty : ChainIndex := ⟨[], [], []⟩

def nameChainMinBucketCount : Nat := 16
def nameChainIndexThreshold : Nat := 32
def nameChainBucketsPerRow : Nat := 1

/-- Doubles a bucket count until it reaches the wanted rows.  A positive count reaches
them in fewer rounds than there are rows. -/
def nameChainGrow (targetRows : Nat) : Nat → Nat → Nat
  | 0, count => count
  | rounds + 1, count =>
    if count < targetRows then nameChainGrow targetRows rounds (count * 2) else count

def nameChainBucketCount (currentCount rowCount indexedCount : Nat) : Nat :=
  if rowCount == 0 then 0
  else
    let count := if currentCount == 0 || decide (indexedCount > rowCount) then
      nameChainMinBucketCount else currentCount
    let count := if decide (count < nameChainMinBucketCount) || (count &&& (count - 1)) != 0 then
      nameChainMinBucketCount else count
    let targetRows := rowCount * nameChainBucketsPerRow
    nameChainGrow targetRows targetRows count

def nameChainHashOffset : UInt64 := 14695981039346656037
def nameChainHashPrime : UInt64 := 1099511628211

def nameChainHash (name : Bytes) : UInt64 :=
  name.foldl (fun hash byte => (hash ^^^ byte.toUInt64) * nameChainHashPrime) nameChainHashOffset

def nameChainBucket (name : Bytes) (bucketCount : Nat) : Nat :=
  if bucketCount == 0 then 0 else (nameChainHash name &&& (UInt64.ofNat bucketCount - 1)).toNat

def viewSlice (name : Bytes) (start stop : Nat) : Bytes := (name.take stop).drop start

def nameChainBucketSlice (name : Bytes) (start stop bucketCount : Nat) : Nat :=
  if bucketCount == 0 then 0
  else (nameChainHash (viewSlice name start stop) &&& (UInt64.ofNat bucketCount - 1)).toNat

def lineChainBucket (key : UInt32) (bucketCount : Nat) : Nat :=
  if bucketCount == 0 then 0
  else ((key.toUInt64 * 2654435761) &&& (UInt64.ofNat bucketCount - 1)).toNat

def functionNameBucketCount : Nat := 1024

def functionNameBucket (name : Bytes) (_bucketCount : Nat) : Nat :=
  (nameChainHash name % UInt64.ofNat functionNameBucketCount).toNat

/-! ## Extension -/

variable {κ : Type}

def ChainIndex.cleared (bucketCount : Nat) : ChainIndex :=
  ⟨List.replicate bucketCount nameChainNone, List.replicate bucketCount nameChainNone, []⟩

/-- Takes the next row into the index: behind the last row of its bucket, or as the
first. -/
def ChainIndex.push (index : ChainIndex) (bucket : Nat) : ChainIndex :=
  let row : Int := index.next.length
  let next := index.next ++ [nameChainNone]
  let lastRow := index.tails.getD bucket nameChainNone
  if lastRow ≥ 0 then
    { buckets := index.buckets
      tails := index.tails.set bucket row
      next := next.set lastRow.toNat row }
  else
    { buckets := index.buckets.set bucket row
      tails := index.tails.set bucket row
      next := next }

def chainRows (bucketOf : κ → Nat → Nat) (keys : List κ) : Nat → ChainIndex → ChainIndex
  | 0, index => index
  | rounds + 1, index =>
    match keys[index.next.length]? with
    | none => index
    | some key =>
      chainRows bucketOf keys rounds (index.push (bucketOf key index.buckets.length))

def chainExtend (bucketOf : κ → Nat → Nat) (index : ChainIndex) (keys : List κ) : ChainIndex :=
  if index.buckets.length == 0 && index.tails.length == 0 && index.next.length == 0
      && decide (keys.length < nameChainIndexThreshold) then index
  else
    let bucketCount := nameChainBucketCount index.buckets.length keys.length index.next.length
    let index := if index.buckets.length != bucketCount || index.tails.length != bucketCount
        || decide (index.next.length > keys.length) then .cleared bucketCount
      else index
    chainRows bucketOf keys (keys.length - index.next.length) index

def nameChainExtend : ChainIndex → List Bytes → ChainIndex := chainExtend nameChainBucket

def lineChainExtend : ChainIndex → List UInt32 → ChainIndex := chainExtend lineChainBucket

/-- The function table has a fixed number of buckets and is indexed from its first row. -/
def indexAppendedFunctionNames (index : ChainIndex) (names : List Bytes) : ChainIndex :=
  let index := if index.buckets.length != functionNameBucketCount
      || index.tails.length != functionNameBucketCount
      || decide (index.next.length > names.length) then .cleared functionNameBucketCount
    else index
  chainRows functionNameBucket names (names.length - index.next.length) index

/-! ## Lookup -/

def chainPrefix (index : ChainIndex) (keys : List κ) : Nat :=
  if index.buckets.length == 0 || (index.buckets.length &&& (index.buckets.length - 1)) != 0
      || decide (index.next.length > keys.length) then 0
  else index.next.length

def nameChainPrefix : ChainIndex → List Bytes → Nat := chainPrefix

def lineChainPrefix : ChainIndex → List UInt32 → Nat := chainPrefix

def functionNamePrefixCount (index : ChainIndex) (names : List Bytes) : Nat :=
  if index.buckets.length != functionNameBucketCount || decide (index.next.length > names.length)
  then 0
  else index.next.length

def chainTail (accepts : κ → Bool) (keys : List κ) (start : Nat) : Int :=
  match (keys.drop start).findIdx? accepts with
  | none => nameChainNone
  | some offset => start + offset

/-- Follows a chain to a row that a test accepts, and then scans the rows behind the
prefix.  A chain ascends, so it ends within one step more than there are rows. -/
def chainFrom (accepts : κ → Bool) (index : ChainIndex) (keys : List κ) (prefixCount : Nat) :
    Nat → Int → Int
  | 0, cursor => cursor
  | steps + 1, cursor =>
    if cursor ≥ 0 then
      if (keys[cursor.toNat]?).any accepts then cursor
      else chainFrom accepts index keys prefixCount steps
        (index.next.getD cursor.toNat nameChainNone)
    else chainTail accepts keys prefixCount

def chainFirst [BEq κ] (bucketOf : κ → Nat → Nat) (index : ChainIndex) (keys : List κ)
    (prefixCount : Nat) (key : κ) : Int :=
  if prefixCount == 0 then chainTail (· == key) keys 0
  else chainFrom (· == key) index keys prefixCount (keys.length + 1)
    (index.buckets.getD (bucketOf key index.buckets.length) nameChainNone)

def chainNext [BEq κ] (index : ChainIndex) (keys : List κ) (prefixCount : Nat) (key : κ)
    (current : Int) : Int :=
  if current < 0 then nameChainNone
  else if current.toNat < prefixCount then
    chainFrom (· == key) index keys prefixCount (keys.length + 1)
      (index.next.getD current.toNat nameChainNone)
  else chainTail (· == key) keys (current.toNat + 1)

def nameChainFirst (index : ChainIndex) (names : List Bytes) (name : Bytes) : Int :=
  chainFirst nameChainBucket index names (nameChainPrefix index names) name

def nameChainNext (index : ChainIndex) (names : List Bytes) (name : Bytes) (current : Int) : Int :=
  chainNext index names (nameChainPrefix index names) name current

def lineChainFirst (index : ChainIndex) (keys : List UInt32) (key : UInt32) : Int :=
  chainFirst lineChainBucket index keys (lineChainPrefix index keys) key

def lineChainNext (index : ChainIndex) (keys : List UInt32) (key : UInt32) (current : Int) : Int :=
  chainNext index keys (lineChainPrefix index keys) key current

def firstFunctionNamed (index : ChainIndex) (names : List Bytes) (name : Bytes) : Int :=
  chainFirst functionNameBucket index names (functionNamePrefixCount index names) name

def nextFunctionNamed (index : ChainIndex) (names : List Bytes) (name : Bytes) (current : Int) :
    Int :=
  chainNext index names (functionNamePrefixCount index names) name current

/-! ## Lookup by a range of bytes -/

def nameChainMatchesSlice (name : Bytes) (start stop : Nat) (candidate : Bytes) : Bool :=
  if start > stop || decide (stop > name.length) then false
  else if candidate.length != stop - start then false
  else (List.range (stop - start)).all fun offset =>
    candidate.getD offset 0 == name.getD (start + offset) 0

/-- The scan for a range.  Unlike the others it refuses a start behind the column, where
there is no row either. -/
def nameChainSliceTail (names : List Bytes) (name : Bytes) (start stop rowStart : Nat) : Int :=
  if rowStart > names.length then nameChainNone
  else chainTail (nameChainMatchesSlice name start stop) names rowStart

/-- Follows a chain for a range.  Unlike `chainFrom` it looks at the bounds of both columns. -/
def nameChainSliceFrom (index : ChainIndex) (names : List Bytes) (name : Bytes)
    (start stop prefixCount : Nat) : Nat → Int → Int
  | 0, row => row
  | steps + 1, row =>
    if row ≥ 0 then
      if decide (row.toNat < names.length)
          && nameChainMatchesSlice name start stop (names.getD row.toNat []) then row
      else if row.toNat ≥ index.next.length then
        nameChainSliceTail names name start stop prefixCount
      else nameChainSliceFrom index names name start stop prefixCount steps
        (index.next.getD row.toNat nameChainNone)
    else nameChainSliceTail names name start stop prefixCount

def nameChainSliceFirst (index : ChainIndex) (names : List Bytes) (name : Bytes)
    (start stop : Nat) : Int :=
  if start > stop || decide (stop > name.length) then nameChainNone
  else
    let prefixCount := nameChainPrefix index names
    if prefixCount == 0 then nameChainSliceTail names name start stop 0
    else nameChainSliceFrom index names name start stop prefixCount (names.length + 1)
      (index.buckets.getD (nameChainBucketSlice name start stop index.buckets.length) nameChainNone)

def nameChainSliceNext (index : ChainIndex) (names : List Bytes) (name : Bytes) (start stop : Nat)
    (current : Int) : Int :=
  if current < 0 || decide (current.toNat ≥ names.length) || decide (start > stop)
      || decide (stop > name.length) then nameChainNone
  else
    let prefixCount := nameChainPrefix index names
    if current.toNat < prefixCount then
      nameChainSliceFrom index names name start stop prefixCount (names.length + 1)
        (index.next.getD current.toNat nameChainNone)
    else nameChainSliceTail names name start stop (current.toNat + 1)

end Elisa.Backend
