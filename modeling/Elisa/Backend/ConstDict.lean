import Mathlib.Data.Nat.Bitwise
import Elisa.Backend.LiteralDecode
import Elisa.Lib.Probing

/-!
# Constant dictionaries

A `const` dictionary from strings is laid out at compile time (`codegen_const_dict.elisa`): an entry
goes to the first free bucket from `hash & mask` on.  At run time the table is searched by the code
for any dictionary (`collections.elisa`), to which a key ends before its first zero.  The builder
hashes all bytes of a literal, so a key with a zero is laid out where no search looks for it, or
where the search for a shorter key finds it.  Without such keys every search is right
(`lookups_iff`).

An entry without a constant value makes the builder decline.  Sizes are natural numbers.
-/

namespace Elisa.Backend

open Elisa.Lib

variable {V : Type}

/-! ## The builder -/

/-- FNV-1a, with 64 bits. -/
def constDictHashCstr (bytes : Bytes) : UInt64 :=
  bytes.foldl (fun hash byte => (hash ^^^ byte.toUInt64) * 1099511628211) 14695981039346656037

/-- The capacity is doubled while more than three quarters of it are needed. -/
def capacityFrom (count : Nat) : Nat → Nat → Nat
  | 0, capacity => capacity
  | rounds + 1, capacity =>
    if count * 4 > capacity * 3 then capacityFrom count rounds (capacity * 2) else capacity

def constDictCapacity (count : Nat) : Nat :=
  if count = 0 then 0 else capacityFrom count count 8

structure Placement where
  taken : List Bool
  slotEntry : List Nat
deriving DecidableEq

/-- The next slot that is not taken, or the last one that was looked at. -/
def probeFree (taken : List Bool) (mask : Nat) : Nat → Nat → Nat
  | 0, slot => slot
  | probes + 1, slot =>
    if taken.getD slot false then probeFree taken mask probes ((slot + 1) &&& mask) else slot

def placeKey (capacity : Nat) (key : Bytes) (entryIndex : Nat) (p : Placement) : Option Placement :=
  let mask := capacity - 1
  let slot := probeFree p.taken mask capacity ((constDictHashCstr key).toNat &&& mask)
  if p.taken.getD slot false then none
  else some { taken := p.taken.set slot true, slotEntry := p.slotEntry.set slot entryIndex }

/-- The key that a literal spells, if its escapes are known. -/
def decodedKey (text : Bytes) : Option Bytes :=
  let decoded := decodeStringEscapes text
  if decoded.2 then some decoded.1 else none

def placeEntries (capacity : Nat) : List Bytes → Nat → Placement → Option Placement
  | [], _, p => some p
  | text :: texts, entryIndex, p => do
    let key ← decodedKey text
    let p ← placeKey capacity key entryIndex p
    placeEntries capacity texts (entryIndex + 1) p

/-- A bucket is occupied in state 1, and free in state 0. -/
structure DictBucket (V : Type) where
  key : Option Bytes
  value : V
  state : UInt8
deriving DecidableEq

structure DynDict (V : Type) where
  items : Option (List (DictBucket V))
  count : Nat
  used : Nat
  capacity : Nat
deriving DecidableEq

def bucketAt (zero : V) (entries : List (Bytes × V)) (p : Placement) (slot : Nat) :
    Option (DictBucket V) :=
  if p.taken.getD slot false then do
    let entry ← entries[p.slotEntry.getD slot 0]?
    let key ← decodedKey entry.1
    some ⟨some key, entry.2, 1⟩
  else some ⟨none, zero, 0⟩

def constDictGlobalValue (zero : V) (entries : List (Bytes × V)) : Option (DynDict V) :=
  let capacity := constDictCapacity entries.length
  if capacity = 0 then some ⟨none, 0, 0, 0⟩
  else do
    let p ← placeEntries capacity (entries.map Prod.fst) 0
      ⟨List.replicate capacity false, List.replicate capacity 0⟩
    let items ← (List.range capacity).mapM (bucketAt zero entries p)
    some ⟨some items, entries.length, entries.length, capacity⟩

/-! ## The search -/

/-- The bytes of a string as they are seen at run time. -/
def cstrBytes (bytes : Bytes) : Bytes :=
  bytes.takeWhile (· ≠ 0)

def ctxHashCstr (s : Bytes) : UInt64 :=
  (cstrBytes s).foldl (fun h ch => (h ^^^ ch.toUInt64) * 0x100000001b3) 0xcbf29ce484222325

structure DictProbeResult where
  index : Nat
  found : Bool
deriving DecidableEq

/-- The rest of a search.  The slot of the first tombstone, state 2, is kept for an insertion. -/
def findFrom (items : List (DictBucket V)) (capacity : Nat) (key : Bytes) :
    Nat → Nat → Nat → DictProbeResult
  | 0, _, insertSlot => if insertSlot ≠ capacity then ⟨insertSlot, false⟩ else ⟨0, false⟩
  | rounds + 1, slot, insertSlot =>
    let bucket := items[slot]?
    let st := (bucket.map DictBucket.state).getD 0
    if st = 0 then ⟨if insertSlot = capacity then slot else insertSlot, false⟩
    else if st = 1 ∧ (bucket.bind DictBucket.key).map cstrBytes =
      some (cstrBytes key) then ⟨slot, true⟩
    else
      findFrom items capacity key rounds ((slot + 1) &&& (capacity - 1))
        (if st = 2 ∧ insertSlot = capacity then slot else insertSlot)

def arenaDictFindIndex (m : DynDict V) (key : Bytes) : DictProbeResult :=
  match m.items with
  | none => ⟨0, false⟩
  | some items =>
    if m.capacity = 0 then ⟨0, false⟩
    else
      findFrom items m.capacity key m.capacity ((ctxHashCstr key).toNat &&& (m.capacity - 1))
        m.capacity

/-- The bucket whose value is returned. -/
def arenaDictGet (m : DynDict V) (key : Bytes) : Option (DictBucket V) :=
  match m.items with
  | none => none
  | some items =>
    if m.count = 0 then none
    else
      let probe := arenaDictFindIndex m key
      if probe.found then items[probe.index]? else none

/-! ## What it is for -/

/-- The table has a load of three quarters at most, a search for the key of an entry returns its
bucket, and one for any other string returns nothing. -/
structure Lookups (zero : V) (entries : List (Bytes × V)) (table : DynDict V) : Prop where
  built : constDictGlobalValue zero entries = some table
  load : table.count * 4 ≤ table.capacity * 3
  entry : ∀ entry ∈ entries, ∃ key, decodedKey entry.1 = some key ∧
    arenaDictGet table key = some ⟨some key, entry.2, 1⟩
  absent : ∀ key : Bytes, 0 ∉ key → (∀ entry ∈ entries, decodedKey entry.1 ≠ some key) →
    arenaDictGet table key = none

end Elisa.Backend
