import Elisa.Lexer.LineMapLookup
import Elisa.Lib.SparseMap

/-!
# The line map cache

`lexer_line_map_cache.elisa` keeps the rows of the line map in tables.  The map is a buffer of the
process (the override) or a variable of the environment; four operations publish it, take it away
and put it back, and drop the tables.  `lineMapCacheReady` builds them again.  Whether a path
belongs to the runtime library is remembered in a hash table with open addressing.
-/

namespace Elisa.Lexer

/-! ## Tables -/

def lineMapCapacity : Nat := 65536

def pathCacheCapacity : Nat := 8192

/-- `lexer_line_map_state`: 0, 1 and 2. -/
inductive TablesState where
  | unbuilt
  | valid
  | overflowed
  deriving DecidableEq

structure CacheRow where
  flat : UInt32
  orig : UInt32
  std : Bool
  deriving DecidableEq

structure LineMapTables where
  state : TablesState
  rows : List CacheRow
  flatBad : Bool
  origBad : Bool
  sorted : Bool
  deriving DecidableEq

structure CachedPath where
  hash : UInt64
  path : Bytes
  std : Bool
  deriving DecidableEq

abbrev PathCache := Nat → Option CachedPath

def pathHash (path : Bytes) : UInt64 :=
  path.foldl (fun hash byte => (hash ^^^ byte.toUInt64) * 1099511628211) 14695981039346656037

/-- The answer for a path from a slot of the cache on: one that is there, or a new one for the
first free slot.  `isStd` is what resolving the path says. -/
def probePath (cache : PathCache) (hash : UInt64) (path : Bytes) (isStd : Bool) :
    Nat → Nat → Bool × PathCache
  | 0, _ => (isStd, cache)
  | probes + 1, slot =>
    match cache slot with
    | some old =>
      if old.hash = hash ∧ old.path = path then (old.std, cache)
      else
        probePath cache hash path isStd probes
          (if slot + 1 ≥ pathCacheCapacity then 0 else slot + 1)
    | none => (isStd, Function.update cache slot
        (some { hash := hash, path := path, std := isStd }))

def cachedPathIsStd (host : Host) (trustedPrefix path : Bytes) (cache : PathCache) :
    Bool × PathCache :=
  if trustedPrefix.length > 0 ∧ path ≠ [] ∧ path.length ≤ 8191 ∧
    pathHasRuntimeStdComponent path then
    probePath cache (pathHash path) path (pathIsRuntimeStd host path trustedPrefix)
      pathCacheCapacity ((pathHash path).toNat % pathCacheCapacity)
  else (false, cache)

def scanOrig : UInt32 → Bool → Bytes → UInt32 × Bool × Bytes
  | value, ok, [] => (value, ok, [])
  | value, ok, byte :: rest =>
    if byte = 58 then (value, ok, byte :: rest)
    else
      let ok := ok && decide (48 ≤ byte ∧ byte ≤ 57)
      scanOrig (if ok then value * 10 + (byte - 48).toUInt32 else value) ok rest

def buildEntries (host : Host) (trustedPrefix : Bytes) :
    List Bytes → LineMapTables → PathCache → LineMapTables
  | [], tables, _ => { tables with state := .valid }
  | entry :: entries, tables, cache =>
    match scanNumber 0 entry with
    | none => { tables with flatBad := true }
    | some (_, []) => { tables with flatBad := true }
    | some (entryFlat, _ :: rest) =>
      let (entryOrig, origOk, tail) := scanOrig 0 true rest
      let tables := if origOk then tables else { tables with origBad := true }
      let (std, cache) := cachedPathIsStd host trustedPrefix (tail.drop 1) cache
      if tables.rows.length ≥ lineMapCapacity then tables
      else
        let unsorted := tables.rows.getLast?.any fun last => decide (entryFlat < last.flat)
        buildEntries host trustedPrefix entries
          { tables with
            rows := tables.rows ++ [{ flat := entryFlat, orig := entryOrig, std := std }]
            sorted := tables.sorted && !unsorted } cache

def lineMapCacheBuild (host : Host) (map : Bytes) : LineMapTables :=
  buildEntries host (sourceRuntimeStdRootPrefix host).2 (lineMapEntries map)
    { state := .overflowed, rows := [], flatBad := false, origBad := false, sorted := true }
    fun _ => none

/-! ## Answers from the tables -/

def scanBest (flatLine : UInt32) (rows : List CacheRow) : UInt32 × Option Nat :=
  rows.zipIdx.foldl
    (fun best (row, index) =>
      if row.flat ≤ flatLine ∧ best.1 ≤ row.flat then (row.flat, some index) else best)
    (0, none)

def lineMapCacheBest (tables : LineMapTables) (flatLine : UInt32) : Option CacheRow :=
  let best : Option Nat :=
    if tables.sorted then
      let low := SparseMap.upperBound (fun row : CacheRow => row.flat.toNat) tables.rows
        flatLine.toNat tables.rows.length 0 tables.rows.length
      if low = 0 then none else some (low - 1)
    else (scanBest flatLine tables.rows).2
  match best.bind (tables.rows[·]?) with
  | none => none
  | some row => if row.flat = 0 then none else some row

def lineMapCachedOriginalLine (tables : LineMapTables) (flatLine : UInt32) : UInt32 :=
  if tables.flatBad || tables.origBad then flatLine
  else
    match lineMapCacheBest tables flatLine with
    | none => flatLine
    | some row => row.orig + (flatLine - row.flat)

def lineMapCachedIsRuntimeStd (tables : LineMapTables) (flatLine : UInt32) : Bool :=
  if tables.flatBad then false
  else
    match lineMapCacheBest tables flatLine with
    | none => false
    | some row => row.std

/-! ## The map of the process -/

structure LineMapState where
  /-- The variable of the environment: where its value stands, and the value. -/
  environment : Option (Nat × Bytes)
  override : Bytes
  overrideActive : Bool
  /-- Where the map of the tables stood: 1 for the override. -/
  key : Nat
  generation : UInt64
  tables : LineMapTables
  deriving DecidableEq

namespace LineMapState

/-- A process that begins with a value of the variable. -/
def initial (environment : Option (Nat × Bytes)) : LineMapState :=
  { environment := environment, override := [], overrideActive := false, key := 0, generation := 0
    tables :=
      { state := .unbuilt, rows := [], flatBad := false, origBad := false, sorted := false } }

variable (s : LineMapState)

def drop : LineMapState := { s with key := 0, tables := { s.tables with state := .unbuilt } }

def mapValue : Option Bytes :=
  if s.overrideActive then some s.override
  else
    match s.environment with
    | none => none
    | some (_, value) => if value.length > 0 then some value else none

def publish (map : Bytes) : LineMapState :=
  if s.overrideActive && s.override.length == map.length && s.override == map then s
  else { s.drop with override := map, overrideActive := true, generation := s.generation + 1 }

def clear : LineMapState :=
  { s.drop with environment := none, override := [], overrideActive := false
                generation := s.generation + 1 }

def suspend : Option Bytes × LineMapState :=
  match s.mapValue with
  | none => (none, s)
  | some map => (some map, s.clear)

/-- A map is put back into the environment; the system says where. -/
def resume (storage : Bytes) (suspended : Bool) (pointer : Nat) : LineMapState :=
  if !suspended then s else { s.drop with environment := some (pointer, cString storage) }

def ready (host : Host) : Bool × LineMapState :=
  let rebuilt (key : Nat) : Bool × LineMapState :=
    if key = s.key ∧ s.tables.state ≠ .unbuilt then (s.tables.state == .valid, s)
    else
      let tables := lineMapCacheBuild host (s.mapValue.getD [])
      (tables.state == .valid, { s with key := key, tables := tables })
  if s.overrideActive then rebuilt 1
  else
    match s.environment with
    | some (pointer, _) => rebuilt pointer
    | none => (false, s)

def sourceOriginalLine (host : Host) (flatLine : UInt32) : UInt32 :=
  match s.ready host with
  | (true, s) => lineMapCachedOriginalLine s.tables flatLine
  | (false, s) => sourceOriginalLineFromMap s.mapValue flatLine

def sourceLineIsRuntimeStd (host : Host) (flatLine : UInt32) : Bool :=
  match s.ready host with
  | (true, s) => lineMapCachedIsRuntimeStd s.tables flatLine
  | (false, s) => sourceLineIsRuntimeStdFromMap host s.mapValue flatLine

end LineMapState

/-! ## Runs -/

/-- What a process does with its line map; `lookup` is any question that asks for the tables. -/
inductive LineMapOp where
  | publish (map : Bytes)
  | clear
  | suspend
  | resume (storage : Bytes) (suspended : Bool) (pointer : Nat)
  | lookup
  deriving DecidableEq

def LineMapState.step (host : Host) (s : LineMapState) : LineMapOp → LineMapState
  | .publish map => s.publish map
  | .clear => s.clear
  | .suspend => s.suspend.2
  | .resume storage suspended pointer => s.resume storage suspended pointer
  | .lookup => (s.ready host).2

def LineMapState.run (host : Host) (s : LineMapState) (ops : List LineMapOp) : LineMapState :=
  ops.foldl (LineMapState.step host) s

end Elisa.Lexer
