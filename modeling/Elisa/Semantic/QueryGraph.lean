import Elisa.Semantic.Snapshot

/-!
# The query graph of an incremental session

A session keeps a memo graph next to its snapshot.  A node is a query, named by its kind and key
bytes; it owns the input and the result of its last commit as spans of one byte pool.  An edge says
that a query read another one, and which generation of its result it saw.  Edges live in a pool with
a free list: the edges out of a node form a singly linked list, the edges into it a doubly linked
one.

A node is `Green` (its result is current), `Dirty` (it has to be computed again) or
`PotentiallyDirty` (something below it changed, and it may turn green again without being computed).
When the result of a node changes, its reverse closure is marked.

Ids and counters are natural numbers, and counters are compared with their largest value before they
grow, as in the source.  The stack of free edges has its top at the head.  Of the rest of the
session only what decides whether the graph may be used is kept.
-/

namespace Elisa.Semantic

/-- The id that stands for no node and no edge. -/
def queryNone : Nat := 4294967295

/-- The largest value of a generation counter. -/
def generationMax : Nat := 18446744073709551615

def queryKeyBytesLimit : Nat := 8388608
def queryValueBytesLimit : Nat := 16777216
def queryNodeLimit : Nat := 65536
def queryEdgeLimit : Nat := 262144
def queryPerDependencyLimit : Nat := 4096
def queryRetainedBytesLimit : Nat := 33554432

inductive QueryKind where
  | sourceInput
  | functionBodyFacts
  | functionSummary
  | visibleNameSet
  | nameLookup
  | typeOf
  | constantValue
deriving DecidableEq, Inhabited

def QueryKind.ordinal : QueryKind → UInt64
  | .sourceInput => 0
  | .functionBodyFacts => 1
  | .functionSummary => 2
  | .visibleNameSet => 3
  | .nameLookup => 4
  | .typeOf => 5
  | .constantValue => 6

inductive QueryStatus where
  | dirty
  | potentiallyDirty
  | green
deriving DecidableEq, Inhabited

structure QueryNode where
  kind : QueryKind
  status : QueryStatus
  nextSameHash : Nat
  firstDependency : Nat
  firstDepender : Nat
  incomingEdgeCount : Nat
  incomingChainGeneration : Nat
  incomingChainValidatedGeneration : Nat
  lastInvalidationGeneration : Nat
  keyHash : UInt64
  keyStart : Nat
  keyLength : Nat
  hasCommittedValue : Bool
  inputStart : Nat
  inputLength : Nat
  resultStart : Nat
  resultLength : Nat
  inputFingerprint : UInt64
  resultFingerprint : UInt64
  resultGeneration : Nat
deriving DecidableEq, Inhabited

/-- An edge of the pool; a slot whose endpoints are `queryNone` is free. -/
structure DependencyEdge where
  depender : Nat
  dependee : Nat
  nextDependency : Nat
  previousDepender : Nat
  nextDepender : Nat
  observedResultGeneration : Nat
deriving DecidableEq, Inhabited

def DependencyEdge.free : DependencyEdge :=
  { depender := queryNone, dependee := queryNone, nextDependency := queryNone,
    previousDepender := queryNone, nextDepender := queryNone, observedResultGeneration := 0 }

structure QueryHandle where
  node : Nat
  sessionCookie : Nat
  graphGeneration : Nat
  requestGeneration : Nat
  contextGeneration : Nat
deriving DecidableEq, Inhabited

structure QueryEvaluation where
  hit : Bool
  resultStart : Nat
  resultLength : Nat
deriving DecidableEq, Inhabited

structure DependencyCheck where
  valid : Bool
  structural : Bool
  equal : Bool
  resultsCurrent : Bool
  allDependenciesGreen : Bool
  uniqueCount : Nat
  oldCount : Nat
  dependencyIds : List Nat
deriving DecidableEq, Inhabited

structure WalkResult where
  valid : Bool
  budgetOk : Bool
  reachesTarget : Bool
deriving DecidableEq, Inhabited

/-- The counters of the reverse marks, kept for the cache report only. -/
structure ReverseMarkMetrics where
  enabled : Bool
  fastSkips : Nat
  fullWalks : Nat
  nodesVisited : Nat
  edgesVisited : Nat
deriving DecidableEq, Inhabited

/-- The part of a session the query graph reads and writes.  The cookie is the
address of the session. -/
structure QuerySession where
  cookie : Nat
  enabled : Bool
  queryGraphEnabled : Bool
  valid : Bool
  queryKeyBytes : Bytes
  queryKeyHeads : List (UInt64 × Nat)
  queryNodes : List QueryNode
  queryEdges : List DependencyEdge
  freeQueryEdges : List Nat
  queryValueBytes : Bytes
  queryGraphGeneration : Nat
  queryRequestGeneration : Nat
  queryContextGeneration : Nat
  queryGraphPoisoned : Bool
  queryInvalidationGeneration : Nat
  queryInvalidationWorklist : List Nat
  worklistCapacity : Nat
  reverseMarks : ReverseMarkMetrics
deriving Inhabited

def incrementalSemanticSessionNew (cookie : Nat) (enabled : Bool) : QuerySession :=
  { cookie := cookie, enabled := enabled, queryGraphEnabled := false, valid := false,
    queryKeyBytes := [], queryKeyHeads := [], queryNodes := [], queryEdges := [],
    freeQueryEdges := [], queryValueBytes := [], queryGraphGeneration := 1,
    queryRequestGeneration := 0, queryContextGeneration := 0, queryGraphPoisoned := false,
    queryInvalidationGeneration := 0, queryInvalidationWorklist := [], worklistCapacity := 0,
    reverseMarks := ⟨false, 0, 0, 0, 0⟩ }

namespace QuerySession

def node (s : QuerySession) (id : Nat) : QueryNode := s.queryNodes.getD id default

def edge (s : QuerySession) (id : Nat) : DependencyEdge := s.queryEdges.getD id default

def modifyNode (s : QuerySession) (id : Nat) (f : QueryNode → QueryNode) : QuerySession :=
  { s with queryNodes := s.queryNodes.modify id f }

def modifyEdge (s : QuerySession) (id : Nat) (f : DependencyEdge → DependencyEdge) : QuerySession :=
  { s with queryEdges := s.queryEdges.modify id f }

def poison (s : QuerySession) : QuerySession := { s with queryGraphPoisoned := true }

def truncateWorklist (s : QuerySession) : QuerySession := { s with queryInvalidationWorklist := [] }

/-- Counts one event of the reverse marks, unless the counter is full or the
report is off. -/
def countMark (s : QuerySession) (get : ReverseMarkMetrics → Nat)
    (put : ReverseMarkMetrics → Nat → ReverseMarkMetrics) : QuerySession :=
  if s.reverseMarks.enabled && decide (get s.reverseMarks < generationMax) then
    { s with reverseMarks := put s.reverseMarks (get s.reverseMarks + 1) }
  else s

def countFastSkip (s : QuerySession) : QuerySession :=
  s.countMark (·.fastSkips) fun m n => { m with fastSkips := n }

def countFullWalk (s : QuerySession) : QuerySession :=
  s.countMark (·.fullWalks) fun m n => { m with fullWalks := n }

def countNodeVisited (s : QuerySession) : QuerySession :=
  s.countMark (·.nodesVisited) fun m n => { m with nodesVisited := n }

def countEdgeVisited (s : QuerySession) : QuerySession :=
  s.countMark (·.edgesVisited) fun m n => { m with edgesVisited := n }

end QuerySession

open QuerySession

/-! ## Admission -/

/-- The caps on the logical size of the graph. -/
def ifqGraphWithinLimit (s : QuerySession) (additionalKeyBytes additionalValueBytes
    additionalNodes additionalEdges additionalFreeEdges requiredWorklistSlots : Nat) : Bool :=
  if s.queryKeyBytes.length > queryKeyBytesLimit then false
  else if additionalKeyBytes > queryKeyBytesLimit - s.queryKeyBytes.length then false
  else if s.queryValueBytes.length > queryValueBytesLimit then false
  else if additionalValueBytes > queryValueBytesLimit - s.queryValueBytes.length then false
  else if s.queryNodes.length > queryNodeLimit then false
  else if additionalNodes > queryNodeLimit - s.queryNodes.length then false
  else if s.queryEdges.length > queryEdgeLimit then false
  else if additionalEdges > queryEdgeLimit - s.queryEdges.length then false
  else if s.freeQueryEdges.length > queryEdgeLimit then false
  else if additionalFreeEdges > queryEdgeLimit - s.freeQueryEdges.length then false
  else
    let worklistSlots := if requiredWorklistSlots > s.worklistCapacity then requiredWorklistSlots
      else s.worklistCapacity
    if worklistSlots > queryNodeLimit then false
    else
      let keyBytes := s.queryKeyBytes.length + additionalKeyBytes
      let valueBytes := s.queryValueBytes.length + additionalValueBytes
      let nodeAndIndexBytes := (s.queryNodes.length + additionalNodes) * 128
      let edgeBytes := (s.queryEdges.length + additionalEdges) * 48
      let freeBytes := (s.freeQueryEdges.length + additionalFreeEdges) * 8
      let worklistBytes := worklistSlots * 8
      decide (keyBytes + valueBytes + nodeAndIndexBytes + edgeBytes + freeBytes + worklistBytes + 32
        ≤ queryRetainedBytesLimit)

/-- Appends to the worklist of a walk, growing it by doubling; `none` when the
worklist is full or may not grow. -/
def ifqInvalidationWorklistPush (s : QuerySession) (queryId : Nat) : Option QuerySession :=
  if s.queryInvalidationWorklist.length ≥ s.queryNodes.length then none
  else if s.queryInvalidationWorklist.length ≥ s.worklistCapacity then
    let oldCapacity := s.worklistCapacity
    let doubled := if oldCapacity = 0 then 8 else oldCapacity * 2
    if doubled < oldCapacity then none
    else
      let nextCapacity := if doubled > s.queryNodes.length then s.queryNodes.length else doubled
      if nextCapacity ≤ oldCapacity then none
      else if !ifqGraphWithinLimit s 0 0 0 0 0 nextCapacity then none
      else some { s with
        worklistCapacity := nextCapacity
        queryInvalidationWorklist := s.queryInvalidationWorklist ++ [queryId] }
  else some { s with queryInvalidationWorklist := s.queryInvalidationWorklist ++ [queryId] }

def ifqQueryIdIsValid (s : QuerySession) (queryId : Nat) : Bool :=
  queryId != queryNone && decide (queryId < s.queryNodes.length)

def ifqEdgeIdIsValid (s : QuerySession) (edgeId : Nat) : Bool :=
  edgeId != queryNone && decide (edgeId < s.queryEdges.length)
    && (s.edge edgeId).depender != queryNone && (s.edge edgeId).dependee != queryNone

/-! ## Bytes -/

/-- One round of the hash of keys and values. -/
def ifqHashByte (hash : UInt64) (byte : UInt8) : UInt64 :=
  (hash ^^^ byte.toUInt64) * incrementalFactHashPrime

def ifqQueryKeyHash (kind : QueryKind) (key : Bytes) : UInt64 :=
  key.foldl ifqHashByte ((incrementalFactHashOffset ^^^ kind.ordinal) * incrementalFactHashPrime)

def spanBytes (bytes : Bytes) (start length : Nat) : Bytes := (bytes.drop start).take length

def ifqQueryValueHashSpan (bytes : Bytes) (start length : Nat) : UInt64 :=
  if start > bytes.length || decide (length > bytes.length - start) then 0
  else (spanBytes bytes start length).foldl ifqHashByte incrementalFactHashOffset

def ifqQueryValueHash (bytes : Bytes) : UInt64 := ifqQueryValueHashSpan bytes 0 bytes.length

def ifqQuerySpanFitsU32 (start length : Nat) : Bool :=
  if start > 4294967295 || decide (length > 4294967295) then false
  else decide (start ≤ 4294967295 - length)

def ifqQueryValueSpanIsValid (s : QuerySession) (start length : Nat) : Bool :=
  decide (start ≤ s.queryValueBytes.length) && decide (length ≤ s.queryValueBytes.length - start)

/-- A node without a value has generation zero and is not green; the spans of a
value lie in the pool. -/
def ifqQueryNodeValueStateIsValid (s : QuerySession) (node : QueryNode) : Bool :=
  if !node.hasCommittedValue then node.resultGeneration == 0 && node.status != .green
  else if node.resultGeneration == 0 then false
  else ifqQueryValueSpanIsValid s node.inputStart node.inputLength
    && ifqQueryValueSpanIsValid s node.resultStart node.resultLength

def ifqQueryValueEqualsBytes (s : QuerySession) (queryStart queryLength : Nat) (bytes : Bytes)
    (bytesStart bytesLength : Nat) : Bool :=
  if queryLength != bytesLength || !ifqQueryValueSpanIsValid s queryStart queryLength then false
  else if bytesStart > bytes.length || decide (bytesLength > bytes.length - bytesStart) then false
  else spanBytes s.queryValueBytes queryStart queryLength == spanBytes bytes bytesStart queryLength

def ifqQueryValueEquals (s : QuerySession) (start length : Nat) (bytes : Bytes) : Bool :=
  ifqQueryValueEqualsBytes s start length bytes 0 bytes.length

/-! ## Handles -/

def ifqQueryHandleInvalid : QueryHandle :=
  { node := queryNone, sessionCookie := 0, graphGeneration := 0, requestGeneration := 0,
    contextGeneration := 0 }

def ifqQueryHandleForId (s : QuerySession) (queryId : Nat) : QueryHandle :=
  { node := queryId, sessionCookie := s.cookie, graphGeneration := s.queryGraphGeneration,
    requestGeneration := s.queryRequestGeneration, contextGeneration := s.queryContextGeneration }

def ifqQueryHandleIsValid (s : QuerySession) (handle : QueryHandle) : Bool :=
  if !s.enabled || !s.queryGraphEnabled || !s.valid || s.queryGraphPoisoned then false
  else if s.queryGraphGeneration == 0 || handle.graphGeneration != s.queryGraphGeneration then false
  else if s.queryRequestGeneration == 0 || handle.requestGeneration != s.queryRequestGeneration then
    false
  else if s.queryContextGeneration == 0 || handle.contextGeneration != s.queryContextGeneration then
    false
  else if handle.sessionCookie != s.cookie then false
  else ifqQueryIdIsValid s handle.node

/-- Starts a fresh graph phase: handles do not cross it. -/
def incrementalSemanticQueryBeginRequest (s : QuerySession) : QuerySession × Bool :=
  if !s.enabled || !s.queryGraphEnabled || !s.valid || s.queryGraphPoisoned
      || s.queryContextGeneration == 0 || s.queryGraphGeneration == 0 then (s, false)
  else if s.queryRequestGeneration == generationMax then (s.poison, false)
  else ({ s with queryRequestGeneration := s.queryRequestGeneration + 1 }, true)

/-! ## Queries by key -/

def ifqQueryKeySpanIsValid (s : QuerySession) (queryId : Nat) : Bool :=
  if !ifqQueryIdIsValid s queryId then false
  else decide ((s.node queryId).keyStart ≤ s.queryKeyBytes.length)
    && decide ((s.node queryId).keyLength ≤ s.queryKeyBytes.length - (s.node queryId).keyStart)

def ifqQueryKeyMatches (s : QuerySession) (queryId : Nat) (kind : QueryKind) (key : Bytes)
    (keyHash : UInt64) : Bool :=
  if !ifqQueryKeySpanIsValid s queryId then false
  else if (s.node queryId).kind != kind || (s.node queryId).keyHash != keyHash then false
  else if (s.node queryId).keyLength != key.length then false
  else spanBytes s.queryKeyBytes (s.node queryId).keyStart key.length == key

/-- Follows the collision chain of a hash.  The outer `none` is a broken chain,
the inner one a chain without the key.  The bound is the number of nodes. -/
def ifqKeyChainLoop (s : QuerySession) (kind : QueryKind) (key : Bytes) (keyHash : UInt64) :
    Nat → Nat → Option (Option Nat)
  | remaining, cursor =>
    if cursor = queryNone then some none
    else if cursor ≥ s.queryNodes.length then none
    else
      match remaining with
      | 0 => none
      | remaining + 1 =>
        if !ifqQueryKeySpanIsValid s cursor then none
        else if (s.node cursor).keyHash != keyHash then none
        else if ifqQueryKeyMatches s cursor kind key keyHash then some (some cursor)
        else ifqKeyChainLoop s kind key keyHash remaining (s.node cursor).nextSameHash

def QueryNode.fresh (kind : QueryKind) (previousHead : Nat) (keyHash : UInt64)
    (keyStart keyLength : Nat) : QueryNode :=
  { kind := kind, status := .dirty, nextSameHash := previousHead, firstDependency := queryNone,
    firstDepender := queryNone, incomingEdgeCount := 0, incomingChainGeneration := 1,
    incomingChainValidatedGeneration := 1, lastInvalidationGeneration := 0, keyHash := keyHash,
    keyStart := keyStart, keyLength := keyLength, hasCommittedValue := false, inputStart := 0,
    inputLength := 0, resultStart := 0, resultLength := 0, inputFingerprint := 0,
    resultFingerprint := 0, resultGeneration := 0 }

/-- Adds a query the graph does not have yet. -/
def ifqQueryInsert (s : QuerySession) (kind : QueryKind) (key : Bytes) (keyHash : UInt64) :
    QuerySession × Nat :=
  if s.queryNodes.length ≥ queryNone then (s, queryNone)
  else if !ifqGraphWithinLimit s key.length 0 1 0 0 0 then (s, queryNone)
  else
    let keyStart := s.queryKeyBytes.length
    let previousHead := (s.queryKeyHeads.lookup keyHash).getD queryNone
    if !ifqQuerySpanFitsU32 keyStart key.length then (s, queryNone)
    else
      let queryId := s.queryNodes.length
      ({ s with
        queryKeyBytes := s.queryKeyBytes ++ key
        queryNodes := s.queryNodes ++ [.fresh kind previousHead keyHash keyStart key.length]
        queryKeyHeads := (keyHash, queryId) :: s.queryKeyHeads }, queryId)

def ifqQueryForKeyImpl (s : QuerySession) (kind : QueryKind) (key : Bytes) : QuerySession × Nat :=
  if !s.enabled || !s.queryGraphEnabled || !s.valid || s.queryGraphPoisoned then (s, queryNone)
  else if key.length > queryKeyBytesLimit then (s, queryNone)
  else
    let keyHash := ifqQueryKeyHash kind key
    match s.queryKeyHeads.lookup keyHash with
    | none => ifqQueryInsert s kind key keyHash
    | some head =>
      match ifqKeyChainLoop s kind key keyHash s.queryNodes.length head with
      | none => (s.poison, queryNone)
      | some (some found) => (s, found)
      | some none => ifqQueryInsert s kind key keyHash

def incrementalSemanticQueryForKey (s : QuerySession) (kind : QueryKind) (key : Bytes) :
    QuerySession × QueryHandle :=
  if !s.enabled || !s.queryGraphEnabled || !s.valid || s.queryGraphPoisoned
      || s.queryRequestGeneration == 0 then (s, ifqQueryHandleInvalid)
  else
    match ifqQueryForKeyImpl s kind key with
    | (s, queryId) =>
      if queryId == queryNone || s.queryGraphPoisoned then (s, ifqQueryHandleInvalid)
      else (s, ifqQueryHandleForId s queryId)

/-! ## Chains -/

/-- The links around an edge agree with their neighbours. -/
def ifqEdgeLinksAreValid (s : QuerySession) (edgeId : Nat) : Bool :=
  if !ifqEdgeIdIsValid s edgeId then false
  else
    let edge := s.edge edgeId
    if !ifqQueryIdIsValid s edge.depender || !ifqQueryIdIsValid s edge.dependee then false
    else if edge.observedResultGeneration == 0 then false
    else if edge.nextDependency != queryNone && (!ifqEdgeIdIsValid s edge.nextDependency
        || (s.edge edge.nextDependency).depender != edge.depender) then false
    else if edge.previousDepender == queryNone
        && (s.node edge.dependee).firstDepender != edgeId then false
    else if edge.previousDepender != queryNone && (!ifqEdgeIdIsValid s edge.previousDepender
        || (s.edge edge.previousDepender).dependee != edge.dependee
        || (s.edge edge.previousDepender).nextDepender != edgeId) then false
    else if edge.nextDepender != queryNone && (!ifqEdgeIdIsValid s edge.nextDepender
        || (s.edge edge.nextDepender).dependee != edge.dependee
        || (s.edge edge.nextDepender).previousDepender != edgeId) then false
    else true

/-- Walks the edges into a node; the bound on the steps is the size of the pool. -/
def ifqIncomingChainLoop (s : QuerySession) (queryId : Nat) : Nat → Nat → Nat → Bool
  | remaining, cursor, steps =>
    if cursor = queryNone then steps == (s.node queryId).incomingEdgeCount
    else if !ifqEdgeLinksAreValid s cursor then false
    else if (s.edge cursor).dependee != queryId then false
    else
      match remaining with
      | 0 => false
      | remaining + 1 =>
        ifqIncomingChainLoop s queryId remaining (s.edge cursor).nextDepender (steps + 1)

def ifqQueryIncomingChainIsValid (s : QuerySession) (queryId : Nat) : Bool :=
  if !ifqQueryIdIsValid s queryId then false
  else ifqIncomingChainLoop s queryId s.queryEdges.length (s.node queryId).firstDepender 0

/-- Pays for the full check once per chain generation. -/
def ifqQueryIncomingChainValidateCached (s : QuerySession) (queryId : Nat) : QuerySession × Bool :=
  if !ifqQueryIdIsValid s queryId then (s, false)
  else if (s.node queryId).incomingChainGeneration == 0 then (s, false)
  else if (s.node queryId).incomingChainValidatedGeneration
      == (s.node queryId).incomingChainGeneration then (s, true)
  else if !ifqQueryIncomingChainIsValid s queryId then (s, false)
  else (s.modifyNode queryId fun node =>
    { node with incomingChainValidatedGeneration := node.incomingChainGeneration }, true)

/-- A node after an edge came into its chain or left it.  The chain stays
validated; a full generation starts again at one. -/
def QueryNode.counted (added : Bool) (node : QueryNode) : QueryNode :=
  let generation := if node.incomingChainGeneration == generationMax then 1
    else node.incomingChainGeneration + 1
  { node with
    incomingEdgeCount := if added then node.incomingEdgeCount + 1 else node.incomingEdgeCount - 1
    incomingChainGeneration := generation
    incomingChainValidatedGeneration := generation }

/-- Counts an edge in or out of the chain of a validated node, `none` when the
chain was not validated. -/
def ifqQueryNoteIncomingEdgeChange (s : QuerySession) (queryId : Nat) (added : Bool) :
    Option QuerySession :=
  if !ifqQueryIdIsValid s queryId then none
  else
    let node := s.node queryId
    if node.incomingChainGeneration == 0
        || node.incomingChainValidatedGeneration != node.incomingChainGeneration then none
    else if added && decide (node.incomingEdgeCount ≥ queryEdgeLimit) then none
    else if !added && node.incomingEdgeCount == 0 then none
    else some (s.modifyNode queryId (QueryNode.counted added))

/-! ## The dependencies of a query -/

/-- The state of one dependency: it must have a value, valid spans and a chain. -/
def ifqCheckDependencyNode (s : QuerySession) (check : DependencyCheck) (dependency : Nat) :
    QuerySession × Except DependencyCheck DependencyCheck :=
  let dependencyNode := s.node dependency
  if !dependencyNode.hasCommittedValue then (s, .error { check with valid := false })
  else if dependencyNode.resultGeneration == 0 then
    (s, .error { check with valid := false, structural := true })
  else
    let check := if dependencyNode.status != .green then
      { check with allDependenciesGreen := false }
      else check
    if !ifqQueryValueSpanIsValid s dependencyNode.inputStart dependencyNode.inputLength
        || !ifqQueryValueSpanIsValid s dependencyNode.resultStart dependencyNode.resultLength then
      (s, .error { check with valid := false, structural := true })
    else
      match ifqQueryIncomingChainValidateCached s dependency with
      | (s, false) => (s, .error { check with valid := false, structural := true })
      | (s, true) => (s, .ok check)

def ifqCollectDependencies (queryId : Nat) :
    List QueryHandle → QuerySession → DependencyCheck →
      QuerySession × Except DependencyCheck DependencyCheck
  | [], s, check => (s, .ok check)
  | handle :: handles, s, check =>
    if !ifqQueryHandleIsValid s handle then (s, .error { check with valid := false })
    else if handle.node == queryId then (s, .error { check with valid := false })
    else if check.dependencyIds.contains handle.node then
      ifqCollectDependencies queryId handles s check
    else
      match ifqCheckDependencyNode s check handle.node with
      | (s, .error check) => (s, .error check)
      | (s, .ok check) =>
        ifqCollectDependencies queryId handles s
          { check with dependencyIds := check.dependencyIds ++ [handle.node] }

/-- Matches the target of an old edge with the collected ids: whether it is one
of them, and the marks after it; `none` when it was matched before. -/
def ifqMatchOld (dependee : Nat) : List Nat → List Bool → Option (Bool × List Bool)
  | id :: ids, matched :: marks =>
    if id = dependee && matched then none
    else (ifqMatchOld dependee ids marks).map fun rest =>
      (decide (id = dependee) || rest.1, (decide (id = dependee) || matched) :: rest.2)
  | _, marks => some (false, marks)

def ifqOldEdgeIsValid (s : QuerySession) (queryId edgeId : Nat) : Bool :=
  if !ifqEdgeLinksAreValid s edgeId then false
  else
    let edge := s.edge edgeId
    if edge.depender != queryId || edge.dependee == queryId then false
    else
      let dependencyNode := s.node edge.dependee
      dependencyNode.hasCommittedValue && dependencyNode.resultGeneration != 0
        && ifqQueryNodeValueStateIsValid s dependencyNode

def ifqCompareOldEdges (queryId : Nat) :
    Nat → QuerySession → Nat → Nat → DependencyCheck → List Bool →
      QuerySession × Except DependencyCheck DependencyCheck
  | remaining, s, cursor, steps, check, marks =>
    let broken := { check with valid := false, structural := true }
    if cursor = queryNone then (s, .ok { check with oldCount := steps })
    else if !ifqOldEdgeIsValid s queryId cursor then (s, .error broken)
    else
      let edge := s.edge cursor
      match ifqQueryIncomingChainValidateCached s edge.dependee with
      | (s, false) => (s, .error broken)
      | (s, true) =>
        match ifqMatchOld edge.dependee check.dependencyIds marks with
        | none => (s, .error broken)
        | some (found, marks) =>
          let stale := edge.observedResultGeneration
            != (s.node edge.dependee).resultGeneration
          let check := { check with
            resultsCurrent := check.resultsCurrent && !(found && stale)
            equal := check.equal && found }
          match remaining with
          | 0 => (s, .error { check with valid := false, structural := true })
          | remaining + 1 =>
            ifqCompareOldEdges queryId remaining s edge.nextDependency (steps + 1) check marks

def DependencyCheck.start : DependencyCheck :=
  { valid := true, structural := false, equal := true, resultsCurrent := true,
    allDependenciesGreen := true, uniqueCount := 0, oldCount := 0, dependencyIds := [] }

def DependencyCheck.refused : DependencyCheck :=
  { valid := false, structural := false, equal := false, resultsCurrent := false,
    allDependenciesGreen := false, uniqueCount := 0, oldCount := 0, dependencyIds := [] }

def ifqQueryDependenciesCheck (s : QuerySession) (queryId : Nat) (dependencies : List QueryHandle) :
    QuerySession × DependencyCheck :=
  if dependencies.length > queryPerDependencyLimit then
    (s, .refused)
  else
    match ifqCollectDependencies queryId dependencies s .start with
    | (s, .error check) => (s, check)
    | (s, .ok check) =>
      let check := { check with uniqueCount := check.dependencyIds.length }
      match ifqCompareOldEdges queryId s.queryEdges.length s (s.node queryId).firstDependency 0
          check (check.dependencyIds.map fun _ => false) with
      | (s, .error check) => (s, check)
      | (s, .ok check) =>
        (s, { check with equal := check.equal && check.oldCount == check.uniqueCount })

/-- The common case of one dependency, without arrays.  `none` hands over to the
general check, which a query with several old edges needs. -/
def ifqQueryDependenciesCheckSingleRead (s : QuerySession) (queryId : Nat) (handle : QueryHandle) :
    QuerySession × Option DependencyCheck :=
  let check := DependencyCheck.start
  if !ifqQueryHandleIsValid s handle then (s, some { check with valid := false })
  else if handle.node == queryId then (s, some { check with valid := false })
  else
    let dependencyNode := s.node handle.node
    match ifqCheckDependencyNode s check handle.node with
    | (s, .error check) => (s, some check)
    | (s, .ok check) =>
      let check := { check with uniqueCount := 1 }
      let broken := { check with valid := false, structural := true }
      let cursor := (s.node queryId).firstDependency
      if cursor = queryNone then (s, some { check with equal := false })
      else if !ifqOldEdgeIsValid s queryId cursor then (s, some broken)
      else
        let edge := s.edge cursor
        match ifqQueryIncomingChainValidateCached s edge.dependee with
        | (s, false) => (s, some broken)
        | (s, true) =>
          if edge.nextDependency != queryNone then (s, none)
          else if edge.dependee != handle.node then
            (s, some { check with oldCount := 1, equal := false })
          else
            let stale := edge.observedResultGeneration != dependencyNode.resultGeneration
            (s, some { check with
              oldCount := 1
              resultsCurrent := check.resultsCurrent && !stale })

def ifqQueryDependenciesCheckForRead (s : QuerySession) (queryId : Nat)
    (dependencies : List QueryHandle) : QuerySession × DependencyCheck :=
  match dependencies with
  | [handle] =>
    match ifqQueryDependenciesCheckSingleRead s queryId handle with
    | (s, some check) => (s, check)
    | (s, none) => ifqQueryDependenciesCheck s queryId dependencies
  | _ => ifqQueryDependenciesCheck s queryId dependencies

end Elisa.Semantic
