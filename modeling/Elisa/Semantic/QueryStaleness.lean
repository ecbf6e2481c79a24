import Elisa.Semantic.QueryGraph

/-!
# Evaluating, committing and invalidating queries

The operations of the query graph that change what is current.  Two walks share one worklist: the
reverse walk from a node to everything that read it, which marks, and the forward walk over the
dependencies, which looks for a cycle. Both stamp the nodes they visit with a fresh generation.

A failed check of the links poisons the graph: no handle is accepted until it is cleared.
-/

namespace Elisa.Semantic

open QuerySession

/-! ## The walks -/

/-- The generation of a new walk; when the counter is full all stamps are reset. -/
def ifqNextWalk (s : QuerySession) : QuerySession :=
  let s := if s.queryInvalidationGeneration == generationMax then
      { s with
        queryNodes := s.queryNodes.map fun node => { node with lastInvalidationGeneration := 0 }
        queryInvalidationGeneration := 0 }
    else s
  { s with queryInvalidationGeneration := s.queryInvalidationGeneration + 1 }

def ifqWalkPush (s : QuerySession) (queryId : Nat) : Option QuerySession :=
  (ifqInvalidationWorklistPush s queryId).map fun s => s.modifyNode queryId fun node =>
    { node with lastInvalidationGeneration := s.queryInvalidationGeneration }

/-- Puts a node on the worklist unless this walk has stamped it. -/
def ifqWalkVisit (s : QuerySession) (queryId : Nat) : Option QuerySession :=
  if (s.node queryId).lastInvalidationGeneration != s.queryInvalidationGeneration then
    ifqWalkPush s queryId
  else some s

def WalkResult.complete : WalkResult := ⟨true, true, false⟩
def WalkResult.broken : WalkResult := ⟨false, true, false⟩
def WalkResult.overBudget : WalkResult := ⟨true, false, false⟩
def WalkResult.reached : WalkResult := ⟨true, true, true⟩

/-- Visits the dependers of a node along its incoming edges and counts the
steps.  The bound on the steps is the size of the edge pool. -/
def ifqMarkDependers (current : Nat) :
    Nat → QuerySession → Nat → Nat → QuerySession × Nat × WalkResult
  | remaining, s, cursor, steps =>
    if cursor = queryNone then (s, steps, .complete)
    else
      let s := s.countEdgeVisited
      if !ifqEdgeLinksAreValid s cursor then (s, steps, .broken)
      else
        let edge := s.edge cursor
        if edge.dependee != current then (s, steps, .broken)
        else
          let dependentNode := s.node edge.depender
          if !dependentNode.hasCommittedValue || !ifqQueryNodeValueStateIsValid s dependentNode then
            (s, steps, .broken)
          else
            match ifqWalkVisit s edge.depender with
            | none => (s, steps, .overBudget)
            | some s =>
              match remaining with
              | 0 => (s, steps + 1, .broken)
              | remaining + 1 =>
                ifqMarkDependers current remaining s edge.nextDepender (steps + 1)

/-- The rounds of the reverse walk.  The worklist never grows past the number of
nodes, so that many rounds reach its end. -/
def ifqMarkRounds : Nat → QuerySession → Nat → QuerySession × WalkResult
  | 0, s, _ => (s, .complete)
  | rounds + 1, s, cursor =>
    match s.queryInvalidationWorklist[cursor]? with
    | none => (s, .complete)
    | some current =>
      let s := s.countNodeVisited
      match ifqMarkDependers current s.queryEdges.length s (s.node current).firstDepender 0 with
      | (s, steps, walk) =>
        let walk := if walk.valid && steps != (s.node current).incomingEdgeCount then
          { walk with valid := false } else walk
        if !walk.valid || !walk.budgetOk then (s, walk)
        else ifqMarkRounds rounds s (cursor + 1)

def ifqMarkStatus (root : Nat) (rootStatus : QueryStatus) (s : QuerySession) (queryId : Nat) :
    QuerySession :=
  if queryId == root then
    if rootStatus != .potentiallyDirty || (s.node queryId).status != .dirty then
      s.modifyNode queryId fun node => { node with status := rootStatus }
    else s
  else if (s.node queryId).status != .dirty then
    s.modifyNode queryId fun node => { node with status := .potentiallyDirty }
  else s

/-- The full reverse walk and its marks.  No status changes before the whole
closure and its links have been checked. -/
def ifqMarkFullWalk (s : QuerySession) (root : Nat) (rootStatus : QueryStatus) :
    QuerySession × Bool :=
  let s := ifqNextWalk s.countFullWalk
  match ifqWalkPush s root with
  | none => (s.truncateWorklist.poison, false)
  | some s =>
    match ifqMarkRounds s.queryNodes.length s 0 with
    | (s, walk) =>
      if !walk.valid || !walk.budgetOk then (s.truncateWorklist.poison, false)
      else
        let s := s.queryInvalidationWorklist.foldl (ifqMarkStatus root rootStatus) s
        (s.truncateWorklist, true)

/-- Marks everything that read the root.  A committed root that is not green
already has no green depender: its earlier mark is reused. -/
def ifqMarkReverseClosure (s : QuerySession) (root : Nat) (rootStatus : QueryStatus) :
    QuerySession × Bool :=
  if !ifqQueryIdIsValid s root then (s.poison, false)
  else
    let s := s.truncateWorklist
    let rootNode := s.node root
    let rootIsNonGreen := rootNode.status == .dirty || rootNode.status == .potentiallyDirty
    if !s.queryGraphPoisoned && rootNode.hasCommittedValue && rootIsNonGreen
        && ifqQueryNodeValueStateIsValid s rootNode && rootNode.incomingChainGeneration != 0
        && rootNode.incomingChainValidatedGeneration == rootNode.incomingChainGeneration then
      let s := if rootStatus == .dirty && rootNode.status != .dirty then
          s.modifyNode root fun node => { node with status := .dirty }
        else s
      (s.countFastSkip, true)
    else ifqMarkFullWalk s root rootStatus

def ifqQueryMarkStale (s : QuerySession) (queryId : Nat) : QuerySession × Bool :=
  ifqMarkReverseClosure s queryId .dirty

def ifqQueryMarkPotentiallyStale (s : QuerySession) (queryId : Nat) : QuerySession × Bool :=
  ifqMarkReverseClosure s queryId .potentiallyDirty

/-- Visits the dependencies of a node along its outgoing edges, unless the
target is one of them. -/
def ifqWalkDependencies (current target : Nat) :
    Nat → QuerySession → Nat → QuerySession × WalkResult
  | remaining, s, cursor =>
    if cursor = queryNone then (s, .complete)
    else if !ifqEdgeLinksAreValid s cursor then (s, .broken)
    else
      let edge := s.edge cursor
      if edge.depender != current then (s, .broken)
      else if edge.dependee == target then (s, .reached)
      else
        match ifqWalkVisit s edge.dependee with
        | none => (s, .overBudget)
        | some s =>
          match remaining with
          | 0 => (s, .broken)
          | remaining + 1 => ifqWalkDependencies current target remaining s edge.nextDependency

def ifqWalkRounds (target : Nat) : Nat → QuerySession → Nat → QuerySession × WalkResult
  | 0, s, _ => (s, .complete)
  | rounds + 1, s, cursor =>
    match s.queryInvalidationWorklist[cursor]? with
    | none => (s, .complete)
    | some current =>
      match ifqWalkDependencies current target s.queryEdges.length s
          (s.node current).firstDependency with
      | (s, walk) =>
        if !walk.valid || !walk.budgetOk || walk.reachesTarget then (s, walk)
        else ifqWalkRounds target rounds s (cursor + 1)

def ifqQueryWalkPath (s : QuerySession) (start target : Nat) : QuerySession × WalkResult :=
  if !ifqQueryIdIsValid s start || !ifqQueryIdIsValid s target then (s, .broken)
  else if start == target then (s, .reached)
  else
    let s := ifqNextWalk s.truncateWorklist
    match ifqWalkPush s start with
    | none => (s.truncateWorklist, .overBudget)
    | some s =>
      match ifqWalkRounds target s.queryNodes.length s 0 with
      | (s, walk) => (s.truncateWorklist, walk)

/-! ## Evaluation -/

def QueryEvaluation.miss : QueryEvaluation := ⟨false, 0, 0⟩

/-- The answer of an evaluation whose dependencies were checked.  A fingerprint
that the caller knows replaces the hash of the input; the bytes decide. -/
def ifqEvaluateChecked (s : QuerySession) (queryId : Nat) (check : DependencyCheck) (input : Bytes)
    (inputStart inputLength : Nat) (inputFingerprint : Option UInt64) :
    QuerySession × QueryEvaluation :=
  let node := s.node queryId
  if !check.valid then
    if check.structural then (s.poison, .miss) else ((ifqQueryMarkStale s queryId).1, .miss)
  else if !check.allDependenciesGreen then ((ifqQueryMarkPotentiallyStale s queryId).1, .miss)
  else if !node.hasCommittedValue then (s, .miss)
  else if !check.equal || !check.resultsCurrent then ((ifqQueryMarkStale s queryId).1, .miss)
  else if node.status == .dirty then (s, .miss)
  else
    let currentFingerprint :=
      inputFingerprint.getD (ifqQueryValueHashSpan input inputStart inputLength)
    let sameInput := node.inputFingerprint == currentFingerprint
      && ifqQueryValueEqualsBytes s node.inputStart node.inputLength input inputStart inputLength
    if !sameInput then ((ifqQueryMarkStale s queryId).1, .miss)
    else
      let s := if node.status == .potentiallyDirty then
          s.modifyNode queryId fun node => { node with status := .green }
        else s
      (s, ⟨true, node.resultStart, node.resultLength⟩)

/-- Looks a query up: a hit returns the span of its result. -/
def ifqQueryEvaluateSpanImpl (s : QuerySession) (handle : QueryHandle) (input : Bytes)
    (inputStart inputLength : Nat) (inputFingerprint : Option UInt64)
    (dependencies : List QueryHandle) : QuerySession × QueryEvaluation :=
  if inputLength > queryValueBytesLimit then (s, .miss)
  else if inputStart > input.length || decide (inputLength > input.length - inputStart) then
    (s, .miss)
  else if !ifqQueryHandleIsValid s handle then (s, .miss)
  else if !ifqQueryNodeValueStateIsValid s (s.node handle.node) then (s.poison, .miss)
  else
    match ifqQueryDependenciesCheckForRead s handle.node dependencies with
    | (s, check) =>
      ifqEvaluateChecked s handle.node check input inputStart inputLength inputFingerprint

def ifqQueryEvaluate (s : QuerySession) (handle : QueryHandle) (input : Bytes)
    (dependencies : List QueryHandle) : QuerySession × QueryEvaluation :=
  ifqQueryEvaluateSpanImpl s handle input 0 input.length none dependencies

def ifqQueryEvaluateSpanWithHash (s : QuerySession) (handle : QueryHandle) (input : Bytes)
    (inputStart inputLength : Nat) (inputFingerprint : UInt64) (dependencies : List QueryHandle) :
    QuerySession × QueryEvaluation :=
  ifqQueryEvaluateSpanImpl s handle input inputStart inputLength
    (some inputFingerprint) dependencies

/-! ## Commit -/

def ifqFreeQueryEdgesValidForReplacement (s : QuerySession) (uniqueCount oldCount : Nat) : Bool :=
  let wanted := if uniqueCount > oldCount then uniqueCount - oldCount else 0
  let selectedExisting := if wanted > s.freeQueryEdges.length then
    s.freeQueryEdges.length else wanted
  if s.freeQueryEdges.length > s.queryEdges.length then false
  else (List.range selectedExisting).all fun relative =>
    let edgeId := s.freeQueryEdges.getD relative queryNone
    if edgeId == queryNone || decide (edgeId ≥ s.queryEdges.length) then false
    else if (s.edge edgeId).depender != queryNone ||
      (s.edge edgeId).dependee != queryNone then false
    else (List.range relative).all fun previous =>
      s.freeQueryEdges.getD previous queryNone != edgeId

/-- Takes an edge out of the incoming list of its target and frees its slot. -/
def ifqReleaseEdge (s : QuerySession) (edgeId : Nat) : QuerySession :=
  let edge := s.edge edgeId
  let s := if edge.previousDepender = queryNone then
      s.modifyNode edge.dependee fun node => { node with firstDepender := edge.nextDepender }
    else s.modifyEdge edge.previousDepender fun e => { e with nextDepender := edge.nextDepender }
  let s := if edge.nextDepender != queryNone then
      s.modifyEdge edge.nextDepender fun e => { e with previousDepender := edge.previousDepender }
    else s
  let s := s.modifyEdge edgeId fun _ => .free
  { s with freeQueryEdges := edgeId :: s.freeQueryEdges }

/-- Releases the edges out of a node from a cursor on.  Every round frees a slot
that was in use (the check of its target fails on a free one), so the size of
the pool bounds the rounds. -/
def ifqReleaseEdges : Nat → QuerySession → Nat → QuerySession × Bool
  | rounds, s, cursor =>
    if cursor = queryNone then (s, true)
    else
      let edge := s.edge cursor
      match ifqQueryNoteIncomingEdgeChange s edge.dependee false with
      | none => (s.poison, false)
      | some s =>
        match rounds with
        | 0 => (s.poison, false)
        | rounds + 1 => ifqReleaseEdges rounds (ifqReleaseEdge s cursor) edge.nextDependency

/-- A slot for a new edge, from the free stack or at the end of the pool. -/
def ifqTakeEdgeSlot (s : QuerySession) : QuerySession × Nat :=
  match s.freeQueryEdges with
  | edgeId :: rest => ({ s with freeQueryEdges := rest }, edgeId)
  | [] => ({ s with queryEdges := s.queryEdges ++ [.free] }, s.queryEdges.length)

/-- Links a slot as an edge, at the head of both lists. -/
def ifqLinkEdge (s : QuerySession) (depender dependency edgeId : Nat) : QuerySession :=
  let outgoingHead := (s.node depender).firstDependency
  let incomingHead := (s.node dependency).firstDepender
  let s := s.modifyEdge edgeId fun _ =>
    { depender := depender, dependee := dependency, nextDependency := outgoingHead,
      previousDepender := queryNone, nextDepender := incomingHead,
      observedResultGeneration := (s.node dependency).resultGeneration }
  let s := if incomingHead != queryNone then
      s.modifyEdge incomingHead fun e => { e with previousDepender := edgeId }
    else s
  let s := s.modifyNode depender fun node => { node with firstDependency := edgeId }
  s.modifyNode dependency fun node => { node with firstDepender := edgeId }

def ifqAddDependencies (depender : Nat) : List Nat → QuerySession → QuerySession × Bool
  | [], s => (s, true)
  | dependency :: dependencies, s =>
    match ifqQueryNoteIncomingEdgeChange s dependency true with
    | none => (s.poison, false)
    | some s =>
      match ifqTakeEdgeSlot s with
      | (s, edgeId) =>
        ifqAddDependencies depender dependencies (ifqLinkEdge s depender dependency edgeId)

def ifqApplyDependencySet (s : QuerySession) (depender : Nat) (dependencies : List Nat) :
    QuerySession × Bool :=
  match ifqReleaseEdges s.queryEdges.length s (s.node depender).firstDependency with
  | (s, false) => (s, false)
  | (s, true) =>
    ifqAddDependencies depender dependencies
      (s.modifyNode depender fun node => { node with firstDependency := queryNone })

/-- Checks the edges out of a node before their generations are refreshed; the
bound is the expected number of edges. -/
def ifqRefreshIsValid (s : QuerySession) (depender : Nat) : Nat → Nat → Bool
  | remaining, cursor =>
    if cursor = queryNone then remaining == 0
    else if !ifqEdgeLinksAreValid s cursor then false
    else
      let edge := s.edge cursor
      if edge.depender != depender then false
      else
        let dependencyNode := s.node edge.dependee
        if !dependencyNode.hasCommittedValue || dependencyNode.resultGeneration == 0
            || dependencyNode.status != .green
            || !ifqQueryNodeValueStateIsValid s dependencyNode then false
        else
          match remaining with
          | 0 => false
          | remaining + 1 => ifqRefreshIsValid s depender remaining edge.nextDependency

/-- Records the current generation of every dependency along checked edges. -/
def ifqRefreshEdges : Nat → QuerySession → Nat → QuerySession
  | remaining, s, cursor =>
    if cursor = queryNone then s
    else
      let edge := s.edge cursor
      let s := s.modifyEdge cursor fun e =>
        { e with observedResultGeneration := (s.node edge.dependee).resultGeneration }
      match remaining with
      | 0 => s
      | remaining + 1 => ifqRefreshEdges remaining s edge.nextDependency

def ifqRefreshDependencyGenerations (s : QuerySession) (depender expectedCount : Nat) :
    QuerySession × Bool :=
  if expectedCount > queryPerDependencyLimit then (s, false)
  else if !ifqRefreshIsValid s depender expectedCount (s.node depender).firstDependency then
    (s.poison, false)
  else (ifqRefreshEdges expectedCount s (s.node depender).firstDependency, true)

/-- Drops the whole graph.  Its generation advances, so that no old handle is
accepted; a generation that cannot advance poisons the graph for good. -/
def ifqClearSessionGraph (s : QuerySession) : QuerySession :=
  let s := { s with
    queryKeyBytes := [], queryKeyHeads := [], queryNodes := [], queryEdges := []
    freeQueryEdges := [], queryValueBytes := [], queryRequestGeneration := 0
    queryInvalidationGeneration := 0, queryInvalidationWorklist := [] }
  if s.queryGraphGeneration == 0 || s.queryGraphGeneration == generationMax then
    { s with queryGraphGeneration := 0, queryGraphPoisoned := true }
  else { s with queryGraphGeneration := s.queryGraphGeneration + 1, queryGraphPoisoned := false }

/-- Looks for a cycle through one of the new dependencies.  `some` is the answer
of a commit that stops here. -/
def ifqRefuseCycle (queryId : Nat) : List Nat → QuerySession → QuerySession × Option Bool
  | [], s => (s, none)
  | dependency :: dependencies, s =>
    match ifqQueryWalkPath s dependency queryId with
    | (s, walk) =>
      if !walk.valid then (s.poison, some false)
      else if !walk.budgetOk then (ifqClearSessionGraph s, some false)
      else if walk.reachesTarget then ((ifqQueryMarkStale s queryId).1, some false)
      else ifqRefuseCycle queryId dependencies s

/-- What a commit writes once every check has passed. -/
structure CommitPlan where
  inputChanged : Bool
  resultChanged : Bool
  inputStart : Nat
  resultStart : Nat
  replaceDependencies : Bool
  refreshGenerations : Bool

def CommitPlan.write (plan : CommitPlan) (input canonicalResult : Bytes) (node : QueryNode) :
    QueryNode :=
  { node with
    hasCommittedValue := true
    inputStart := plan.inputStart
    inputLength := input.length
    resultStart := plan.resultStart
    resultLength := canonicalResult.length
    inputFingerprint := ifqQueryValueHash input
    resultFingerprint := ifqQueryValueHash canonicalResult
    resultGeneration :=
      if plan.resultChanged then node.resultGeneration + 1 else node.resultGeneration }

/-- The bytes a commit appends to the pool: what changed, and the result only if it
is not the input. -/
def CommitPlan.appended (plan : CommitPlan) (input canonicalResult : Bytes) : Bytes :=
  (if plan.inputChanged then input else []) ++
    if plan.resultChanged && input != canonicalResult then canonicalResult else []

/-- The writes of a commit after the marks: the edges, the bytes, the node. -/
def ifqCommitRewrite (s : QuerySession) (queryId : Nat) (check : DependencyCheck)
    (plan : CommitPlan)
    (input canonicalResult : Bytes) : QuerySession × Bool :=
  let applied := if plan.replaceDependencies then
      ifqApplyDependencySet s queryId check.dependencyIds
    else (s, true)
  match applied with
  | (s, false) => (s, false)
  | (s, true) =>
    let s := { s with
      queryValueBytes := s.queryValueBytes ++ plan.appended input canonicalResult }
    let s := s.modifyNode queryId (plan.write input canonicalResult)
    let refreshed := if plan.refreshGenerations then
        ifqRefreshDependencyGenerations s queryId check.uniqueCount
      else (s, true)
    match refreshed with
    | (s, false) => (s, false)
    | (s, true) => (s.modifyNode queryId fun node => { node with status := .green }, true)

def ifqCommitWrites (s : QuerySession) (queryId : Nat) (check : DependencyCheck) (plan : CommitPlan)
    (input canonicalResult : Bytes) : QuerySession × Bool :=
  let marked := if plan.resultChanged then ifqMarkReverseClosure s queryId .potentiallyDirty
    else (s, true)
  match marked with
  | (s, false) => (s, false)
  | (s, true) => ifqCommitRewrite s queryId check plan input canonicalResult

/-- The admission of a commit whose dependencies were accepted: sizes, spans and
the slots it needs. -/
def ifqCommitAdmitted (s : QuerySession) (queryId : Nat) (check : DependencyCheck)
    (input canonicalResult : Bytes) : QuerySession × Bool :=
  let node := s.node queryId
  let replaceDependencies := !check.equal
  let inputChanged := !node.hasCommittedValue
    || node.inputFingerprint != ifqQueryValueHash input
    || !ifqQueryValueEquals s node.inputStart node.inputLength input
  let resultChanged := !node.hasCommittedValue
    || node.resultFingerprint != ifqQueryValueHash canonicalResult
    || !ifqQueryValueEquals s node.resultStart node.resultLength canonicalResult
  if resultChanged && node.resultGeneration == generationMax then (ifqClearSessionGraph s, false)
  else if replaceDependencies
      && !ifqFreeQueryEdgesValidForReplacement s check.uniqueCount check.oldCount then
    (s.poison, false)
  else
    let shareInputResult := input == canonicalResult
    let inputBytes := if inputChanged then input.length else 0
    let resultBytes := if resultChanged && !shareInputResult then canonicalResult.length else 0
    if resultChanged && !shareInputResult
        && decide (canonicalResult.length > queryValueBytesLimit - inputBytes) then (s, false)
    else
      let appendEdges := check.uniqueCount - (s.freeQueryEdges.length + check.oldCount)
      let extraFreeEdges := if replaceDependencies then check.oldCount else 0
      let extraEdges := if replaceDependencies then appendEdges else 0
      if !ifqGraphWithinLimit s 0 (inputBytes + resultBytes) 0 extraEdges extraFreeEdges 0 then
        (ifqClearSessionGraph s, false)
      else
        let valueCursor := s.queryValueBytes.length
        let inputStart := if inputChanged then valueCursor else node.inputStart
        let resultStart := if resultChanged then
            if shareInputResult then inputStart else valueCursor + inputBytes
          else node.resultStart
        if inputChanged && !ifqQuerySpanFitsU32 inputStart input.length then (s, false)
        else if resultChanged &&
          !ifqQuerySpanFitsU32 resultStart canonicalResult.length then (s, false)
        else
          ifqCommitWrites s queryId check
            { inputChanged := inputChanged
              resultChanged := resultChanged
              inputStart := inputStart
              resultStart := resultStart
              replaceDependencies := replaceDependencies
              refreshGenerations := check.equal && !check.resultsCurrent
                && check.allDependenciesGreen }
            input canonicalResult

/-- Records the result of a query computed from its input and dependencies. -/
def ifqQueryCommit (s : QuerySession) (handle : QueryHandle) (input : Bytes)
    (dependencies : List QueryHandle) (canonicalResult : Bytes) : QuerySession × Bool :=
  if input.length > queryValueBytesLimit then (s, false)
  else if canonicalResult.length > queryValueBytesLimit then (s, false)
  else if !ifqQueryHandleIsValid s handle then (s, false)
  else
    let queryId := handle.node
    let node := s.node queryId
    match ifqQueryDependenciesCheck s queryId dependencies with
    | (s, check) =>
      if !check.valid then
        if check.structural then (s.poison, false) else ((ifqQueryMarkStale s queryId).1, false)
      else if !check.allDependenciesGreen then ((ifqQueryMarkStale s queryId).1, false)
      else
        let refused := if !check.equal then ifqRefuseCycle queryId check.dependencyIds s
          else (s, none)
        match refused with
        | (s, some answer) => (s, answer)
        | (s, none) =>
          if !ifqQueryNodeValueStateIsValid s node then (s.poison, false)
          else ifqCommitAdmitted s queryId check input canonicalResult

/-! ## The session around the graph -/

def incrementalSemanticReverseMarkMetricsBeginRequest (s : QuerySession) (enabled : Bool) :
    QuerySession :=
  { s with reverseMarks := ⟨enabled, 0, 0, 0, 0⟩ }

def incrementalSemanticReverseMarkMetricsEndRequest (s : QuerySession) : QuerySession :=
  { s with reverseMarks := { s.reverseMarks with enabled := false } }

/-- Forgets the previous snapshot. -/
def ifcSessionClearPrior (s : QuerySession) : QuerySession := { s with valid := false }

def incrementalSemanticSessionReset (s : QuerySession) : QuerySession :=
  ifqClearSessionGraph (ifcSessionClearPrior s)

def incrementalSemanticSessionSetQueryGraphEnabled (s : QuerySession) (enabled : Bool) :
    QuerySession × Bool :=
  if s.queryGraphEnabled == enabled then (s, true)
  else if !enabled then (ifqClearSessionGraph { s with queryGraphEnabled := false }, true)
  else
    let s := ifqClearSessionGraph s
    if s.queryGraphPoisoned then (s, false) else ({ s with queryGraphEnabled := true }, true)

/-- What the store of a snapshot measures: the size of its encoding, when it has
one, and the sizes of what is kept beside it. -/
structure StoreRequest where
  encodedSize : Option Nat
  sourceLength : Nat
  identityLength : Nat
  optionsLength : Nat
  selfAssignmentFacts : Nat
  selfAssignmentRanges : Nat
  sourceViewValid : Bool

def StoreRequest.admitted (request : StoreRequest) : Bool :=
  match request.encodedSize with
  | none => false
  | some byteCount =>
    let linterExtra :=
      (request.selfAssignmentFacts * 96 + request.selfAssignmentRanges * 32) % 2 ^ 64
    let size := request.sourceLength + request.identityLength + request.optionsLength
    decide (size ≤ incrementalSnapshotCodecLimit)
      && decide (linterExtra ≤ incrementalSnapshotCodecLimit - size)
      && decide (byteCount ≤ incrementalSnapshotCodecLimit - (size + linterExtra))
      && (request.sourceLength == 0 || request.sourceViewValid)

/-- Stores a snapshot as the new context of the graph. -/
def ifcSessionStore (s : QuerySession) (request : StoreRequest) : QuerySession × Bool :=
  if !s.enabled then (incrementalSemanticSessionReset s, false)
  else if !request.admitted then (s, false)
  else
    let s := ifcSessionClearPrior s
    let s := if s.queryGraphEnabled then
        let s := if s.queryGraphPoisoned then ifqClearSessionGraph s else s
        if s.queryContextGeneration == generationMax then
          { ifqClearSessionGraph s with queryContextGeneration := 1 }
        else { s with queryContextGeneration := s.queryContextGeneration + 1 }
      else s
    ({ s with valid := true }, true)

end Elisa.Semantic
