import Elisa.Bytes
import Elisa.Lib.LittleEndian

/-!
# Incremental semantic snapshots

A snapshot holds the direct facts of the functions of one translation unit.  All names, keys and
token streams are spans of one byte pool, `bytes`; functions own ranges of the fact table, and facts
of the grant table.  `iscValidate` checks every span, the token streams, the keys, the hashes, the
ranges and their owners, and three budgets that bound the total work.

The data is untrusted, so every index and every length is checked; that none ever faults is proved
in `Elisa.Semantic.SnapshotChecks`.  The invocation-local tables of a snapshot are left out: the
codec neither reads nor writes them.
-/

namespace Elisa.Semantic

open Outcome

/-! ## Records -/

inductive IncrementalFactKind where
  | directCall | globalRead | globalWrite | canGrant | trustedGrant | panicSite
deriving DecidableEq

inductive IncrementalGrantKind where
  | can | trusted
deriving DecidableEq

inductive IncrementalRejectReason where
  | none | missingStablePath | nonUniqueOrGenericFunction | missingBlockBody
  | unsupportedBodySyntax | missingSourceAnchor | invalidTokenSpan | unsupportedSignature
deriving DecidableEq

def IncrementalFactKind.ordinal : IncrementalFactKind → UInt64
  | directCall => 0
  | globalRead => 1
  | globalWrite => 2
  | canGrant => 3
  | trustedGrant => 4
  | panicSite => 5

def IncrementalGrantKind.ordinal : IncrementalGrantKind → UInt64
  | can => 0
  | trusted => 1

def IncrementalRejectReason.ordinal : IncrementalRejectReason → UInt64
  | none => 0
  | missingStablePath => 1
  | nonUniqueOrGenericFunction => 2
  | missingBlockBody => 3
  | unsupportedBodySyntax => 4
  | missingSourceAnchor => 5
  | invalidTokenSpan => 6
  | unsupportedSignature => 7

/-- One function: its key and body spans, its range of facts, and whether the
facts may be reused.  The last two flags are not serialised. -/
structure IncrementalFunctionFactRecord where
  keyStart : UInt64
  keyLength : UInt64
  bodyStart : UInt64
  bodyLength : UInt64
  bodyHash : UInt64
  directFactStart : UInt64
  directFactCount : UInt64
  cacheable : Bool
  rejectReason : IncrementalRejectReason
  completeEmptyBody : Bool
  matchedPrevious : Bool
deriving DecidableEq

/-- One direct fact: its owning function, its subject span, the body token it is
anchored at and its range of active grants. -/
structure IncrementalDirectFact where
  owner : UInt64
  kind : IncrementalFactKind
  subjectStart : UInt64
  subjectLength : UInt64
  anchorToken : UInt32
  activeGrantStart : UInt64
  activeGrantCount : UInt64
deriving DecidableEq

/-- One active grant: its kind and the span of its effect name. -/
structure IncrementalActiveGrant where
  kind : IncrementalGrantKind
  nameStart : UInt64
  nameLength : UInt64
deriving DecidableEq

/-- The portable part of a snapshot. -/
structure IncrementalSemanticSnapshot where
  schemaVersion : UInt32
  semanticFingerprint : UInt64
  optionsFingerprint : UInt64
  optionsKey : Bytes
  bytes : Bytes
  sourcePathStart : UInt64
  sourcePathLength : UInt64
  declarationSurfaceStart : UInt64
  declarationSurfaceLength : UInt64
  declarationSurfaceHash : UInt64
  functions : List IncrementalFunctionFactRecord
  directFacts : List IncrementalDirectFact
  activeGrants : List IncrementalActiveGrant
deriving DecidableEq

/-! ## Constants -/

def incrementalFunctionFactsSchema : UInt32 := 3
def incrementalSnapshotCodecVersion : UInt64 := 2
def incrementalSnapshotCodecLimit : Nat := 67108864
def incrementalSnapshotRowLimit : Nat := 1000000
def incrementalFactHashOffset : UInt64 := 14695981039346656037
def incrementalFactHashPrime : UInt64 := 1099511628211
def incrementalSemanticOptionsKeyLength : Nat := 26

def lastTokenKind : Nat := 113

/-! ## Primitive checks -/

/-- Whether a span lies inside an array of the given count. -/
def iscSpan (start length count : Nat) : Outcome Bool :=
  if start ≤ count then do
    let rest ← subLength count start
    return decide (length ≤ rest)
  else return false

def requireSpan (start length count : Nat) : Outcome Unit := do
  let inside ← iscSpan start length count
  require inside

def iscU32 (bytes : Bytes) (start : Nat) : Outcome Nat := LittleEndian.read bytes start 4

/-- The FNV-1a hash of a span. -/
def ifcHash (bytes : Bytes) (start length : Nat) : Outcome UInt64 := do
  let _ ← addLength start length
  (List.range' start length).foldlM (fun hash position => do
    let byte ← index bytes position
    return (hash ^^^ byte.toUInt64) * incrementalFactHashPrime) incrementalFactHashOffset

def ifcEqual (left : Bytes) (leftStart leftLength : Nat) (right : Bytes)
    (rightStart rightLength : Nat) : Outcome Unit := do
  require (leftLength == rightLength)
  requireSpan leftStart leftLength left.length
  requireSpan rightStart rightLength right.length
  (List.range leftLength).forM fun offset => do
    let i ← addLength leftStart offset
    let j ← addLength rightStart offset
    let a ← index left i
    let b ← index right j
    require (a == b)

def iscTokenCountLoop (bytes : Bytes) (stop : Nat) : Nat → Nat → Nat → Outcome Nat
  | 0, cursor, count => if cursor < stop then invalid else ok (count + 1)
  | fuel + 1, cursor, count =>
    if cursor < stop then do
      requireSpan cursor 8 stop
      let kind ← iscU32 bytes cursor
      require (decide (kind ≤ lastTokenKind))
      let lengthAt ← addLength cursor 4
      let textLength ← iscU32 bytes lengthAt
      let text ← addLength cursor 8
      requireSpan text textLength stop
      let next ← addLength text textLength
      iscTokenCountLoop bytes stop fuel next (count + 1)
    else ok (count + 1)

/-- One more than the number of tokens of a span; rejects a span that is no
token stream.  A token takes eight bytes or more, so the loop runs at most as
often as the span has bytes. -/
def iscTokenCount (bytes : Bytes) (start length : Nat) : Outcome Nat := do
  requireSpan start length bytes.length
  let stop ← addLength start length
  iscTokenCountLoop bytes stop length start 0

def iscKey (bytes : Bytes) (start length : Nat) : Outcome Unit := do
  requireSpan start length bytes.length
  require (decide (8 ≤ length))
  let pathLength ← iscU32 bytes start
  let room ← subLength length 8
  require (pathLength != 0 && decide (pathLength ≤ room))
  let path ← addLength start 4
  let name ← addLength path pathLength
  let nameLength ← iscU32 bytes name
  let rest ← subLength room pathLength
  require (decide (0 < nameLength) && nameLength == rest)

def iscEffectNameByte (segmentStart : Bool) (byte : UInt8) : Outcome Bool :=
  if byte = dot then do
    require (!segmentStart)
    return true
  else do
    let letter := (byte ≥ 65 && byte ≤ 90) || (byte ≥ 97 && byte ≤ 122) || byte == 95
    let digit := byte ≥ 48 && byte ≤ 57
    require (letter || (!segmentStart && digit))
    return false

/-- An ordinary ASCII effect path. -/
def iscEffectName (bytes : Bytes) (start length : Nat) : Outcome Unit := do
  require (length != 0)
  requireSpan start length bytes.length
  let segmentStart ← (List.range length).foldlM (fun segmentStart offset => do
    let position ← addLength start offset
    let byte ← index bytes position
    iscEffectNameByte segmentStart byte) true
  require (!segmentStart)

/-- The versioned options key: a magic, a version, thirteen flags, a cap. -/
def incrementalSemanticOptionsKeyValid (key : Bytes) : Outcome Unit := do
  require (key.length == incrementalSemanticOptionsKeyLength)
  [(0, 69), (1, 83), (2, 79), (3, 80), (4, 1)].forM fun (position, expected) => do
    let byte ← index key position
    require (byte == expected)
  (List.range 13).forM fun position => do
    let byte ← index key (5 + position)
    require (decide (byte ≤ 1))

/-! ## Validation -/

/-- What is left of the byte pool for bodies and for keys. -/
structure SnapshotBudgets where
  body : Nat
  key : Nat
deriving DecidableEq

def validateFunction (s : IncrementalSemanticSnapshot) (position : Nat)
    (record : IncrementalFunctionFactRecord) (budgets : SnapshotBudgets) :
    Outcome SnapshotBudgets := do
  require (decide (record.bodyLength.toNat ≤ budgets.body))
  require (decide (record.keyLength.toNat ≤ budgets.key))
  let bodyBudget ← subLength budgets.body record.bodyLength.toNat
  let keyBudget ← subLength budgets.key record.keyLength.toNat
  iscKey s.bytes record.keyStart.toNat record.keyLength.toNat
  let keyPathLength ← iscU32 s.bytes record.keyStart.toNat
  let keyPath ← addLength record.keyStart.toNat 4
  ifcEqual s.bytes keyPath keyPathLength s.bytes s.sourcePathStart.toNat s.sourcePathLength.toNat
  requireSpan record.bodyStart.toNat record.bodyLength.toNat s.bytes.length
  let hash ← ifcHash s.bytes record.bodyStart.toNat record.bodyLength.toNat
  require (record.bodyHash == hash)
  require (decide (record.rejectReason.ordinal ≤
    IncrementalRejectReason.unsupportedSignature.ordinal))
  require (!(record.cacheable && record.rejectReason != .none))
  require (!(!record.cacheable && record.directFactCount != 0))
  requireSpan record.directFactStart.toNat record.directFactCount.toNat s.directFacts.length
  let tokenCount ← iscTokenCount s.bytes record.bodyStart.toNat record.bodyLength.toNat
  require (!(record.cacheable && decide (tokenCount ≤ 1)))
  (List.range record.directFactCount.toNat).forM fun relative => do
    let at_ ← addLength record.directFactStart.toNat relative
    let fact ← index s.directFacts at_
    let tokens ← subLength tokenCount 1
    require (fact.owner.toNat == position && decide (fact.anchorToken.toNat < tokens))
  return ⟨bodyBudget, keyBudget⟩

def validateFunctions (s : IncrementalSemanticSnapshot) :
    Nat → List IncrementalFunctionFactRecord → SnapshotBudgets → Outcome SnapshotBudgets
  | _, [], budgets => ok budgets
  | position, record :: records, budgets => do
      let budgets ← validateFunction s position record budgets
      validateFunctions s (position + 1) records budgets

def IncrementalFactKind.hasKeySubject : IncrementalFactKind → Bool
  | directCall | globalRead | globalWrite => true
  | canGrant | trustedGrant | panicSite => false

/-- Check the subject of a fact: a key of this file, or an effect name. -/
def validateSubject (s : IncrementalSemanticSnapshot) (fact : IncrementalDirectFact) :
    Outcome Unit :=
  if fact.kind.hasKeySubject then do
    iscKey s.bytes fact.subjectStart.toNat fact.subjectLength.toNat
    let subjectPathLength ← iscU32 s.bytes fact.subjectStart.toNat
    let subjectPath ← addLength fact.subjectStart.toNat 4
    ifcEqual s.bytes subjectPath subjectPathLength s.bytes s.sourcePathStart.toNat
      s.sourcePathLength.toNat
  else
    iscEffectName s.bytes fact.subjectStart.toNat fact.subjectLength.toNat

def validateFact (s : IncrementalSemanticSnapshot) (position : Nat) (fact : IncrementalDirectFact)
    (keyBudget : Nat) : Outcome Nat := do
  require (decide (fact.owner.toNat < s.functions.length))
  require (decide (fact.kind.ordinal ≤ IncrementalFactKind.panicSite.ordinal))
  let owner ← index s.functions fact.owner.toNat
  require (decide (owner.directFactStart.toNat ≤ position))
  let relative ← subLength position owner.directFactStart.toNat
  require (decide (relative < owner.directFactCount.toNat))
  requireSpan fact.subjectStart.toNat fact.subjectLength.toNat s.bytes.length
  require (fact.subjectLength != 0)
  require (decide (fact.subjectLength.toNat ≤ keyBudget))
  let keyBudget ← subLength keyBudget fact.subjectLength.toNat
  validateSubject s fact
  requireSpan fact.activeGrantStart.toNat fact.activeGrantCount.toNat s.activeGrants.length
  return keyBudget

def validateFacts (s : IncrementalSemanticSnapshot) :
    Nat → List IncrementalDirectFact → Nat → Outcome Nat
  | _, [], keyBudget => ok keyBudget
  | position, fact :: facts, keyBudget => do
      let keyBudget ← validateFact s position fact keyBudget
      validateFacts s (position + 1) facts keyBudget

def validateGrant (bytes : Bytes) (grantBudget : Nat) (grant : IncrementalActiveGrant) :
    Outcome Nat := do
  require (decide (grant.kind.ordinal ≤ IncrementalGrantKind.trusted.ordinal))
  require (decide (grant.nameLength.toNat ≤ grantBudget))
  let grantBudget ← subLength grantBudget grant.nameLength.toNat
  iscEffectName bytes grant.nameStart.toNat grant.nameLength.toNat
  return grantBudget

def validateHeader (s : IncrementalSemanticSnapshot) : Outcome Unit := do
  require (s.schemaVersion == incrementalFunctionFactsSchema)
  incrementalSemanticOptionsKeyValid s.optionsKey
  require (decide (s.bytes.length ≤ incrementalSnapshotCodecLimit))
  require (decide (s.functions.length ≤ incrementalSnapshotRowLimit) &&
    decide (s.directFacts.length ≤ incrementalSnapshotRowLimit) &&
    decide (s.activeGrants.length ≤ incrementalSnapshotRowLimit))
  requireSpan s.sourcePathStart.toNat s.sourcePathLength.toNat s.bytes.length
  require (s.sourcePathLength != 0)
  let _ ← iscTokenCount s.bytes s.declarationSurfaceStart.toNat s.declarationSurfaceLength.toNat
  let hash ← ifcHash s.bytes s.declarationSurfaceStart.toNat s.declarationSurfaceLength.toNat
  require (s.declarationSurfaceHash == hash)

/-- Accept a snapshot (`ok`) or reject it (`invalid`). -/
def iscValidate (s : IncrementalSemanticSnapshot) : Outcome Unit := do
  validateHeader s
  let budgets ← validateFunctions s 0 s.functions ⟨s.bytes.length, s.bytes.length⟩
  let _ ← validateFacts s 0 s.directFacts budgets.key
  let _ ← s.activeGrants.foldlM (validateGrant s.bytes) s.bytes.length
  return

end Elisa.Semantic
