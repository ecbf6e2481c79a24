import Elisa.Semantic.Snapshot

/-!
# The snapshot codec

The wire format is fourteen 64-bit words, the options key, the byte pool, the function, fact and
grant rows as 64-bit words each, and a checksum of all of it, little-endian.  The decoder carries a
cursor and a flag: a word that does not fit is read as zero and clears the flag, which is looked at
once the header is read and again at the end.
-/

namespace Elisa.Semantic

open Outcome

def incrementalSnapshotMagic : UInt64 := 5786933367658005321

/-- The bytes around the byte pool and the rows: header, options key, checksum. -/
def incrementalSnapshotFrame : Nat := 146

/-! ## Encoding -/

def iscPut (value : UInt64) : Bytes := LittleEndian.put 8 value.toNat

def countWord (count : Nat) : UInt64 := UInt64.ofNat count

def putFunction (record : IncrementalFunctionFactRecord) : Bytes :=
  iscPut record.keyStart ++ iscPut record.keyLength ++ iscPut record.bodyStart ++
    iscPut record.bodyLength ++ iscPut record.bodyHash ++ iscPut record.directFactStart ++
    iscPut record.directFactCount ++ iscPut (if record.cacheable then 1 else 0) ++
    iscPut record.rejectReason.ordinal

def putFact (fact : IncrementalDirectFact) : Bytes :=
  iscPut fact.owner ++ iscPut fact.kind.ordinal ++ iscPut fact.subjectStart ++
    iscPut fact.subjectLength ++ iscPut fact.anchorToken.toUInt64 ++
    iscPut fact.activeGrantStart ++ iscPut fact.activeGrantCount

def putGrant (grant : IncrementalActiveGrant) : Bytes :=
  iscPut grant.kind.ordinal ++ iscPut grant.nameStart ++ iscPut grant.nameLength

def putHeader (s : IncrementalSemanticSnapshot) : Bytes :=
  iscPut incrementalSnapshotMagic ++ iscPut incrementalSnapshotCodecVersion ++
    iscPut s.schemaVersion.toUInt64 ++ iscPut s.semanticFingerprint ++
    iscPut s.optionsFingerprint ++ iscPut (countWord s.bytes.length) ++
    iscPut (countWord s.functions.length) ++ iscPut (countWord s.directFacts.length) ++
    iscPut (countWord s.activeGrants.length) ++ iscPut s.sourcePathStart ++
    iscPut s.sourcePathLength ++ iscPut s.declarationSurfaceStart ++
    iscPut s.declarationSurfaceLength ++ iscPut s.declarationSurfaceHash

/-- Everything before the checksum. -/
def putPayload (s : IncrementalSemanticSnapshot) : Bytes :=
  putHeader s ++ s.optionsKey ++ s.bytes ++ s.functions.flatMap putFunction ++
    s.directFacts.flatMap putFact ++ s.activeGrants.flatMap putGrant

def wireSize (bytes functions facts grants : Nat) : Outcome Nat := do
  let size ← addLength incrementalSnapshotFrame bytes
  let functionBytes ← mulLength functions 72
  let size ← addLength size functionBytes
  let factBytes ← mulLength facts 56
  let size ← addLength size factBytes
  let grantBytes ← mulLength grants 24
  addLength size grantBytes

/-- Validate a snapshot and report its canonical wire size. -/
def incrementalSnapshotEncodedSize (s : IncrementalSemanticSnapshot) : Outcome Nat := do
  iscValidate s
  let size ← wireSize s.bytes.length s.functions.length s.directFacts.length s.activeGrants.length
  require (decide (size ≤ incrementalSnapshotCodecLimit))
  return size

def incrementalEncodeSnapshot (s : IncrementalSemanticSnapshot) : Outcome Bytes := do
  let _ ← incrementalSnapshotEncodedSize s
  let bytes := putPayload s
  require (decide (bytes.length ≤ incrementalSnapshotCodecLimit - 8))
  let checksum ← ifcHash bytes 0 bytes.length
  return bytes ++ iscPut checksum

/-! ## Decoding -/

structure IncrementalSnapshotReader where
  cursor : Nat
  valid : Bool
deriving DecidableEq

/-- Read one word, or zero once the input has run out. -/
def iscGet (bytes : Bytes) (reader : IncrementalSnapshotReader) :
    Outcome (UInt64 × IncrementalSnapshotReader) := do
  let inside ← iscSpan reader.cursor 8 bytes.length
  if !reader.valid || !inside then return (0, { reader with valid := false })
  else do
    let value ← LittleEndian.read bytes reader.cursor 8
    let cursor ← addLength reader.cursor 8
    return (UInt64.ofNat value, { reader with cursor })

structure SnapshotHeader where
  magic : UInt64
  version : UInt64
  schema : UInt64
  semantic : UInt64
  options : UInt64
  byteCount : UInt64
  functionCount : UInt64
  factCount : UInt64
  grantCount : UInt64
  pathStart : UInt64
  pathLength : UInt64
  surfaceStart : UInt64
  surfaceLength : UInt64
  surfaceHash : UInt64
deriving DecidableEq

def getHeader (bytes : Bytes) (reader : IncrementalSnapshotReader) :
    Outcome (SnapshotHeader × IncrementalSnapshotReader) := do
  let (magic, reader) ← iscGet bytes reader
  let (version, reader) ← iscGet bytes reader
  let (schema, reader) ← iscGet bytes reader
  let (semantic, reader) ← iscGet bytes reader
  let (options, reader) ← iscGet bytes reader
  let (byteCount, reader) ← iscGet bytes reader
  let (functionCount, reader) ← iscGet bytes reader
  let (factCount, reader) ← iscGet bytes reader
  let (grantCount, reader) ← iscGet bytes reader
  let (pathStart, reader) ← iscGet bytes reader
  let (pathLength, reader) ← iscGet bytes reader
  let (surfaceStart, reader) ← iscGet bytes reader
  let (surfaceLength, reader) ← iscGet bytes reader
  let (surfaceHash, reader) ← iscGet bytes reader
  return ({ magic, version, schema, semantic, options, byteCount, functionCount, factCount,
            grantCount, pathStart, pathLength, surfaceStart, surfaceLength, surfaceHash }, reader)

/-- The reason with the given discriminant; anything unknown is `none`. -/
def rejectReasonOf (word : UInt64) : IncrementalRejectReason :=
  if word = 1 then .missingStablePath
  else if word = 2 then .nonUniqueOrGenericFunction
  else if word = 3 then .missingBlockBody
  else if word = 4 then .unsupportedBodySyntax
  else if word = 5 then .missingSourceAnchor
  else if word = 6 then .invalidTokenSpan
  else if word = 7 then .unsupportedSignature
  else .none

/-- The fact kind with the given discriminant; anything unknown is a call. -/
def factKindOf (word : UInt64) : IncrementalFactKind :=
  if word = 1 then .globalRead
  else if word = 2 then .globalWrite
  else if word = 3 then .canGrant
  else if word = 4 then .trustedGrant
  else if word = 5 then .panicSite
  else .directCall

def getFunction (bytes : Bytes) (reader : IncrementalSnapshotReader) :
    Outcome (IncrementalFunctionFactRecord × IncrementalSnapshotReader) := do
  let (keyStart, reader) ← iscGet bytes reader
  let (keyLength, reader) ← iscGet bytes reader
  let (bodyStart, reader) ← iscGet bytes reader
  let (bodyLength, reader) ← iscGet bytes reader
  let (bodyHash, reader) ← iscGet bytes reader
  let (directFactStart, reader) ← iscGet bytes reader
  let (directFactCount, reader) ← iscGet bytes reader
  let (cacheable, reader) ← iscGet bytes reader
  let (rejectReason, reader) ← iscGet bytes reader
  require (decide (cacheable ≤ 1) && decide (rejectReason ≤ 7))
  return ({ keyStart, keyLength, bodyStart, bodyLength, bodyHash, directFactStart, directFactCount,
            cacheable := cacheable == 1, rejectReason := rejectReasonOf rejectReason,
            completeEmptyBody := false, matchedPrevious := false }, reader)

def getFact (bytes : Bytes) (reader : IncrementalSnapshotReader) :
    Outcome (IncrementalDirectFact × IncrementalSnapshotReader) := do
  let (owner, reader) ← iscGet bytes reader
  let (kind, reader) ← iscGet bytes reader
  let (subjectStart, reader) ← iscGet bytes reader
  let (subjectLength, reader) ← iscGet bytes reader
  let (anchorToken, reader) ← iscGet bytes reader
  let (activeGrantStart, reader) ← iscGet bytes reader
  let (activeGrantCount, reader) ← iscGet bytes reader
  require (decide (kind ≤ 5) && decide (anchorToken ≤ 4294967295))
  return ({ owner, kind := factKindOf kind, subjectStart, subjectLength,
            anchorToken := anchorToken.toUInt32, activeGrantStart, activeGrantCount }, reader)

def getGrant (bytes : Bytes) (reader : IncrementalSnapshotReader) :
    Outcome (IncrementalActiveGrant × IncrementalSnapshotReader) := do
  let (kind, reader) ← iscGet bytes reader
  let (nameStart, reader) ← iscGet bytes reader
  let (nameLength, reader) ← iscGet bytes reader
  require (decide (kind ≤ 1))
  return ({ kind := if kind = 0 then .can else .trusted, nameStart, nameLength }, reader)

def getRows {α : Type} (getRow : IncrementalSnapshotReader →
    Outcome (α × IncrementalSnapshotReader)) :
    Nat → IncrementalSnapshotReader → Outcome (List α × IncrementalSnapshotReader)
  | 0, reader => ok ([], reader)
  | count + 1, reader => do
      let (row, reader) ← getRow reader
      let (rows, reader) ← getRows getRow count reader
      return (row :: rows, reader)

def copyBytes (bytes : Bytes) (start count : Nat) : Outcome Bytes :=
  (List.range count).mapM fun offset => do
    let position ← addLength start offset
    index bytes position

/-- The rest of the decoder, once the header, the wire size and the checksum are
accepted: the options key, the byte pool, the rows, and the final validation. -/
def decodeBody (bytes : Bytes) (header : SnapshotHeader) (reader : IncrementalSnapshotReader)
    (optionsKey : Bytes) : Outcome IncrementalSemanticSnapshot := do
  (List.range incrementalSemanticOptionsKeyLength).forM fun keyIndex => do
    let position ← addLength reader.cursor keyIndex
    let keyByte ← index bytes position
    let expected ← index optionsKey keyIndex
    require (keyByte == expected)
  let cursor ← addLength reader.cursor incrementalSemanticOptionsKeyLength
  let pool ← copyBytes bytes cursor header.byteCount.toNat
  let cursor ← addLength cursor header.byteCount.toNat
  let (functions, reader) ← getRows (getFunction bytes) header.functionCount.toNat
    { reader with cursor }
  let (directFacts, reader) ← getRows (getFact bytes) header.factCount.toNat reader
  let (activeGrants, reader) ← getRows (getGrant bytes) header.grantCount.toNat reader
  let payloadEnd ← subLength bytes.length 8
  require (reader.valid && reader.cursor == payloadEnd)
  let snapshot : IncrementalSemanticSnapshot :=
    { schemaVersion := header.schema.toUInt32, semanticFingerprint := header.semantic
      optionsFingerprint := header.options, optionsKey, bytes := pool
      sourcePathStart := header.pathStart, sourcePathLength := header.pathLength
      declarationSurfaceStart := header.surfaceStart
      declarationSurfaceLength := header.surfaceLength
      declarationSurfaceHash := header.surfaceHash, functions, directFacts, activeGrants }
  iscValidate snapshot
  return snapshot

def checkHeader (header : SnapshotHeader) (semanticFingerprint optionsFingerprint : UInt64) :
    Bool :=
  header.magic == incrementalSnapshotMagic && header.version == incrementalSnapshotCodecVersion &&
    header.schema == incrementalFunctionFactsSchema.toUInt64 &&
    header.semantic == semanticFingerprint && header.options == optionsFingerprint &&
    decide (header.byteCount.toNat ≤ incrementalSnapshotCodecLimit) &&
    decide (header.functionCount.toNat ≤ incrementalSnapshotRowLimit) &&
    decide (header.factCount.toNat ≤ incrementalSnapshotRowLimit) &&
    decide (header.grantCount.toNat ≤ incrementalSnapshotRowLimit)

def incrementalDecodeSnapshot (bytes : Bytes) (semanticFingerprint optionsFingerprint : UInt64)
    (optionsKey : Bytes) : Outcome IncrementalSemanticSnapshot := do
  require (decide (bytes.length ≤ incrementalSnapshotCodecLimit) &&
    decide (incrementalSnapshotFrame ≤ bytes.length))
  incrementalSemanticOptionsKeyValid optionsKey
  let (header, reader) ← getHeader bytes ⟨0, true⟩
  require (reader.valid && checkHeader header semanticFingerprint optionsFingerprint)
  let expected ← wireSize header.byteCount.toNat header.functionCount.toNat header.factCount.toNat
    header.grantCount.toNat
  require (expected == bytes.length)
  let checksumAt ← subLength bytes.length 8
  let (checksum, _) ← iscGet bytes ⟨checksumAt, true⟩
  let hash ← ifcHash bytes 0 checksumAt
  require (checksum == hash)
  decodeBody bytes header reader optionsKey

end Elisa.Semantic
