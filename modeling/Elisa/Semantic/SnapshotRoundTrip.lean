import Elisa.Semantic.SnapshotRows

/-!
# The snapshot codec round trips

What the encoder writes is decoded to the same portable snapshot, what the decoder accepts is
encoded to the same bytes, and the decoder never goes wrong on any bytes at all.  The decoder is
first brought into one closed form per stage.
-/

namespace Elisa.Semantic

open Outcome List

/-! ## Closed forms of the stages -/

def fnvFrom (hash : UInt64) (bytes : Bytes) : UInt64 :=
  bytes.foldl (fun hash byte => (hash ^^^ byte.toUInt64) * incrementalFactHashPrime) hash

variable {bytes : Bytes}

theorem foldlM_hash (length : Nat) :
    ∀ {start : Nat} (hash : UInt64), start + length ≤ bytes.length →
      (List.range' start length).foldlM (fun hash position => do
        let byte ← index bytes position
        return (hash ^^^ byte.toUInt64) * incrementalFactHashPrime) hash =
        ok (fnvFrom hash ((bytes.drop start).take length)) := by
  induction length with
  | zero =>
    intro start hash _
    simp [fnvFrom]
  | succ length ih =>
    intro start hash h
    have hlt : start < bytes.length := by omega
    rw [range'_succ, foldlM_cons, index_eq hlt, ok_bind, pure_eq, ok_bind,
      ih _ (by omega), drop_eq_getElem_cons hlt, take_succ_cons]
    rfl

variable {start : Nat}

theorem ifcHash_eq (hbytes : bytes.length < wordLimit) {length : Nat}
    (h : start + length ≤ bytes.length) :
    ifcHash bytes start length =
      ok (fnvFrom incrementalFactHashOffset ((bytes.drop start).take length)) := by
  rw [ifcHash, addLength_eq (by omega), ok_bind]
  exact foldlM_hash length _ h

theorem wireSize_eq {bytes functions facts grants : Nat}
    (hbytes : bytes ≤ incrementalSnapshotCodecLimit)
    (hfunctions : functions ≤ incrementalSnapshotRowLimit)
    (hfacts : facts ≤ incrementalSnapshotRowLimit)
    (hgrants : grants ≤ incrementalSnapshotRowLimit) :
    wireSize bytes functions facts grants =
      ok (146 + bytes + functions * 72 + facts * 56 + grants * 24) := by
  unfold incrementalSnapshotCodecLimit at hbytes
  unfold incrementalSnapshotRowLimit at hfunctions hfacts hgrants
  have hword : wordLimit = 18446744073709551616 := rfl
  simp (disch := omega) only [wireSize, incrementalSnapshotFrame, addLength_eq,
    mulLength_eq, ok_bind]

def headerAt (bytes : Bytes) : SnapshotHeader where
  magic := wordAt bytes 0
  version := wordAt bytes 8
  schema := wordAt bytes 16
  semantic := wordAt bytes 24
  options := wordAt bytes 32
  byteCount := wordAt bytes 40
  functionCount := wordAt bytes 48
  factCount := wordAt bytes 56
  grantCount := wordAt bytes 64
  pathStart := wordAt bytes 72
  pathLength := wordAt bytes 80
  surfaceStart := wordAt bytes 88
  surfaceLength := wordAt bytes 96
  surfaceHash := wordAt bytes 104

theorem getHeader_eq (hbytes : bytes.length < wordLimit) (h : 112 ≤ bytes.length) :
    getHeader bytes ⟨0, true⟩ = ok (headerAt bytes, ⟨112, true⟩) := by
  simp (disch := omega) only [getHeader, iscGet_eq hbytes, ok_bind, Nat.reduceAdd, pure_eq]
  rfl

theorem take_succ_drop {n : Nat} (h : start + n < bytes.length) :
    (bytes.drop start).take (n + 1) =
      (bytes.drop start).take n ++ [bytes.get ⟨start + n, h⟩] := by
  rw [take_add_one, getElem?_drop, getElem?_eq_getElem h]
  rfl

theorem copyBytes_eq (hbytes : bytes.length < wordLimit) (count : Nat)
    (h : start + count ≤ bytes.length) :
    copyBytes bytes start count = ok ((bytes.drop start).take count) := by
  induction count with
  | zero => rfl
  | succ count ih =>
    have hlt : start + count < bytes.length := by omega
    have hprev := ih (by omega)
    unfold copyBytes at hprev ⊢
    rw [range_succ, mapM_append, hprev, take_succ_drop hlt]
    simp only [ok_bind, mapM_cons, mapM_nil, addLength_eq (lt_trans hlt hbytes),
      index_eq hlt, pure_eq]

theorem append_singleton_inj {as bs : Bytes} {a b : UInt8} :
    as ++ [a] = bs ++ [b] ↔ as = bs ∧ a = b := by
  constructor
  · intro h
    obtain ⟨hs, hlast⟩ := append_inj' h rfl
    exact ⟨hs, head_eq_of_cons_eq hlast⟩
  · rintro ⟨rfl, rfl⟩
    rfl

variable {key : Bytes}

theorem forM_compareKey (hbytes : bytes.length < wordLimit) {cursor : Nat} (n : Nat)
    (hkey : n ≤ key.length) (h : cursor + n ≤ bytes.length) :
    ((List.range n).forM fun keyIndex => do
      let position ← addLength cursor keyIndex
      let keyByte ← index bytes position
      let expected ← index key keyIndex
      require (keyByte == expected)) =
      require (decide ((bytes.drop cursor).take n = key.take n)) := by
  induction n with
  | zero => simp
  | succ n ih =>
    have hlt : cursor + n < bytes.length := by omega
    have hkeyLt : n < key.length := by omega
    have hprev := ih (by omega) (by omega)
    rw [forM_eq_forM] at hprev ⊢
    rw [range_succ, forM_append, hprev, take_succ_drop hlt,
      take_add_one, getElem?_eq_getElem hkeyLt]
    simp only [forM_cons, forM_nil, addLength_eq (lt_trans hlt hbytes), index_eq hlt,
      index_eq hkeyLt, ok_bind, bind_pure_unit, require_bind_require]
    refine congrArg require ?_
    rw [Option.toList_some, decide_eq_decide.2 append_singleton_inj, Bool.decide_and]
    rfl

/-! ## The body of the stream -/

def SnapshotHeader.size (header : SnapshotHeader) : Nat :=
  146 + header.byteCount.toNat + header.functionCount.toNat * 72 + header.factCount.toNat * 56 +
    header.grantCount.toNat * 24

structure DecodedFrom (bytes : Bytes) (header : SnapshotHeader) (key : Bytes)
    (s : IncrementalSemanticSnapshot) : Prop where
  schemaVersion : s.schemaVersion = header.schema.toUInt32
  semantic : s.semanticFingerprint = header.semantic
  options : s.optionsFingerprint = header.options
  pathStart : s.sourcePathStart = header.pathStart
  pathLength : s.sourcePathLength = header.pathLength
  surfaceStart : s.declarationSurfaceStart = header.surfaceStart
  surfaceLength : s.declarationSurfaceLength = header.surfaceLength
  surfaceHash : s.declarationSurfaceHash = header.surfaceHash
  optionsKey : s.optionsKey = key ∧ (bytes.drop 112).take 26 = key
  pool : s.bytes = (bytes.drop 138).take header.byteCount.toNat
  functionCount : s.functions.length = header.functionCount.toNat
  functions : s.functions.flatMap putFunction =
    (bytes.drop (138 + header.byteCount.toNat)).take (header.functionCount.toNat * 72)
  factCount : s.directFacts.length = header.factCount.toNat
  facts : s.directFacts.flatMap putFact =
    (bytes.drop (138 + header.byteCount.toNat + header.functionCount.toNat * 72)).take
      (header.factCount.toNat * 56)
  grantCount : s.activeGrants.length = header.grantCount.toNat
  grants : s.activeGrants.flatMap putGrant =
    (bytes.drop (138 + header.byteCount.toNat + header.functionCount.toNat * 72 +
      header.factCount.toNat * 56)).take (header.grantCount.toNat * 24)

variable {header : SnapshotHeader}

theorem decodeBody_cases (hbytes : bytes.length < wordLimit) (hkey : key.length = 26)
    (hsize : header.size = bytes.length) :
    decodeBody bytes header ⟨112, true⟩ key = invalid ∨
      ∃ s, decodeBody bytes header ⟨112, true⟩ key = ok s ∧ iscValidate s = ok () ∧
        DecodedFrom bytes header key s := by
  unfold SnapshotHeader.size at hsize
  simp only [decodeBody, show incrementalSemanticOptionsKeyLength = 26 from rfl]
  rw [forM_compareKey hbytes 26 (by omega) (by omega)]
  cases hcompare : decide ((bytes.drop 112).take 26 = key.take 26) with
  | false => exact Or.inl rfl
  | true =>
    have hcompare := of_decide_eq_true hcompare
    rw [take_of_length_le (show key.length ≤ 26 by omega)] at hcompare
    rw [require_true, ok_bind, addLength_eq (by omega), ok_bind, copyBytes_eq hbytes _ (by omega),
      ok_bind, addLength_eq (by omega), ok_bind]
    rcases (functionRowCodec hbytes).getRows_cases header.functionCount.toNat
      (show 112 + 26 + header.byteCount.toNat + header.functionCount.toNat * 72 ≤ _ by omega) with
      hfunctions | ⟨functions, hfunctions, hfunctionCount, hputFunctions⟩
    · exact Or.inl (by rw [hfunctions]; rfl)
    rw [hfunctions, ok_bind]
    rcases (factRowCodec hbytes).getRows_cases header.factCount.toNat
      (show 112 + 26 + header.byteCount.toNat + header.functionCount.toNat * 72 +
        header.factCount.toNat * 56 ≤ _ by omega) with
      hfacts | ⟨facts, hfacts, hfactCount, hputFacts⟩
    · exact Or.inl (by simp only [hfacts, invalid_bind])
    simp only [hfacts, ok_bind]
    rcases (grantRowCodec hbytes).getRows_cases header.grantCount.toNat
      (show 112 + 26 + header.byteCount.toNat + header.functionCount.toNat * 72 +
        header.factCount.toNat * 56 + header.grantCount.toNat * 24 ≤ _ by omega) with
      hgrants | ⟨grants, hgrants, hgrantCount, hputGrants⟩
    · exact Or.inl (by simp only [hgrants, invalid_bind])
    simp only [hgrants, ok_bind]
    have hend : (112 + 26 + header.byteCount.toNat + header.functionCount.toNat * 72 +
        header.factCount.toNat * 56 + header.grantCount.toNat * 24 == bytes.length - 8) = true := by
      rw [beq_iff_eq]
      omega
    rw [subLength_eq (by omega), ok_bind, hend, Bool.and_self, require_true, ok_bind]
    generalize hs : IncrementalSemanticSnapshot.mk header.schema.toUInt32 header.semantic
      header.options key ((bytes.drop (112 + 26)).take header.byteCount.toNat) header.pathStart
      header.pathLength header.surfaceStart header.surfaceLength header.surfaceHash functions facts
      grants = s
    cases hvalid : iscValidate s with
    | invalid => exact Or.inl rfl
    | fault f => exact absurd hvalid (safe_iscValidate s f)
    | ok u =>
      subst hs
      exact Or.inr ⟨_, rfl, hvalid, rfl, rfl, rfl, rfl, rfl, rfl, rfl, rfl, ⟨rfl, hcompare⟩, rfl,
        hfunctionCount, hputFunctions, hfactCount, hputFacts, hgrantCount, hputGrants⟩

/-! ## The whole stream -/

/-- What a stream has to satisfy before its body is looked at. -/
structure Framed (bytes : Bytes) (semantic options : UInt64) (key : Bytes) : Prop where
  length_le : bytes.length ≤ incrementalSnapshotCodecLimit
  le_length : 146 ≤ bytes.length
  keyValid : incrementalSemanticOptionsKeyValid key = ok ()
  header : checkHeader (headerAt bytes) semantic options = true
  size : (headerAt bytes).size = bytes.length
  checksum : wordAt bytes (bytes.length - 8) =
    fnvFrom incrementalFactHashOffset (bytes.take (bytes.length - 8))

variable {semantic options : UInt64}

theorem Framed.length_lt (h : Framed bytes semantic options key) : bytes.length < wordLimit :=
  lt_of_le_of_lt h.length_le (by decide)

variable {u : Unit}

theorem keyLength_of_valid (h : incrementalSemanticOptionsKeyValid key = ok u) :
    key.length = 26 := by
  unfold incrementalSemanticOptionsKeyValid at h
  obtain ⟨_, hlength, _⟩ := bind_eq_ok.1 h
  exact eq_of_beq (require_eq_ok.1 hlength)

theorem wireSize_of_checkHeader (h : checkHeader header semantic options = true) :
    wireSize header.byteCount.toNat header.functionCount.toNat header.factCount.toNat
      header.grantCount.toNat = ok header.size := by
  simp only [checkHeader, Bool.and_eq_true, decide_eq_true_eq] at h
  exact wireSize_eq h.1.1.1.2 h.1.1.2 h.1.2 h.2

theorem incrementalDecodeSnapshot_cases (bytes : Bytes) (semantic options : UInt64) (key : Bytes) :
    (incrementalDecodeSnapshot bytes semantic options key = invalid ∧
      ¬ Framed bytes semantic options key) ∨
    (Framed bytes semantic options key ∧
      incrementalDecodeSnapshot bytes semantic options key =
        decodeBody bytes (headerAt bytes) ⟨112, true⟩ key) := by
  unfold incrementalDecodeSnapshot
  cases hlength : decide (bytes.length ≤ incrementalSnapshotCodecLimit) &&
      decide (incrementalSnapshotFrame ≤ bytes.length) with
  | false =>
    refine Or.inl ⟨rfl, ?_⟩
    intro framed
    simp [framed.length_le, framed.le_length, incrementalSnapshotFrame] at hlength
  | true =>
    rw [Bool.and_eq_true] at hlength
    have hmost := of_decide_eq_true hlength.1
    have hleast : 146 ≤ bytes.length := of_decide_eq_true hlength.2
    have hbytes : bytes.length < wordLimit := lt_of_le_of_lt hmost (by decide)
    rw [require_true, ok_bind]
    cases hkey : incrementalSemanticOptionsKeyValid key with
    | fault f => exact absurd hkey (safe_incrementalSemanticOptionsKeyValid key f)
    | invalid =>
      refine Or.inl ⟨rfl, ?_⟩
      intro framed
      rw [framed.keyValid] at hkey
      cases hkey
    | ok _ =>
      rw [ok_bind, getHeader_eq hbytes (by omega), ok_bind]
      simp only [Bool.true_and]
      cases hheader : checkHeader (headerAt bytes) semantic options with
      | false =>
        refine Or.inl ⟨rfl, ?_⟩
        intro framed
        rw [framed.header] at hheader
        cases hheader
      | true =>
        rw [require_true, ok_bind, wireSize_of_checkHeader hheader, ok_bind]
        cases hsize : (headerAt bytes).size == bytes.length with
        | false =>
          refine Or.inl ⟨rfl, ?_⟩
          intro framed
          rw [framed.size] at hsize
          simp at hsize
        | true =>
          have hroom : bytes.length - 8 + 8 ≤ bytes.length := by omega
          rw [require_true, ok_bind, subLength_eq (by omega), ok_bind,
            iscGet_eq hbytes hroom, ok_bind, ifcHash_eq hbytes (by omega), ok_bind,
            drop_zero]
          cases hsum : wordAt bytes (bytes.length - 8) ==
              fnvFrom incrementalFactHashOffset (bytes.take (bytes.length - 8)) with
          | false =>
            refine Or.inl ⟨rfl, ?_⟩
            intro framed
            rw [framed.checksum] at hsum
            simp at hsum
          | true =>
            refine Or.inr ⟨?_, rfl⟩
            exact ⟨hmost, hleast, hkey, hheader, eq_of_beq hsize, eq_of_beq hsum⟩

theorem safe_incrementalDecodeSnapshot (bytes : Bytes) (semantic options : UInt64) (key : Bytes) :
    (incrementalDecodeSnapshot bytes semantic options key).Safe := by
  rcases incrementalDecodeSnapshot_cases bytes semantic options key with
    ⟨hreject, -⟩ | ⟨framed, hbody⟩
  · rw [hreject]
    exact safe_invalid
  rw [hbody]
  rcases decodeBody_cases framed.length_lt (keyLength_of_valid framed.keyValid) framed.size with
    hreject | ⟨s, hdecoded, -, -⟩
  · rw [hreject]
    exact safe_invalid
  · rw [hdecoded]
    exact safe_ok s

variable {s : IncrementalSemanticSnapshot}

theorem incrementalDecodeSnapshot_eq_ok
    (h : incrementalDecodeSnapshot bytes semantic options key = ok s) :
    Framed bytes semantic options key ∧ iscValidate s = ok () ∧
      DecodedFrom bytes (headerAt bytes) key s := by
  rcases incrementalDecodeSnapshot_cases bytes semantic options key with
    ⟨hreject, -⟩ | ⟨framed, hbody⟩
  · rw [h] at hreject
    cases hreject
  rw [h] at hbody
  rcases decodeBody_cases framed.length_lt (keyLength_of_valid framed.keyValid) framed.size with
    hreject | ⟨s', hdecoded, hvalid, hfrom⟩
  · rw [hreject] at hbody
    cases hbody
  · rw [hdecoded] at hbody
    cases hbody
    exact ⟨framed, hvalid, hfrom⟩

/-! ## What was decoded is encoded again -/

theorem putHeader_eq (s : IncrementalSemanticSnapshot) :
    putHeader s = [incrementalSnapshotMagic, incrementalSnapshotCodecVersion,
      s.schemaVersion.toUInt64, s.semanticFingerprint, s.optionsFingerprint,
      countWord s.bytes.length, countWord s.functions.length, countWord s.directFacts.length,
      countWord s.activeGrants.length, s.sourcePathStart, s.sourcePathLength,
      s.declarationSurfaceStart, s.declarationSurfaceLength,
      s.declarationSurfaceHash].flatMap iscPut := by
  simp [putHeader]

theorem DecodedFrom.length_bytes (h : DecodedFrom bytes header key s)
    (hsize : header.size = bytes.length) : s.bytes.length = header.byteCount.toNat := by
  unfold SnapshotHeader.size at hsize
  rw [h.pool, length_take, length_drop]
  omega

theorem putHeader_of_decoded (framed : Framed bytes semantic options key)
    (h : DecodedFrom bytes (headerAt bytes) key s) : putHeader s = bytes.take 112 := by
  have hcheck := framed.header
  simp only [checkHeader, Bool.and_eq_true, beq_iff_eq] at hcheck
  obtain ⟨⟨⟨⟨⟨⟨⟨⟨hmagic, hversion⟩, hschema⟩, -⟩, -⟩, -⟩, -⟩, -⟩, -⟩ := hcheck
  have hschemaWord : s.schemaVersion.toUInt64 = (headerAt bytes).schema := by
    rw [h.schemaVersion, hschema]
    rfl
  have hword : ∀ {count : Nat} {word : UInt64}, count = word.toNat → countWord count = word := by
    rintro _ word rfl
    exact UInt64.ofNat_toNat
  have hleast := framed.le_length
  rw [putHeader_eq, hschemaWord, h.semantic, h.options, h.pathStart, h.pathLength, h.surfaceStart,
    h.surfaceLength, h.surfaceHash, ← hmagic, ← hversion, hword (h.length_bytes framed.size),
    hword h.functionCount, hword h.factCount, hword h.grantCount]
  exact (@take_words bytes 0 14 (by omega)).symm

theorem putPayload_of_decoded (framed : Framed bytes semantic options key)
    (h : DecodedFrom bytes (headerAt bytes) key s) :
    putPayload s = bytes.take (bytes.length - 8) := by
  have hsize := framed.size
  unfold SnapshotHeader.size at hsize
  rw [putPayload, putHeader_of_decoded framed h, h.optionsKey.1, ← h.optionsKey.2, h.pool,
    h.functions, h.facts, h.grants, ← take_add, ← take_add, ← take_add, ← take_add,
    ← take_add]
  congr 1
  omega

theorem incrementalEncodeSnapshot_decoded
    (h : incrementalDecodeSnapshot bytes semantic options key = ok s) :
    incrementalEncodeSnapshot s = ok bytes := by
  obtain ⟨framed, hvalid, hfrom⟩ := incrementalDecodeSnapshot_eq_ok h
  have hbytes := framed.length_lt
  have hleast := framed.le_length
  have hmost := framed.length_le
  have hwire := wireSize_of_checkHeader framed.header
  rw [framed.size, ← hfrom.length_bytes framed.size, ← hfrom.functionCount, ← hfrom.factCount,
    ← hfrom.grantCount] at hwire
  have hlength : (bytes.take (bytes.length - 8)).length = bytes.length - 8 := by
    rw [length_take]
    omega
  have hsized : incrementalSnapshotEncodedSize s = ok bytes.length := by
    simp only [incrementalSnapshotEncodedSize, hvalid, hwire, ok_bind, hmost, decide_true,
      require_true, pure_eq]
  have hpayload := putPayload_of_decoded framed hfrom
  have hlimit : bytes.length - 8 ≤ incrementalSnapshotCodecLimit - 8 := by omega
  have hlt : (bytes.take (bytes.length - 8)).length < wordLimit := by omega
  simp only [incrementalEncodeSnapshot, hsized, ok_bind, hpayload, hlength, hlimit, decide_true,
    require_true, pure_eq]
  have hlast : (bytes.drop (bytes.length - 8)).take 8 = bytes.drop (bytes.length - 8) := by
    refine take_of_length_le ?_
    rw [length_drop]
    omega
  rw [ifcHash_eq hlt (by omega), ok_bind, drop_zero, take_take, Nat.min_self,
    ← framed.checksum, iscPut_wordAt (by omega), hlast, take_append_drop]

/-! ## What was encoded is decoded again -/

/-- A snapshot without the flags the codec does not serialise. -/
def IncrementalSemanticSnapshot.portable (s : IncrementalSemanticSnapshot) :
    IncrementalSemanticSnapshot :=
  { s with functions := s.functions.map IncrementalFunctionFactRecord.portable }

theorem validateFunctions_portable (s : IncrementalSemanticSnapshot)
    (records : List IncrementalFunctionFactRecord) :
    ∀ (position : Nat) (budgets : SnapshotBudgets),
      validateFunctions s.portable position (records.map IncrementalFunctionFactRecord.portable)
        budgets = validateFunctions s position records budgets := by
  induction records with
  | nil =>
    intro position budgets
    rfl
  | cons record records ih =>
    intro position budgets
    exact bind_congr fun budgets' => ih (position + 1) budgets'

theorem validateFact_portable (s : IncrementalSemanticSnapshot) (position : Nat)
    (fact : IncrementalDirectFact) (keyBudget : Nat) :
    validateFact s.portable position fact keyBudget = validateFact s position fact keyBudget := by
  have hlength : s.portable.functions.length = s.functions.length := length_map _
  have howner : index s.portable.functions fact.owner.toNat =
      (index s.functions fact.owner.toNat >>= fun owner => ok owner.portable) :=
    index_map _ _ _
  unfold validateFact
  rw [hlength, howner]
  refine bind_congr fun _ => bind_congr fun _ => ?_
  rw [bind_assoc]
  rfl

theorem validateFacts_portable (s : IncrementalSemanticSnapshot)
    (facts : List IncrementalDirectFact) :
    ∀ position keyBudget : Nat,
      validateFacts s.portable position facts keyBudget =
        validateFacts s position facts keyBudget := by
  induction facts with
  | nil =>
    intro position keyBudget
    rfl
  | cons fact facts ih =>
    intro position keyBudget
    unfold validateFacts
    rw [validateFact_portable]
    exact bind_congr fun keyBudget' => ih (position + 1) keyBudget'

theorem iscValidate_portable (s : IncrementalSemanticSnapshot) :
    iscValidate s.portable = iscValidate s := by
  have hheader : validateHeader s.portable = validateHeader s := by
    unfold validateHeader
    rw [show s.portable.functions.length = s.functions.length from length_map _]
    rfl
  unfold iscValidate
  rw [hheader]
  refine bind_congr fun _ => ?_
  rw [show s.portable.functions = s.functions.map IncrementalFunctionFactRecord.portable from rfl,
    validateFunctions_portable]
  refine bind_congr fun budgets => ?_
  rw [show s.portable.directFacts = s.directFacts from rfl, validateFacts_portable]
  rfl

def headerOf (s : IncrementalSemanticSnapshot) : SnapshotHeader where
  magic := incrementalSnapshotMagic
  version := incrementalSnapshotCodecVersion
  schema := s.schemaVersion.toUInt64
  semantic := s.semanticFingerprint
  options := s.optionsFingerprint
  byteCount := countWord s.bytes.length
  functionCount := countWord s.functions.length
  factCount := countWord s.directFacts.length
  grantCount := countWord s.activeGrants.length
  pathStart := s.sourcePathStart
  pathLength := s.sourcePathLength
  surfaceStart := s.declarationSurfaceStart
  surfaceLength := s.declarationSurfaceLength
  surfaceHash := s.declarationSurfaceHash

variable {rest : Bytes}

theorem headerAt_eq_headerOf (h : bytes = putHeader s ++ rest) : headerAt bytes = headerOf s := by
  have hdrop : bytes.drop 0 = putHeader s ++ rest := h
  rw [putHeader_eq] at hdrop
  have hwords := wordsAt_of_drop hdrop
  clear h hdrop
  simp only [WordsAt, Nat.zero_add, Nat.reduceAdd] at hwords
  simp only [headerAt, hwords, headerOf]

theorem frame_of_iscValidate (h : iscValidate s = ok u) :
    s.schemaVersion = incrementalFunctionFactsSchema ∧
      incrementalSemanticOptionsKeyValid s.optionsKey = ok () ∧
      s.bytes.length ≤ incrementalSnapshotCodecLimit ∧
      s.functions.length ≤ incrementalSnapshotRowLimit ∧
      s.directFacts.length ≤ incrementalSnapshotRowLimit ∧
      s.activeGrants.length ≤ incrementalSnapshotRowLimit := by
  unfold iscValidate at h
  obtain ⟨_, hheader, _⟩ := bind_eq_ok.1 h
  have hcounts := counts_of_validateHeader hheader
  unfold validateHeader at hheader
  obtain ⟨_, hschema, hheader⟩ := bind_eq_ok.1 hheader
  obtain ⟨_, hkey, _⟩ := bind_eq_ok.1 hheader
  exact ⟨eq_of_beq (require_eq_ok.1 hschema), hkey, hcounts⟩

def IncrementalSemanticSnapshot.size (s : IncrementalSemanticSnapshot) : Nat :=
  146 + s.bytes.length + s.functions.length * 72 + s.directFacts.length * 56 +
    s.activeGrants.length * 24

theorem length_putHeader (s : IncrementalSemanticSnapshot) : (putHeader s).length = 112 := by
  simp [putHeader_eq]

theorem length_putPayload (hkey : s.optionsKey.length = 26) :
    (putPayload s).length + 8 = s.size := by
  have hnil : ([] : Bytes).length < wordLimit := by decide
  simp only [putPayload, length_append, length_putHeader, hkey,
    (functionRowCodec hnil).length_flatMap, (factRowCodec hnil).length_flatMap,
    (grantRowCodec hnil).length_flatMap, IncrementalSemanticSnapshot.size]
  omega

theorem incrementalEncodeSnapshot_eq_ok :
    incrementalEncodeSnapshot s = ok bytes ↔
      iscValidate s = ok () ∧ s.size ≤ incrementalSnapshotCodecLimit ∧
        bytes = putPayload s ++ iscPut (fnvFrom incrementalFactHashOffset (putPayload s)) := by
  constructor
  · intro h
    unfold incrementalEncodeSnapshot at h
    obtain ⟨size, hsized, h⟩ := bind_eq_ok.1 h
    obtain ⟨_, hroom, h⟩ := bind_eq_ok.1 h
    obtain ⟨checksum, hsum, h⟩ := bind_eq_ok.1 h
    unfold incrementalSnapshotEncodedSize at hsized
    obtain ⟨_, hvalid, hsized⟩ := bind_eq_ok.1 hsized
    obtain ⟨size', hsize, hsized⟩ := bind_eq_ok.1 hsized
    obtain ⟨_, hlimit, _⟩ := bind_eq_ok.1 hsized
    obtain ⟨-, hkey, hbytes, hfunctions, hfacts, hgrants⟩ := frame_of_iscValidate hvalid
    rw [wireSize_eq hbytes hfunctions hfacts hgrants] at hsize
    obtain rfl := ok.inj hsize
    have hlimit : s.size ≤ incrementalSnapshotCodecLimit :=
      of_decide_eq_true (require_eq_ok.1 hlimit)
    have hlength := length_putPayload (keyLength_of_valid hkey)
    have hlt : (putPayload s).length < wordLimit :=
      lt_of_le_of_lt (show _ ≤ incrementalSnapshotCodecLimit by omega) (by decide)
    rw [ifcHash_eq hlt (by omega), drop_zero, take_of_length_le (le_refl _)] at hsum
    rw [← ok.inj hsum] at h
    exact ⟨hvalid, hlimit, (ok.inj h).symm⟩
  · intro h
    obtain ⟨hvalid, hlimit, hencoded⟩ := h
    obtain ⟨-, hkey, hbytes, hfunctions, hfacts, hgrants⟩ := frame_of_iscValidate hvalid
    have hwire : wireSize s.bytes.length s.functions.length s.directFacts.length
        s.activeGrants.length = ok s.size := wireSize_eq hbytes hfunctions hfacts hgrants
    have hsized : incrementalSnapshotEncodedSize s = ok s.size := by
      simp only [incrementalSnapshotEncodedSize, hvalid, ok_bind, hwire, hlimit, decide_true,
        require_true, pure_eq]
    have hlength := length_putPayload (keyLength_of_valid hkey)
    have hroom : (putPayload s).length ≤ incrementalSnapshotCodecLimit - 8 := by omega
    have hlt : (putPayload s).length < wordLimit :=
      lt_of_le_of_lt (show _ ≤ incrementalSnapshotCodecLimit by omega) (by decide)
    simp only [incrementalEncodeSnapshot, hsized, ok_bind, hroom, decide_true, require_true]
    rw [ifcHash_eq hlt (by omega), ok_bind, drop_zero, take_of_length_le (le_refl _),
      pure_eq, hencoded]

theorem toNat_countWord {count bound : Nat} (h : count ≤ bound) (hbound : bound < wordLimit) :
    (countWord count).toNat = count :=
  UInt64.toNat_ofNat_of_lt' (lt_of_le_of_lt h hbound)

theorem headerOf_counts (h : iscValidate s = ok u) :
    (headerOf s).byteCount.toNat = s.bytes.length ∧
      (headerOf s).functionCount.toNat = s.functions.length ∧
      (headerOf s).factCount.toNat = s.directFacts.length ∧
      (headerOf s).grantCount.toNat = s.activeGrants.length := by
  obtain ⟨-, -, hbytes, hfunctions, hfacts, hgrants⟩ := frame_of_iscValidate h
  exact ⟨toNat_countWord hbytes (by decide), toNat_countWord hfunctions (by decide),
    toNat_countWord hfacts (by decide), toNat_countWord hgrants (by decide)⟩

theorem checkHeader_headerOf (h : iscValidate s = ok u) :
    checkHeader (headerOf s) s.semanticFingerprint s.optionsFingerprint = true := by
  obtain ⟨hschema, -, hbytes, hfunctions, hfacts, hgrants⟩ := frame_of_iscValidate h
  obtain ⟨hb, hf, hd, hg⟩ := headerOf_counts h
  simp only [checkHeader, hb, hf, hd, hg, hbytes, hfunctions, hfacts, hgrants, decide_true,
    Bool.and_true]
  simp only [headerOf, hschema, beq_self_eq_true, Bool.and_self]

theorem length_headerAt_of_encoded (h : incrementalEncodeSnapshot s = ok bytes) :
    bytes.length = s.size ∧ headerAt bytes = headerOf s := by
  obtain ⟨hvalid, hlimit, hencoded⟩ := incrementalEncodeSnapshot_eq_ok.1 h
  obtain ⟨-, hkey, -⟩ := frame_of_iscValidate hvalid
  have hpayload := length_putPayload (keyLength_of_valid hkey)
  have happend : ∀ checksum : Bytes, putPayload s ++ checksum = putHeader s ++ (s.optionsKey ++
      (s.bytes ++ (s.functions.flatMap putFunction ++ (s.directFacts.flatMap putFact ++
        (s.activeGrants.flatMap putGrant ++ checksum))))) := by
    intro checksum
    simp only [putPayload, append_assoc]
  refine ⟨?_, headerAt_eq_headerOf (hencoded.trans (happend _))⟩
  rw [hencoded, length_append, length_iscPut, hpayload]

theorem framed_of_encoded (h : incrementalEncodeSnapshot s = ok bytes) :
    Framed bytes s.semanticFingerprint s.optionsFingerprint s.optionsKey := by
  obtain ⟨hvalid, hlimit, hencoded⟩ := incrementalEncodeSnapshot_eq_ok.1 h
  obtain ⟨-, hkey, -⟩ := frame_of_iscValidate hvalid
  obtain ⟨hb, hf, hd, hg⟩ := headerOf_counts hvalid
  have hpayload := length_putPayload (keyLength_of_valid hkey)
  obtain ⟨hlength, hheader⟩ := length_headerAt_of_encoded h
  refine ⟨by omega, ?_, hkey, ?_, ?_, ?_⟩
  · rw [hlength, IncrementalSemanticSnapshot.size]
    omega
  · rw [hheader]
    exact checkHeader_headerOf hvalid
  · rw [hheader, hlength, SnapshotHeader.size, hb, hf, hd, hg, IncrementalSemanticSnapshot.size]
  have hcut : bytes.length - 8 = (putPayload s).length := by omega
  rw [hcut, hencoded, take_left]
  have hdrop : (putPayload s ++ iscPut (fnvFrom incrementalFactHashOffset (putPayload s))).drop
      (putPayload s).length =
      [fnvFrom incrementalFactHashOffset (putPayload s)].flatMap iscPut ++ [] := by
    rw [drop_left]
    simp
  exact (wordsAt_of_drop hdrop).1

theorem drop_next {chunk : Bytes} {position : Nat} (h : bytes.drop position = chunk ++ rest) :
    bytes.drop (position + chunk.length) = rest := by
  rw [← drop_drop, h, drop_left]

theorem take_of_drop {chunk : Bytes} {position : Nat} (h : bytes.drop position = chunk ++ rest) :
    (bytes.drop position).take chunk.length = chunk := by
  rw [h, take_left]

theorem decodeBody_of_encoded {checksum : Bytes} (hvalid : iscValidate s = ok ())
    (hbytes : bytes.length < wordLimit) (hlength : bytes.length = s.size)
    (hencoded : bytes = putPayload s ++ checksum) :
    decodeBody bytes (headerOf s) ⟨112, true⟩ s.optionsKey = ok s.portable := by
  obtain ⟨hschema, hkeyValid, -⟩ := frame_of_iscValidate hvalid
  obtain ⟨hb, hf, hd, hg⟩ := headerOf_counts hvalid
  have hkey := keyLength_of_valid hkeyValid
  have hF := (functionRowCodec hbytes).length_flatMap s.functions
  have hD := (factRowCodec hbytes).length_flatMap s.directFacts
  unfold IncrementalSemanticSnapshot.size at hlength
  -- the chunks of the stream, each from the end of the one before it
  have h0 : bytes.drop 0 = putHeader s ++ (s.optionsKey ++ (s.bytes ++
      (s.functions.flatMap putFunction ++ (s.directFacts.flatMap putFact ++
        (s.activeGrants.flatMap putGrant ++ checksum))))) := by
    rw [drop_zero, hencoded]
    simp only [putPayload, append_assoc]
  have h1 := drop_next h0
  rw [length_putHeader, Nat.zero_add] at h1
  have h2 := drop_next h1
  rw [hkey] at h2
  have h3 := drop_next h2
  have h4 := drop_next h3
  rw [hF] at h4
  have h5 := drop_next h4
  rw [hD] at h5
  have hcompare : (bytes.drop 112).take 26 = s.optionsKey.take 26 := by
    rw [take_of_length_le (show s.optionsKey.length ≤ 26 by omega), ← hkey]
    exact take_of_drop h1
  have hpool : (bytes.drop (112 + 26)).take s.bytes.length = s.bytes := take_of_drop h2
  have hfunctions := (functionRowCodec hbytes).getRows_flatMap s.functions (by omega) h3
  have hfacts := (factRowCodec hbytes).getRows_flatMap s.directFacts (by omega) h4
  have hgrants := (grantRowCodec hbytes).getRows_flatMap s.activeGrants (by omega) h5
  have hend : (112 + 26 + s.bytes.length + s.functions.length * 72 + s.directFacts.length * 56 +
      s.activeGrants.length * 24 == bytes.length - 8) = true := by
    rw [beq_iff_eq]
    omega
  simp only [decodeBody, show incrementalSemanticOptionsKeyLength = 26 from rfl, hb, hf, hd, hg]
  rw [forM_compareKey hbytes 26 (by omega) (by omega), decide_eq_true hcompare, require_true,
    ok_bind, addLength_eq (by omega), ok_bind, copyBytes_eq hbytes _ (by omega), ok_bind,
    addLength_eq (by omega), ok_bind, hfunctions, ok_bind]
  simp only [hfacts, hgrants, ok_bind]
  rw [subLength_eq (by omega), ok_bind, hend, Bool.and_self, require_true, ok_bind, hpool,
    show (headerOf s).schema.toUInt32 = s.schemaVersion from UInt32.toUInt32_toUInt64 _,
    map_id, map_id]
  change (iscValidate s.portable >>= fun _ => pure s.portable) = ok s.portable
  rw [iscValidate_portable, hvalid, ok_bind, pure_eq]

theorem incrementalDecodeSnapshot_encoded (h : incrementalEncodeSnapshot s = ok bytes) :
    incrementalDecodeSnapshot bytes s.semanticFingerprint s.optionsFingerprint s.optionsKey =
      ok s.portable := by
  have framed := framed_of_encoded h
  obtain ⟨hvalid, hlimit, hencoded⟩ := incrementalEncodeSnapshot_eq_ok.1 h
  rcases incrementalDecodeSnapshot_cases bytes s.semanticFingerprint
    s.optionsFingerprint s.optionsKey
    with ⟨-, hunframed⟩ | ⟨-, hbody⟩
  · exact absurd framed hunframed
  · obtain ⟨hlength, hheader⟩ := length_headerAt_of_encoded h
    rw [hbody, hheader]
    exact decodeBody_of_encoded hvalid framed.length_lt hlength hencoded

/-- An accepted snapshot is encoded exactly when it fits the wire limit, and what is encoded is
decoded to the same portable snapshot.  What the decoder accepts, it validates, and encoding gives
the same bytes.  No bytes make it go wrong. -/
theorem snapshot_codec_faithful_and_canonical :
    (∀ s : IncrementalSemanticSnapshot, iscValidate s = ok () →
      ((∃ bytes, incrementalEncodeSnapshot s = ok bytes) ↔
        s.size ≤ incrementalSnapshotCodecLimit) ∧
      ∀ bytes, incrementalEncodeSnapshot s = ok bytes →
        incrementalDecodeSnapshot bytes s.semanticFingerprint s.optionsFingerprint s.optionsKey =
          ok s.portable ∧ iscValidate s.portable = ok ()) ∧
    (∀ (bytes : Bytes) (semantic options : UInt64) (key : Bytes) (s : IncrementalSemanticSnapshot),
      incrementalDecodeSnapshot bytes semantic options key = ok s →
        incrementalEncodeSnapshot s = ok bytes ∧ iscValidate s = ok ()) ∧
    (∀ (bytes : Bytes) (semantic options : UInt64) (key : Bytes),
      (incrementalDecodeSnapshot bytes semantic options key).Safe) := by
  refine ⟨?_, ?_, safe_incrementalDecodeSnapshot⟩
  · intro s hvalid
    refine ⟨⟨?_, ?_⟩, ?_⟩
    · rintro ⟨bytes, h⟩
      exact (incrementalEncodeSnapshot_eq_ok.1 h).2.1
    · intro hsize
      exact ⟨_, incrementalEncodeSnapshot_eq_ok.2 ⟨hvalid, hsize, rfl⟩⟩
    · intro bytes h
      exact ⟨incrementalDecodeSnapshot_encoded h, (iscValidate_portable s).trans hvalid⟩
  · intro bytes semantic options key s h
    exact ⟨incrementalEncodeSnapshot_decoded h, (incrementalDecodeSnapshot_eq_ok h).2.1⟩

/-- A file `a` with one function `f`, whose body is one token and can panic
under one grant. -/
def panicSnapshot : IncrementalSemanticSnapshot where
  schemaVersion := 3
  semanticFingerprint := 11
  optionsFingerprint := 12
  optionsKey := [69, 83, 79, 80, 1] ++ List.replicate 21 0
  bytes := ascii "a" ++ [1, 0, 0, 0] ++ ascii "a" ++ [1, 0, 0, 0] ++ ascii "f" ++
    List.replicate 8 0 ++ ascii "P"
  sourcePathStart := 0
  sourcePathLength := 1
  declarationSurfaceStart := 0
  declarationSurfaceLength := 0
  declarationSurfaceHash := incrementalFactHashOffset
  functions := [⟨1, 10, 11, 8, 12161962213042174405, 0, 1, true, .none, true, true⟩]
  directFacts := [⟨0, .panicSite, 19, 1, 0, 0, 1⟩]
  activeGrants := [⟨.can, 19, 1⟩]

/-- The codec on that snapshot: it is accepted, encoded and decoded again. -/
theorem snapshot_codec_panicSnapshot :
    iscValidate panicSnapshot = ok () ∧
      ∃ bytes, incrementalEncodeSnapshot panicSnapshot = ok bytes ∧
        incrementalDecodeSnapshot bytes 11 12 panicSnapshot.optionsKey = ok panicSnapshot.portable ∧
        incrementalEncodeSnapshot panicSnapshot.portable = ok bytes := by
  have hvalid : iscValidate panicSnapshot = ok () := by decide
  obtain ⟨hfaithful, hcanonical, -⟩ := snapshot_codec_faithful_and_canonical
  obtain ⟨bytes, hbytes⟩ := (hfaithful panicSnapshot hvalid).1.2 (by decide)
  have hdecoded := ((hfaithful panicSnapshot hvalid).2 bytes hbytes).1
  exact ⟨hvalid, bytes, hbytes, hdecoded, (hcanonical _ _ _ _ _ hdecoded).1⟩

end Elisa.Semantic
