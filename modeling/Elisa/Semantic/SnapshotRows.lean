import Mathlib.Tactic.IntervalCases
import Elisa.Semantic.SnapshotChecks

/-!
# Words and rows on the wire

A row codec is a pair of functions that write a row of fixed width and read it back.  Reading what
was written gives the rows without their unserialised flags, and what was read writes the same bytes
again.
-/

namespace Elisa.Semantic

open Outcome List

/-! ## Words -/

def wordAt (bytes : Bytes) (position : Nat) : UInt64 :=
  UInt64.ofNat (LittleEndian.value ((bytes.drop position).take 8))

@[simp] theorem length_iscPut (word : UInt64) : (iscPut word).length = 8 :=
  LittleEndian.length_put 8 word.toNat

theorem value_iscPut (word : UInt64) : LittleEndian.value (iscPut word) = word.toNat := by
  rw [iscPut, LittleEndian.value_put]
  exact Nat.mod_eq_of_lt word.toNat_lt

variable {bytes : Bytes} {cursor : Nat}

theorem iscPut_wordAt {position : Nat} (h : position + 8 ≤ bytes.length) :
    iscPut (wordAt bytes position) = (bytes.drop position).take 8 := by
  have hlen : ((bytes.drop position).take 8).length = 8 := by
    simp only [length_take, length_drop]
    omega
  have hlt := LittleEndian.value_lt ((bytes.drop position).take 8)
  rw [hlen] at hlt
  have hput := LittleEndian.put_value ((bytes.drop position).take 8)
  rw [hlen] at hput
  rw [iscPut, wordAt, UInt64.toNat_ofNat_of_lt' hlt]
  exact hput

/-- The words that stand one after another from a position on. -/
def WordsAt (bytes : Bytes) : Nat → List UInt64 → Prop
  | _, [] => True
  | position, word :: words => wordAt bytes position = word ∧ WordsAt bytes (position + 8) words

theorem wordsAt_of_drop {rest : Bytes} {words : List UInt64} {position : Nat}
    (hdrop : bytes.drop position = words.flatMap iscPut ++ rest) :
    WordsAt bytes position words := by
  induction words generalizing position with
  | nil => trivial
  | cons word words ih =>
    have hnext : bytes.drop (position + 8) = words.flatMap iscPut ++ rest := by
      rw [← drop_drop, hdrop, flatMap_cons, append_assoc]
      exact drop_left' (length_iscPut word)
    refine ⟨?_, ih hnext⟩
    rw [wordAt, hdrop, flatMap_cons, append_assoc, take_append_of_le_length (by simp),
      take_of_length_le (by simp), value_iscPut, UInt64.ofNat_toNat]

theorem flatMap_iscPut_wordAt (n : Nat) :
    ∀ {position : Nat}, position + 8 * n ≤ bytes.length →
      (List.range n).flatMap (fun i => iscPut (wordAt bytes (position + 8 * i))) =
        (bytes.drop position).take (8 * n) := by
  induction n with
  | zero =>
    intro position _
    simp
  | succ n ih =>
    intro position h
    have hnext := @ih (position + 8) (by omega)
    rw [range_succ_eq_map, flatMap_cons, flatMap_map, Nat.mul_zero, Nat.add_zero,
      iscPut_wordAt (by omega), show 8 * (n + 1) = 8 + 8 * n by omega, take_add,
      drop_drop, ← hnext]
    simp only [Nat.succ_eq_add_one, Nat.mul_add, Nat.mul_one, Nat.add_assoc, Nat.add_comm 8]

/-! ## The reader -/

theorem iscGet_eq (hbytes : bytes.length < wordLimit) (h : cursor + 8 ≤ bytes.length) :
    iscGet bytes ⟨cursor, true⟩ = ok (wordAt bytes cursor, ⟨cursor + 8, true⟩) := by
  have hword : cursor + 8 < wordLimit := by omega
  simp only [iscGet, iscSpan_eq, h, decide_true, ok_bind, Bool.not_true, Bool.or_self,
    Bool.false_eq_true, if_false, LittleEndian.read_eq hbytes h, addLength_eq hword, pure_eq]
  rfl

/-! ## Discriminants -/

variable {word : UInt64}

/-- What holds of all words up to a bound is checked word by word. -/
theorem forall_word_le (P : UInt64 → Prop) {bound : UInt64}
    (all : ∀ k ≤ bound.toNat, P (UInt64.ofNat k)) (h : word ≤ bound) : P word := by
  have here := all word.toNat (UInt64.le_iff_toNat_le.1 h)
  rwa [UInt64.ofNat_toNat] at here

theorem ordinal_rejectReasonOf : word ≤ 7 → (rejectReasonOf word).ordinal = word :=
  forall_word_le (fun word => (rejectReasonOf word).ordinal = word) (by decide)

theorem rejectReasonOf_ordinal (reason : IncrementalRejectReason) :
    rejectReasonOf reason.ordinal = reason ∧ reason.ordinal ≤ 7 := by
  cases reason <;> decide

theorem ordinal_factKindOf : word ≤ 5 → (factKindOf word).ordinal = word :=
  forall_word_le (fun word => (factKindOf word).ordinal = word) (by decide)

theorem factKindOf_ordinal (kind : IncrementalFactKind) :
    factKindOf kind.ordinal = kind ∧ kind.ordinal ≤ 5 := by
  cases kind <;> decide

theorem flag_of_le : word ≤ 1 → (if word == 1 then 1 else 0) = word :=
  forall_word_le (fun word => (if word == 1 then 1 else 0) = word) (by decide)

theorem ordinal_grantKind_of_le :
    word ≤ 1 → (if word = 0 then IncrementalGrantKind.can else .trusted).ordinal = word :=
  forall_word_le
    (fun word => (if word = 0 then IncrementalGrantKind.can else .trusted).ordinal = word)
    (by decide)

theorem toUInt64_toUInt32_of_le (h : word ≤ 4294967295) : word.toUInt32.toUInt64 = word := by
  have hle : word.toNat ≤ 4294967295 := UInt64.le_iff_toNat_le.1 h
  refine UInt64.toNat_inj.1 ?_
  rw [UInt32.toNat_toUInt64, UInt64.toNat_toUInt32]
  exact Nat.mod_eq_of_lt (by omega)

/-! ## Row codecs -/

/-- A row writer and a row reader of one fixed width that fit together on the
given bytes.  `portable` drops what a row does not serialise. -/
structure RowCodec {α : Type} (bytes : Bytes) (width : Nat) (put : α → Bytes)
    (get : IncrementalSnapshotReader → Outcome (α × IncrementalSnapshotReader))
    (portable : α → α) : Prop where
  length_put : ∀ row, (put row).length = width
  get_put : ∀ {cursor : Nat} {row : α} {rest : Bytes}, cursor + width ≤ bytes.length →
    bytes.drop cursor = put row ++ rest →
      get ⟨cursor, true⟩ = ok (portable row, ⟨cursor + width, true⟩)
  put_get : ∀ {cursor : Nat}, cursor + width ≤ bytes.length →
    get ⟨cursor, true⟩ = invalid ∨
      ∃ row, get ⟨cursor, true⟩ = ok (row, ⟨cursor + width, true⟩) ∧
        put row = (bytes.drop cursor).take width

namespace RowCodec

variable {α : Type} {width : Nat} {put : α → Bytes}
  {get : IncrementalSnapshotReader → Outcome (α × IncrementalSnapshotReader)} {portable : α → α}

theorem length_flatMap (codec : RowCodec bytes width put get portable) (rows : List α) :
    (rows.flatMap put).length = rows.length * width := by
  induction rows with
  | nil => simp
  | cons row rows ih =>
    rw [flatMap_cons, length_append, codec.length_put, ih, length_cons, Nat.add_mul,
      Nat.one_mul, Nat.add_comm]

theorem getRows_flatMap (codec : RowCodec bytes width put get portable) (rows : List α) :
    ∀ {cursor : Nat} {rest : Bytes}, cursor + rows.length * width ≤ bytes.length →
      bytes.drop cursor = rows.flatMap put ++ rest →
      getRows get rows.length ⟨cursor, true⟩ =
        ok (rows.map portable, ⟨cursor + rows.length * width, true⟩) := by
  induction rows with
  | nil =>
    intro cursor rest _ _
    simp [getRows]
  | cons row rows ih =>
    intro cursor rest hroom hdrop
    rw [length_cons, Nat.add_mul, Nat.one_mul] at hroom
    rw [flatMap_cons, append_assoc] at hdrop
    have hrow := codec.get_put (by omega) hdrop
    have hnext : bytes.drop (cursor + width) = rows.flatMap put ++ rest := by
      rw [← drop_drop, hdrop]
      exact drop_left' (codec.length_put row)
    have hrows := ih (by omega) hnext
    simp only [length_cons, getRows, hrow, ok_bind, hrows, pure_eq, map_cons]
    rw [Nat.add_mul, Nat.one_mul, Nat.add_assoc, Nat.add_comm width]

theorem getRows_cases (codec : RowCodec bytes width put get portable) (count : Nat) :
    ∀ {cursor : Nat}, cursor + count * width ≤ bytes.length →
      getRows get count ⟨cursor, true⟩ = invalid ∨
      ∃ rows, getRows get count ⟨cursor, true⟩ = ok (rows, ⟨cursor + count * width, true⟩) ∧
        rows.length = count ∧ rows.flatMap put = (bytes.drop cursor).take (count * width) := by
  induction count with
  | zero =>
    intro cursor _
    exact Or.inr ⟨[], by simp [getRows], rfl, by simp⟩
  | succ count ih =>
    intro cursor hroom
    rw [Nat.add_mul, Nat.one_mul] at hroom
    rcases @put_get _ _ _ _ _ _ codec cursor (by omega) with hrow | ⟨row, hrow, hput⟩
    · left
      simp [getRows, hrow]
    rcases @ih (cursor + width) (by omega) with hrows | ⟨rows, hrows, hlen, hputs⟩
    · left
      simp only [getRows, hrow, ok_bind, hrows, invalid_bind]
    right
    refine ⟨row :: rows, ?_, by simp [hlen], ?_⟩
    · simp only [getRows, hrow, ok_bind, hrows, pure_eq]
      rw [Nat.add_mul, Nat.one_mul, Nat.add_assoc, Nat.add_comm width]
    · rw [flatMap_cons, hput, hputs, Nat.add_mul, Nat.one_mul,
        Nat.add_comm (count * width), take_add, drop_drop]

end RowCodec

/-! ## The three tables -/

/-- A record without the flags the codec does not serialise. -/
def IncrementalFunctionFactRecord.portable (record : IncrementalFunctionFactRecord) :
    IncrementalFunctionFactRecord :=
  { record with completeEmptyBody := false, matchedPrevious := false }

theorem putFunction_eq (record : IncrementalFunctionFactRecord) :
    putFunction record = [record.keyStart, record.keyLength, record.bodyStart, record.bodyLength,
      record.bodyHash, record.directFactStart, record.directFactCount,
      if record.cacheable then 1 else 0, record.rejectReason.ordinal].flatMap iscPut := by
  simp [putFunction]

theorem getFunction_eq (hbytes : bytes.length < wordLimit) (h : cursor + 72 ≤ bytes.length) :
    getFunction bytes ⟨cursor, true⟩ = (do
      require (decide (wordAt bytes (cursor + 56) ≤ 1) && decide (wordAt bytes (cursor + 64) ≤ 7))
      return ({ keyStart := wordAt bytes cursor
                keyLength := wordAt bytes (cursor + 8)
                bodyStart := wordAt bytes (cursor + 16)
                bodyLength := wordAt bytes (cursor + 24)
                bodyHash := wordAt bytes (cursor + 32)
                directFactStart := wordAt bytes (cursor + 40)
                directFactCount := wordAt bytes (cursor + 48)
                cacheable := wordAt bytes (cursor + 56) == 1
                rejectReason := rejectReasonOf (wordAt bytes (cursor + 64))
                completeEmptyBody := false
                matchedPrevious := false }, ⟨cursor + 72, true⟩)) := by
  simp (disch := omega) only [getFunction, iscGet_eq hbytes, ok_bind, Nat.add_assoc,
    Nat.reduceAdd]

theorem take_words (n : Nat) (h : cursor + 8 * n ≤ bytes.length) :
    (bytes.drop cursor).take (8 * n) =
      ((List.range n).map fun i => wordAt bytes (cursor + 8 * i)).flatMap iscPut := by
  rw [← flatMap_iscPut_wordAt n h, flatMap_map]

theorem functionRowCodec (hbytes : bytes.length < wordLimit) :
    RowCodec bytes 72 putFunction (getFunction bytes) IncrementalFunctionFactRecord.portable where
  length_put record := by simp [putFunction_eq]
  get_put := by
    intro cursor row rest hroom hdrop
    rw [putFunction_eq] at hdrop
    have hwords := wordsAt_of_drop hdrop
    simp only [WordsAt, Nat.add_assoc, Nat.reduceAdd] at hwords
    have hflag : (if row.cacheable then (1 : UInt64) else 0) ≤ 1 ∧
        ((if row.cacheable then (1 : UInt64) else 0) == 1) = row.cacheable := by
      cases row.cacheable <;> decide
    obtain ⟨hreason, hle⟩ := rejectReasonOf_ordinal row.rejectReason
    simp only [getFunction_eq hbytes hroom, hwords, hreason, hflag.2]
    simp only [hflag.1, hle, decide_true, Bool.and_self, require_true, ok_bind, pure_eq]
    rfl
  put_get := by
    intro cursor hroom
    rw [getFunction_eq hbytes hroom]
    cases hcheck : decide (wordAt bytes (cursor + 56) ≤ 1) &&
        decide (wordAt bytes (cursor + 64) ≤ 7) with
    | false => exact Or.inl rfl
    | true =>
      simp only [Bool.and_eq_true, decide_eq_true_eq] at hcheck
      refine Or.inr ⟨_, rfl, ?_⟩
      rw [putFunction_eq]
      simp only [ordinal_rejectReasonOf hcheck.2, flag_of_le hcheck.1]
      exact (take_words 9 hroom).symm

/-! ### Facts -/

theorem putFact_eq (fact : IncrementalDirectFact) :
    putFact fact = [fact.owner, fact.kind.ordinal, fact.subjectStart, fact.subjectLength,
      fact.anchorToken.toUInt64, fact.activeGrantStart, fact.activeGrantCount].flatMap iscPut := by
  simp [putFact]

theorem getFact_eq (hbytes : bytes.length < wordLimit) (h : cursor + 56 ≤ bytes.length) :
    getFact bytes ⟨cursor, true⟩ = (do
      require (decide (wordAt bytes (cursor + 8) ≤ 5) &&
        decide (wordAt bytes (cursor + 32) ≤ 4294967295))
      return ({ owner := wordAt bytes cursor
                kind := factKindOf (wordAt bytes (cursor + 8))
                subjectStart := wordAt bytes (cursor + 16)
                subjectLength := wordAt bytes (cursor + 24)
                anchorToken := (wordAt bytes (cursor + 32)).toUInt32
                activeGrantStart := wordAt bytes (cursor + 40)
                activeGrantCount := wordAt bytes (cursor + 48) }, ⟨cursor + 56, true⟩)) := by
  simp (disch := omega) only [getFact, iscGet_eq hbytes, ok_bind, Nat.add_assoc, Nat.reduceAdd]

theorem factRowCodec (hbytes : bytes.length < wordLimit) :
    RowCodec bytes 56 putFact (getFact bytes) id where
  length_put fact := by simp [putFact_eq]
  get_put := by
    intro cursor row rest hroom hdrop
    rw [putFact_eq] at hdrop
    have hwords := wordsAt_of_drop hdrop
    simp only [WordsAt, Nat.add_assoc, Nat.reduceAdd] at hwords
    obtain ⟨hkind, hle⟩ := factKindOf_ordinal row.kind
    have hanchor : row.anchorToken.toUInt64 ≤ 4294967295 := by
      have := row.anchorToken.toNat_lt
      rw [UInt64.le_iff_toNat_le, UInt32.toNat_toUInt64]
      simp only [UInt64.reduceToNat]
      omega
    simp only [getFact_eq hbytes hroom, hwords, hkind, hanchor, hle, decide_true, Bool.and_self,
      require_true, ok_bind, pure_eq, UInt32.toUInt32_toUInt64, id_eq]
  put_get := by
    intro cursor hroom
    rw [getFact_eq hbytes hroom]
    cases hcheck : decide (wordAt bytes (cursor + 8) ≤ 5) &&
        decide (wordAt bytes (cursor + 32) ≤ 4294967295) with
    | false => exact Or.inl rfl
    | true =>
      simp only [Bool.and_eq_true, decide_eq_true_eq] at hcheck
      refine Or.inr ⟨_, rfl, ?_⟩
      rw [putFact_eq]
      simp only [ordinal_factKindOf hcheck.1, toUInt64_toUInt32_of_le hcheck.2]
      exact (take_words 7 hroom).symm

/-! ### Grants -/

theorem putGrant_eq (grant : IncrementalActiveGrant) :
    putGrant grant = [grant.kind.ordinal, grant.nameStart, grant.nameLength].flatMap iscPut := by
  simp [putGrant]

theorem getGrant_eq (hbytes : bytes.length < wordLimit) (h : cursor + 24 ≤ bytes.length) :
    getGrant bytes ⟨cursor, true⟩ = (do
      require (decide (wordAt bytes cursor ≤ 1))
      return ({ kind := if wordAt bytes cursor = 0 then .can else .trusted
                nameStart := wordAt bytes (cursor + 8)
                nameLength := wordAt bytes (cursor + 16) }, ⟨cursor + 24, true⟩)) := by
  simp (disch := omega) only [getGrant, iscGet_eq hbytes, ok_bind, Nat.add_assoc, Nat.reduceAdd]

theorem grantRowCodec (hbytes : bytes.length < wordLimit) :
    RowCodec bytes 24 putGrant (getGrant bytes) id where
  length_put grant := by simp [putGrant_eq]
  get_put := by
    intro cursor row rest hroom hdrop
    rw [putGrant_eq] at hdrop
    have hwords := wordsAt_of_drop hdrop
    simp only [WordsAt, Nat.add_assoc, Nat.reduceAdd] at hwords
    have hkind : row.kind.ordinal ≤ 1 ∧
        (if row.kind.ordinal = 0 then IncrementalGrantKind.can else .trusted) = row.kind := by
      cases row.kind <;> decide
    simp only [getGrant_eq hbytes hroom, hwords, hkind.1, hkind.2, decide_true, require_true,
      ok_bind, pure_eq, id_eq]
  put_get := by
    intro cursor hroom
    rw [getGrant_eq hbytes hroom]
    cases hcheck : decide (wordAt bytes cursor ≤ 1) with
    | false => exact Or.inl rfl
    | true =>
      have hcheck := of_decide_eq_true hcheck
      refine Or.inr ⟨_, rfl, ?_⟩
      rw [putGrant_eq]
      simp only [ordinal_grantKind_of_le hcheck]
      exact (take_words 3 hroom).symm

end Elisa.Semantic
