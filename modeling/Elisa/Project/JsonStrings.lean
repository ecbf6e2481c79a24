import Elisa.Project.JsonGrammar
import Elisa.Project.JsonReader

/-!
# The readers of JSON strings

The three loops go over a string in steps of different length: the decoders take a pair of
surrogates or a character of UTF-8 at once, `jsonSkipString` takes units and bytes.  All are readers
of the contents of strings (`parseStringLoop_reads`, `pushStringLoop_reads`,
`skipStringLoop_reads`), so they accept the same strings and end at the same position, and the
decoders append the same characters.
-/

namespace Elisa.ProjectSystem.Json

open Elisa.Lib Utf8 List

/-! ## The text at a position -/

section Text

variable {data rest : Bytes} {position : Nat} {byte : UInt8}

theorem jsonAt_add (data : Bytes) (position offset : Nat) :
    jsonAt data (position + offset) = (data.drop position).getD offset 0 := by
  simp [jsonAt]

theorem jsonAt_eq (data : Bytes) (position : Nat) :
    jsonAt data position = (data.drop position).getD 0 0 := jsonAt_add data position 0

theorem drop_cons (h : data.drop position = byte :: rest) : position < data.length := by
  have := congrArg List.length h
  rw [length_drop, length_cons] at this
  omega

theorem drop_append {bytes : Bytes} (h : data.drop position = bytes ++ rest) :
    data.drop (position + bytes.length) = rest := by
  rw [← drop_drop, h, drop_left']
  rfl

/-- What lies between two places tells how far apart they are. -/
theorem next_eq {bytes : Bytes} {next : Nat} (hle : position ≤ next) (hinside : next ≤ data.length)
    (h : data.drop position = bytes ++ data.drop next) : next = position + bytes.length := by
  have := congrArg List.length h
  rw [length_drop, length_append, length_drop] at this
  omega

end Text

/-! ## Units -/

section Units

variable {data rest digits : Bytes} {position unit : Nat} {byte : UInt8}

theorem jsonHexDigit_eq (byte : UInt8) :
    jsonHexDigit byte = ((hexDigit? byte).map Int.ofNat).getD (-1) := by
  rw [jsonHexDigit, hexDigit?]
  split
  next h =>
    rw [UInt8.toNat_sub_of_le _ _ h.1]
    rfl
  split
  next h =>
    have hlow := UInt8.le_iff_toNat_le.mp h.1
    have hhigh := UInt8.le_iff_toNat_le.mp h.2
    have h97 : (97 : UInt8).toNat = 97 := rfl
    have h102 : (102 : UInt8).toNat = 102 := rfl
    have h10 : (10 : UInt8).toNat = 10 := rfl
    rw [UInt8.toNat_add, UInt8.toNat_sub_of_le _ _ h.1, h97, h10, Nat.mod_eq_of_lt (by omega),
      show byte.toNat - 97 + 10 = byte.toNat - 87 by omega]
    rfl
  split
  next h =>
    have hlow := UInt8.le_iff_toNat_le.mp h.1
    have hhigh := UInt8.le_iff_toNat_le.mp h.2
    have h65 : (65 : UInt8).toNat = 65 := rfl
    have h70 : (70 : UInt8).toNat = 70 := rfl
    have h10 : (10 : UInt8).toNat = 10 := rfl
    rw [UInt8.toNat_add, UInt8.toNat_sub_of_le _ _ h.1, h65, h10, Nat.mod_eq_of_lt (by omega),
      show byte.toNat - 65 + 10 = byte.toNat - 55 by omega]
    rfl
  next => rfl

theorem jsonHexDigit_some {value : Nat} (h : hexDigit? byte = some value) :
    jsonHexDigit byte = value := by
  rw [jsonHexDigit_eq, h]
  rfl

theorem hexDigit?_of_nonneg (h : ¬ jsonHexDigit byte < 0) :
    ∃ value, hexDigit? byte = some value := by
  rw [jsonHexDigit_eq] at h
  cases hdigit : hexDigit? byte with
  | none =>
    rw [hdigit] at h
    exact absurd (by decide) h
  | some value => exact ⟨value, rfl⟩

theorem jsonHex4_unit (h : data.drop position = digits ++ rest) (hdigits : HexUnit digits unit) :
    jsonHex4 data position = unit := by
  cases hdigits with
  | @intro a b c d w x y z ha hb hc hd =>
    have hnonneg (n : Nat) : ¬ (n : Int) < 0 := Int.not_lt.mpr (Int.natCast_nonneg n)
    simp only [jsonHex4, jsonAt_add, jsonAt_eq data position, h, cons_append, getD_cons_zero,
      getD_cons_succ, jsonHexDigit_some ha, jsonHexDigit_some hb, jsonHexDigit_some hc,
      jsonHexDigit_some hd, hnonneg, if_false]
    push_cast
    rfl

/-- Four digits are read only where four stand. -/
theorem unit_of_jsonHex4 (h : ¬ jsonHex4 data position < 0) :
    ∃ digits unit rest, data.drop position = digits ++ rest ∧ HexUnit digits unit := by
  have hminus : (-1 : Int) < 0 := by decide
  simp only [jsonHex4, jsonAt_add, jsonAt_eq data position] at h
  split at h
  next => exact absurd hminus h
  rename_i h0
  split at h
  next => exact absurd hminus h
  rename_i h1
  split at h
  next => exact absurd hminus h
  rename_i h2
  split at h
  next => exact absurd hminus h
  rename_i h3
  obtain ⟨w, hw⟩ := hexDigit?_of_nonneg h0
  obtain ⟨x, hx⟩ := hexDigit?_of_nonneg h1
  obtain ⟨y, hy⟩ := hexDigit?_of_nonneg h2
  obtain ⟨z, hz⟩ := hexDigit?_of_nonneg h3
  generalize data.drop position = text at hw hx hy hz
  rcases text with _ | ⟨a, _ | ⟨b, _ | ⟨c, _ | ⟨d, rest⟩⟩⟩⟩
  · cases hw
  · cases hx
  · cases hy
  · cases hz
  · exact ⟨[a, b, c, d], _, rest, rfl, .intro hw hx hy hz⟩

theorem jsonHex4_neg (h : ∀ digits unit rest, data.drop position = digits ++ rest →
    ¬ HexUnit digits unit) : jsonHex4 data position < 0 := by
  by_contra hnonneg
  obtain ⟨digits, unit, rest, htext, hdigits⟩ := unit_of_jsonHex4 hnonneg
  exact h digits unit rest htext hdigits

theorem jsonHex4_unitText (h : data.drop position = unitText digits ++ rest)
    (hdigits : HexUnit digits unit) : jsonHex4 data (position + 2) = unit := by
  refine @jsonHex4_unit data rest _ _ _ ?_ hdigits
  rw [← drop_drop, h]
  rfl

theorem jsonHex4_refused (h : data.drop position = 92 :: 117 :: rest)
    (hnone : ∀ digits unit after, rest = digits ++ after → ¬ HexUnit digits unit) :
    jsonHex4 data (position + 2) < 0 := by
  refine jsonHex4_neg fun digits unit after hafter => hnone digits unit after ?_
  rw [← hafter, ← drop_drop, h]
  rfl

theorem scalar_valid (cursor : JsonCursor) (valid : unit.isValidChar) :
    jsonUnicodeEscapeScalar data cursor unit = (cursor, (unit : Int)) := by
  rw [Nat.isValidChar] at valid
  rw [jsonUnicodeEscapeScalar, if_neg (by omega), if_neg (by omega)]

/-- A high half takes the low half behind it along. -/
theorem scalar_pair (cursor : JsonCursor) {low : Nat} (hhigh : IsHigh unit) (hlow : IsLow low)
    (h : data.drop cursor.position = unitText digits ++ rest) (hdigits : HexUnit digits low) :
    jsonUnicodeEscapeScalar data cursor unit =
      (cursor.advance 6, ((65536 + (unit - 55296) * 1024 + (low - 56320) : Nat) : Int)) := by
  obtain ⟨hlow1, hlow2⟩ := hlow
  obtain ⟨hhigh1, hhigh2⟩ := hhigh
  have hslash : jsonAt data cursor.position = 92 := by
    rw [jsonAt_eq, h]
    rfl
  have hletter : jsonAt data (cursor.position + 1) = 117 := by
    rw [jsonAt_add, h]
    rfl
  have hunit : jsonHex4 data (cursor.position + 2) = low := jsonHex4_unitText h hdigits
  simp only [jsonUnicodeEscapeScalar, hunit]
  rw [if_pos ⟨by omega, by omega, hslash, hletter⟩, if_pos ⟨by omega, by omega⟩]
  push_cast
  rw [Int.natCast_sub hhigh1, Int.natCast_sub hlow1]
  rfl

/-- A half that stands alone is read as the replacement character. -/
theorem scalar_lone (cursor : JsonCursor) (surrogate : ¬ unit.isValidChar) (small : unit < 65536)
    (alone : ¬ (IsHigh unit ∧ LowAhead (data.drop cursor.position))) :
    jsonUnicodeEscapeScalar data cursor unit = (cursor, 65533) := by
  rw [Nat.isValidChar] at surrogate
  have hsurrogate : 55296 ≤ (unit : Int) ∧ (unit : Int) ≤ 57343 := by omega
  simp only [jsonUnicodeEscapeScalar, if_pos hsurrogate]
  split
  next h =>
    obtain ⟨hhigh1, hhigh2, hslash, hletter⟩ := h
    split
    next hlow =>
      refine absurd ⟨⟨by omega, by omega⟩, ?_⟩ alone
      obtain ⟨digits, low, rest, htext, hdigits⟩ :=
        @unit_of_jsonHex4 data (cursor.position + 2) (by omega)
      have hvalue := jsonHex4_unit htext hdigits
      refine ⟨digits, low, rest, ?_, hdigits, by omega, by omega⟩
      rw [jsonAt_eq] at hslash
      rw [jsonAt_add] at hletter
      rw [← drop_drop] at htext
      generalize data.drop cursor.position = text at hslash hletter htext
      rcases text with _ | ⟨slash, _ | ⟨letter, text⟩⟩
      · cases hslash
      · cases hletter
      · cases hslash
        cases hletter
        rw [unitText, cons_append, cons_append, ← htext]
        rfl
    next => rfl
  next => rfl

theorem hexDigit?_lt {value : Nat} (h : hexDigit? byte = some value) : value < 16 := by
  have h57 : (57 : UInt8).toNat = 57 := rfl
  have h102 : (102 : UInt8).toNat = 102 := rfl
  have h70 : (70 : UInt8).toNat = 70 := rfl
  rw [hexDigit?] at h
  split at h
  next hd =>
    have := UInt8.le_iff_toNat_le.mp hd.2
    cases h
    omega
  split at h
  next hd =>
    have := UInt8.le_iff_toNat_le.mp hd.2
    cases h
    omega
  split at h
  next hd =>
    have := UInt8.le_iff_toNat_le.mp hd.2
    cases h
    omega
  next => cases h

theorem HexUnit.text_length (h : HexUnit digits unit) : (unitText digits).length = 6 :=
  congrArg (· + 2) h.length_eq

theorem HexUnit.small (h : HexUnit digits unit) : unit < 65536 := by
  cases h with
  | intro hw hx hy hz =>
    have := hexDigit?_lt hw
    have := hexDigit?_lt hx
    have := hexDigit?_lt hy
    have := hexDigit?_lt hz
    omega

end Units

/-! ## Characters -/

section Characters

variable {data rest out : Bytes} {position : Nat} {char : Char}

/-- The bytes appended for a code are its UTF-8 encoding. -/
theorem jsonPushUtf8_eq (out : Bytes) (char : Char) :
    jsonPushUtf8 out char.toNat = out ++ encode char := by
  have hvalid : char.toNat < 55296 ∨ 57343 < char.toNat ∧ char.toNat < 1114112 := char.valid
  have hval : char.val.toNat = char.toNat := rfl
  rw [jsonPushUtf8]
  split
  next h => rw [encode_ascii h]
  rename_i h1
  split
  next h2 =>
    rw [encode_two hval (by omega) (by omega), Nat.add_comm 192, Nat.add_comm 128,
      Nat.mod_eq_of_lt (show char.toNat / 64 < 32 by omega)]
  rename_i h2
  split
  next h3 =>
    rw [encode_three hval (by omega) (by omega), Nat.add_comm 224, Nat.add_comm 128,
      Nat.add_comm 128, Nat.mod_eq_of_lt (show char.toNat / 4096 < 16 by omega)]
  next h3 =>
    rw [encode_four hval (by omega), Nat.add_comm 240, Nat.add_comm 128, Nat.add_comm 128,
      Nat.add_comm 128, Nat.mod_eq_of_lt (show char.toNat / 262144 < 8 by omega)]

theorem jsonPushUtf8_charOf {code : Nat} (valid : code.isValidChar) :
    jsonPushUtf8 [] code = encode (charOf code valid) := by
  have hpush := jsonPushUtf8_eq [] (charOf code valid)
  rwa [show (charOf code valid).toNat = code from rfl, nil_append] at hpush

theorem jsonPushRawUtf8_eq {bytes : Bytes} (h : data.drop position = bytes ++ rest) (out : Bytes) :
    jsonPushRawUtf8 out data position bytes.length = out ++ bytes := by
  rw [jsonPushRawUtf8]
  congr 1
  refine ext_getElem (by simp) fun i hi hi' => ?_
  rw [getElem_map, getElem_range, jsonAt_add, h, getD_eq_getElem?_getD,
    getElem?_append_left hi', getElem?_eq_getElem hi', Option.getD_some]

theorem continuation_of_isTail {byte : UInt8} (h : IsTail byte) :
    jsonIsUtf8Continuation byte = true := by
  rw [jsonIsUtf8Continuation, decide_eq_true h.1, decide_eq_true h.2, Bool.true_and]

/-- The width found at a well-formed sequence is its length. -/
theorem jsonRawUtf8Width_sequence {bytes : Bytes} (h : data.drop position = bytes ++ rest)
    (hseq : IsSequence bytes) :
    jsonRawUtf8Width data position data.length = bytes.length := by
  have hremaining : data.length - position = bytes.length + rest.length := by
    rw [← length_drop, h, length_append]
  have above {low byte : UInt8} (k : UInt8) (hlow : low ≤ byte) (hk : k < low) : ¬ byte ≤ k :=
    UInt8.not_le.mpr (UInt8.lt_of_lt_of_le hk hlow)
  have plain {low byte : UInt8} (hlow : low ≤ byte) (hk : 128 ≤ low) : ¬ byte < 128 :=
    UInt8.not_lt.mpr (UInt8.le_trans hk hlow)
  simp only [jsonRawUtf8Width, hremaining, jsonAt_add, jsonAt_eq data position, h]
  cases hseq with
  | one ha => exact if_pos ha
  | two low high hb =>
    simp [plain low (by decide), low, high, continuation_of_isTail hb]
  | threeLow low high hc => simp [low, high, continuation_of_isTail hc]
  | @three a _ _ low high hne hb hc =>
    have around : a ≥ 225 ∧ a ≤ 236 ∨ a ≥ 238 ∧ a ≤ 239 := by
      rcases UInt8.le_total a 236 with below | far
      · exact .inl ⟨low, below⟩
      · rcases UInt8.le_total 238 a with far | near
        · exact .inr ⟨far, high⟩
        · grind
    have hlow : a ≠ 224 := fun same => above 224 low (by decide) (UInt8.le_of_eq same)
    simp [plain low (by decide), above 223 low (by decide), hlow, around, continuation_of_isTail hb,
      continuation_of_isTail hc]
  | threeSurrogate low high hc => simp [low, high, continuation_of_isTail hc]
  | fourLow low high hc hd =>
    simp [low, high, continuation_of_isTail hc, continuation_of_isTail hd]
  | @four a _ _ _ low high hb hc hd =>
    have apart (k : UInt8) (hk : k < 241) : a ≠ k :=
      fun same => above k low hk (UInt8.le_of_eq same)
    simp [plain low (by decide), above 223 low (by decide), above 236 low (by decide),
      above 239 low (by decide), apart 224 (by decide), apart 237 (by decide),
      apart 240 (by decide), low, high, continuation_of_isTail hb, continuation_of_isTail hc,
      continuation_of_isTail hd]
  | fourHigh low high hc hd =>
    simp [low, high, continuation_of_isTail hc, continuation_of_isTail hd]

theorem isTail_of_continuation {byte : UInt8} (h : jsonIsUtf8Continuation byte = true) :
    IsTail byte := by
  simpa [jsonIsUtf8Continuation, IsTail] using h

theorem exists_second {rest : Bytes} (h : 1 < rest.length + 1) : ∃ b after, rest = b :: after :=
  exists_cons_of_length_pos (by omega)

theorem exists_third {rest : Bytes} (h : 2 < rest.length + 1) :
    ∃ b c after, rest = b :: c :: after := by
  obtain ⟨b, after, rfl⟩ := exists_second (by omega : 1 < rest.length + 1)
  rw [length_cons] at h
  obtain ⟨c, after, rfl⟩ := exists_second (by omega : 1 < after.length + 1)
  exact ⟨b, c, after, rfl⟩

theorem exists_fourth {rest : Bytes} (h : 3 < rest.length + 1) :
    ∃ b c d after, rest = b :: c :: d :: after := by
  obtain ⟨b, after, rfl⟩ := exists_second (by omega : 1 < rest.length + 1)
  rw [length_cons] at h
  obtain ⟨c, d, after, rfl⟩ := exists_third (by omega : 2 < after.length + 1)
  exact ⟨b, c, d, after, rfl⟩

/-- A width is found at well-formed sequences only. -/
theorem sequence_of_jsonRawUtf8Width {byte : UInt8} (h : data.drop position = byte :: rest)
    (width : jsonRawUtf8Width data position data.length ≠ 0) :
    ∃ bytes, IsSequence bytes ∧ bytes <+: byte :: rest := by
  have hremaining : data.length - position = rest.length + 1 := by
    rw [← length_drop, h, length_cons]
  simp only [jsonRawUtf8Width, hremaining, jsonAt_add, jsonAt_eq data position, h,
    getD_cons_zero] at width
  rcases Decidable.em (byte < 128) with hone | hone
  · exact ⟨[byte], .one hone, ⟨rest, rfl⟩⟩
  rw [if_neg hone] at width
  rcases Decidable.em (194 ≤ byte ∧ byte ≤ 223) with htwo | htwo
  · rw [if_pos htwo] at width
    obtain ⟨hlong, hb⟩ := (ite_ne_right_iff.mp width).1
    obtain ⟨b, after, rfl⟩ := exists_second hlong
    exact ⟨[byte, b], .two htwo.1 htwo.2 (isTail_of_continuation hb), ⟨after, rfl⟩⟩
  rw [if_neg htwo] at width
  rcases eq_or_ne byte 224 with rfl | hlow
  · rw [if_pos rfl] at width
    obtain ⟨hlong, h160, h191, hc⟩ := (ite_ne_right_iff.mp width).1
    obtain ⟨b, c, after, rfl⟩ := exists_third hlong
    exact ⟨[224, b, c], .threeLow h160 h191 (isTail_of_continuation hc), ⟨after, rfl⟩⟩
  rw [if_neg hlow] at width
  rcases Decidable.em (byte ≥ 225 ∧ byte ≤ 236 ∨ byte ≥ 238 ∧ byte ≤ 239) with hthree | hthree
  · rw [if_pos hthree] at width
    obtain ⟨hlong, hb, hc⟩ := (ite_ne_right_iff.mp width).1
    obtain ⟨b, c, after, rfl⟩ := exists_third hlong
    have hlow : 225 ≤ byte := hthree.elim And.left fun h => UInt8.le_trans (by decide) h.1
    have hhigh : byte ≤ 239 := hthree.elim (fun h => UInt8.le_trans h.2 (by decide)) And.right
    have hne : byte ≠ 237 := by
      rintro rfl
      exact absurd hthree (by decide)
    exact ⟨[byte, b, c], .three hlow hhigh hne (isTail_of_continuation hb)
      (isTail_of_continuation hc), ⟨after, rfl⟩⟩
  rw [if_neg hthree] at width
  rcases eq_or_ne byte 237 with rfl | hsurrogate
  · rw [if_pos rfl] at width
    obtain ⟨hlong, h128, h159, hc⟩ := (ite_ne_right_iff.mp width).1
    obtain ⟨b, c, after, rfl⟩ := exists_third hlong
    exact ⟨[237, b, c], .threeSurrogate h128 h159 (isTail_of_continuation hc), ⟨after, rfl⟩⟩
  rw [if_neg hsurrogate] at width
  rcases eq_or_ne byte 240 with rfl | hfourLow
  · rw [if_pos rfl] at width
    obtain ⟨hlong, h144, h191, hc, hd⟩ := (ite_ne_right_iff.mp width).1
    obtain ⟨b, c, d, after, rfl⟩ := exists_fourth hlong
    exact ⟨[240, b, c, d], .fourLow h144 h191 (isTail_of_continuation hc)
      (isTail_of_continuation hd), ⟨after, rfl⟩⟩
  rw [if_neg hfourLow] at width
  rcases Decidable.em (byte ≥ 241 ∧ byte ≤ 243) with hfour | hfour
  · rw [if_pos hfour] at width
    obtain ⟨hlong, hb, hc, hd⟩ := (ite_ne_right_iff.mp width).1
    obtain ⟨b, c, d, after, rfl⟩ := exists_fourth hlong
    exact ⟨[byte, b, c, d], .four hfour.1 hfour.2 (isTail_of_continuation hb)
      (isTail_of_continuation hc) (isTail_of_continuation hd), ⟨after, rfl⟩⟩
  rw [if_neg hfour] at width
  obtain ⟨rfl, hwidth⟩ := ite_ne_right_iff.mp width
  obtain ⟨hlong, h128, h143, hc, hd⟩ := (ite_ne_right_iff.mp hwidth).1
  obtain ⟨b, c, d, after, rfl⟩ := exists_fourth hlong
  exact ⟨[244, b, c, d], .fourHigh h128 h143 (isTail_of_continuation hc)
    (isTail_of_continuation hd), ⟨after, rfl⟩⟩

end Characters

/-! ## One step of a decoder -/

/-- What a decoder does at a position: it ends, it fails, or it appends bytes and goes on. -/
inductive DecodeStep where
  | close
  | fail (cursor : JsonCursor)
  | push (cursor : JsonCursor) (bytes : Bytes)

/-- A loop that goes on with such a step. -/
def DecodeStep.run {Result : Type} (close : Result) (fail : JsonCursor → Result)
    (push : JsonCursor → Bytes → Result) : DecodeStep → Result
  | .close => close
  | .fail cursor => fail cursor
  | .push cursor bytes => push cursor bytes

def decodeStep (data : Bytes) (cursor : JsonCursor) : DecodeStep :=
  if cursor.position < data.length then
    let byte := jsonAt data cursor.position
    if byte = 34 then .close
    else if byte ≠ 92 then
      if byte < 32 then .fail cursor.fail
      else if byte < 128 then .push (cursor.advance 1) [byte]
      else
        let width := jsonRawUtf8Width data cursor.position data.length
        if width = 0 then .push (cursor.advance 1) (jsonPushUtf8 [] 65533)
        else .push (cursor.advance width) (jsonPushRawUtf8 [] data cursor.position width)
    else
      let escape := jsonAt data (cursor.position + 1)
      let behind := cursor.advance 2
      if escape = 34 ∨ escape = 92 ∨ escape = 47 then .push behind [escape]
      else if escape = 98 then .push behind [8]
      else if escape = 102 then .push behind [12]
      else if escape = 110 then .push behind [10]
      else if escape = 114 then .push behind [13]
      else if escape = 116 then .push behind [9]
      else if escape = 117 then
        let first := jsonHex4 data behind.position
        if first < 0 then .fail behind.fail
        else
          let scalar := jsonUnicodeEscapeScalar data (behind.advance 4) first
          .push scalar.1 (jsonPushUtf8 [] scalar.2.toNat)
      else .fail behind.fail
  else .fail cursor.fail

section Steps

variable {data : Bytes}

theorem jsonPushUtf8_nil (out : Bytes) (code : Nat) :
    jsonPushUtf8 out code = out ++ jsonPushUtf8 [] code := by
  simp only [jsonPushUtf8]
  split_ifs <;> rfl

theorem jsonPushRawUtf8_nil (out : Bytes) (position width : Nat) :
    jsonPushRawUtf8 out data position width = out ++ jsonPushRawUtf8 [] data position width := rfl

/-- The loop over a string goes on as the step says. -/
theorem parseStringLoop_step (cursor : JsonCursor) (out : Bytes) :
    parseStringLoop data cursor out = (decodeStep data cursor).run (cursor.advance 1, out)
      (fun cursor => (cursor, out)) fun cursor bytes =>
        parseStringLoop data cursor (out ++ bytes) := by
  rw [parseStringLoop, decodeStep]
  simp only [apply_ite (DecodeStep.run _ _ _)]
  simp only [DecodeStep.run, ← jsonPushUtf8_nil, ← jsonPushRawUtf8_nil]

theorem pushStringLoop_step (entryStart : Nat) (cursor : JsonCursor) (list : StrList) :
    pushStringLoop data entryStart cursor list = (decodeStep data cursor).run
      (cursor.advance 1,
        { list with
          starts := list.starts ++ [entryStart]
          lengths := list.lengths ++ [list.data.length - entryStart] })
      (fun cursor => (cursor, list))
      fun cursor bytes =>
        pushStringLoop data entryStart cursor { list with data := list.data ++ bytes } := by
  rw [pushStringLoop, decodeStep]
  simp only [apply_ite (DecodeStep.run _ _ _)]
  simp only [DecodeStep.run, ← jsonPushUtf8_nil, ← jsonPushRawUtf8_nil]

variable {rest : Bytes} {position : Nat} {byte letter : UInt8} {char : Char}

theorem decodeStep_over (h : data.drop position = []) :
    decodeStep data ⟨position, true⟩ = .fail ⟨position, false⟩ := by
  have hle : data.length ≤ position := drop_eq_nil_iff.mp h
  exact if_neg (Nat.not_lt.mpr hle)

theorem decodeStep_close (h : data.drop position = 34 :: rest) :
    decodeStep data ⟨position, true⟩ = .close := by
  rw [decodeStep, if_pos (drop_cons h)]
  simp only [jsonAt_eq data position, h]
  rfl

theorem decodeStep_byte (h : data.drop position = byte :: rest) (quote : byte ≠ 34)
    (slash : byte ≠ 92) : decodeStep data ⟨position, true⟩ =
      if byte < 32 then .fail ⟨position, false⟩
      else if byte < 128 then .push ⟨position + 1, true⟩ [byte]
      else
        let width := jsonRawUtf8Width data position data.length
        if width = 0 then .push ⟨position + 1, true⟩ (jsonPushUtf8 [] 65533)
        else .push ⟨position + width, true⟩ (jsonPushRawUtf8 [] data position width) := by
  have hbyte : jsonAt data position = byte := by
    rw [jsonAt_eq, h]
    rfl
  rw [decodeStep, if_pos (drop_cons h)]
  simp only [hbyte]
  rw [if_neg quote, if_pos slash]
  rfl

theorem decodeStep_slash (h : data.drop position = 92 :: rest) :
    decodeStep data ⟨position, true⟩ =
      let escape := rest.getD 0 0
      let behind : JsonCursor := ⟨position + 2, true⟩
      if escape = 34 ∨ escape = 92 ∨ escape = 47 then .push behind [escape]
      else if escape = 98 then .push behind [8]
      else if escape = 102 then .push behind [12]
      else if escape = 110 then .push behind [10]
      else if escape = 114 then .push behind [13]
      else if escape = 116 then .push behind [9]
      else if escape = 117 then
        let first := jsonHex4 data (position + 2)
        if first < 0 then .fail ⟨position + 2, false⟩
        else
          let scalar := jsonUnicodeEscapeScalar data ⟨position + 6, true⟩ first
          .push scalar.1 (jsonPushUtf8 [] scalar.2.toNat)
      else .fail ⟨position + 2, false⟩ := by
  have hbyte : jsonAt data position = 92 := by
    rw [jsonAt_eq, h]
    rfl
  have hescape : jsonAt data (position + 1) = rest.getD 0 0 := by
    rw [jsonAt_add, h]
    rfl
  rw [decodeStep, if_pos (drop_cons h)]
  simp only [hbyte, hescape]
  rfl

theorem decodeStep_escape (h : data.drop position = 92 :: letter :: rest)
    (hletter : escapeChar letter = some char) :
    decodeStep data ⟨position, true⟩ = .push ⟨position + 2, true⟩ (encode char) := by
  rw [decodeStep_slash h]
  clear h
  apply escapeChar_cases hletter <;> rfl

theorem decodeStep_unit {digits : Bytes} {unit : Nat}
    (h : data.drop position = unitText digits ++ rest) (hdigits : HexUnit digits unit) :
    decodeStep data ⟨position, true⟩ =
      let scalar := jsonUnicodeEscapeScalar data ⟨position + 6, true⟩ unit
      .push scalar.1 (jsonPushUtf8 [] scalar.2.toNat) := by
  have hfirst : jsonHex4 data (position + 2) = unit := jsonHex4_unitText h hdigits
  have hnonneg : ¬ (unit : Int) < 0 := Int.not_lt.mpr (Int.natCast_nonneg unit)
  have hslash : data.drop position = 92 :: 117 :: (digits ++ rest) := h
  rw [decodeStep_slash hslash]
  simp only [hfirst, getD_cons_zero]
  rw [if_neg (by decide), if_neg (by decide), if_neg (by decide), if_neg (by decide),
    if_neg (by decide), if_neg (by decide), if_pos trivial, if_neg hnonneg]

theorem HexUnit.drop_text {digits : Bytes} {unit : Nat} (hdigits : HexUnit digits unit)
    (h : data.drop position = unitText digits ++ rest) : data.drop (position + 6) = rest := by
  rw [← hdigits.text_length]
  exact drop_append h

/-- No byte of a character that needs no escape ends a string, escapes or is a control. -/
theorem encode_plain (printable : 32 ≤ char.toNat) (hquote : char ≠ '"') (hslash : char ≠ '\\') :
    ∀ byte ∈ encode char, byte ≠ 34 ∧ byte ≠ 92 ∧ ¬ byte < 32 := by
  intro byte hbyte
  rcases Nat.lt_or_ge char.toNat 128 with hlt | hge
  · rw [encode_ascii hlt, mem_singleton] at hbyte
    have hval : byte.toNat = char.toNat := by
      rw [hbyte, UInt8.toNat_ofNat', Nat.mod_eq_of_lt (by omega)]
    refine ⟨?_, ?_, ?_⟩
    · rintro rfl
      exact hquote (Char.toNat_inj.mp hval.symm)
    · rintro rfl
      exact hslash (Char.toNat_inj.mp hval.symm)
    · rw [UInt8.lt_iff_toNat_lt, hval]
      exact Nat.not_lt.mpr printable
  · have hhigh := encode_high hge byte hbyte
    exact ⟨by grind, by grind, by grind⟩

/-- One step reads one item of a string, and appends its character. -/
theorem decodeStep_item {next : Nat} (hle : position ≤ next) (hinside : next ≤ data.length)
    (h : Item (data.drop position) char (data.drop next)) :
    decodeStep data ⟨position, true⟩ = .push ⟨next, true⟩ (encode char) := by
  generalize htext : data.drop position = text at h
  generalize hrest : data.drop next = rest at h
  have hnext (bytes : Bytes) (h : data.drop position = bytes ++ rest) :
      next = position + bytes.length := next_eq hle hinside (h.trans (by rw [hrest]))
  cases h with
  | char char rest printable hquote hslash =>
    have plain := encode_plain printable hquote hslash
    rcases Nat.lt_or_ge char.toNat 128 with hlt | hge
    · have heq := hnext _ htext
      rw [encode_ascii hlt] at htext heq plain ⊢
      obtain ⟨quote, slash, hlow⟩ := plain _ mem_cons_self
      have hascii : UInt8.ofNat char.toNat < 128 := by
        rw [UInt8.lt_iff_toNat_lt, UInt8.toNat_ofNat', Nat.mod_eq_of_lt (by omega)]
        exact hlt
      rw [decodeStep_byte htext quote slash, if_neg hlow, if_pos hascii, heq]
      rfl
    · have hhigh := encode_high hge
      have hwidth := jsonRawUtf8Width_sequence htext (isSequence_encode char)
      have hpush := jsonPushRawUtf8_eq htext []
      rw [hnext _ htext]
      cases hbytes : encode char with
      | nil => exact absurd hbytes (encode_ne_nil char)
      | cons byte bytes =>
        rw [hbytes] at htext hhigh hwidth hpush plain
        obtain ⟨quote, slash, hlow⟩ := plain byte mem_cons_self
        have h128 : 128 ≤ byte := hhigh byte mem_cons_self
        rw [decodeStep_byte htext quote slash, if_neg hlow, if_neg (by grind)]
        simp only [hwidth]
        rw [if_neg (by simp), hpush, nil_append]
  | malformed byte rest hhigh hnone =>
    have hwidth : jsonRawUtf8Width data position data.length = 0 := by
      by_contra hwidth
      obtain ⟨bytes, hseq, hprefix⟩ := sequence_of_jsonRawUtf8Width htext hwidth
      obtain ⟨char, rfl⟩ := hseq.exists_char
      exact hnone char hprefix
    rw [decodeStep_byte htext (by grind) (by grind), if_neg (by grind), if_neg (by grind),
      hnext [byte] htext]
    simp only [hwidth]
    rfl
  | @escape letter char rest hletter =>
    rw [decodeStep_escape htext hletter, hnext [92, letter] htext]
    rfl
  | @unit digits unit rest valid hdigits =>
    have hlength := hdigits.text_length
    rw [decodeStep_unit htext hdigits, hnext _ htext, hlength]
    simp only [scalar_valid _ valid, Int.toNat_natCast]
    rw [jsonPushUtf8_charOf valid]
  | @pair highDigits lowDigits high low rest hhigh hlow hhighDigits hlowDigits =>
    have hlength := hhighDigits.text_length
    have hlength' := hlowDigits.text_length
    have heq := hnext (unitText highDigits ++ unitText lowDigits) (by rw [htext, append_assoc])
    rw [length_append, hlength, hlength'] at heq
    rw [decodeStep_unit htext hhighDigits, heq]
    simp only [scalar_pair ⟨position + 6, true⟩ hhigh hlow (hhighDigits.drop_text htext) hlowDigits,
      Int.toNat_natCast]
    rw [jsonPushUtf8_charOf (pair_isValid hhigh hlow)]
    rfl
  | @lone digits unit rest hdigits surrogate alone =>
    have hlength := hdigits.text_length
    rw [decodeStep_unit htext hdigits, hnext _ htext, hlength]
    simp only [scalar_lone ⟨position + 6, true⟩ surrogate hdigits.small
      (by rw [hdigits.drop_text htext]; exact alone)]
    rfl

/-- A step fails where no item stands. -/
theorem decodeStep_refused (h : Refused (data.drop position)) :
    ∃ final, decodeStep data ⟨position, true⟩ = .fail ⟨final, false⟩ := by
  generalize htext : data.drop position = text at h
  cases h with
  | control rest hcontrol =>
    rw [decodeStep_byte htext (by grind) (by grind), if_pos hcontrol]
    exact ⟨_, rfl⟩
  | short =>
    rw [decodeStep_slash htext]
    exact ⟨_, rfl⟩
  | @escape letter rest hnone hunit =>
    rw [decodeStep_slash htext]
    obtain ⟨h34, h92, h47, h98, h102, h110, h114, h116⟩ := escapeChar_none hnone
    simp only [getD_cons_zero]
    rw [if_neg (by simp [h34, h92, h47]), if_neg h98, if_neg h102, if_neg h110, if_neg h114,
      if_neg h116, if_neg hunit]
    exact ⟨_, rfl⟩
  | unit rest hnone =>
    have hneg : jsonHex4 data (position + 2) < 0 := jsonHex4_refused htext hnone
    rw [decodeStep_slash htext]
    simp only [getD_cons_zero, hneg, if_true]
    exact ⟨_, rfl⟩

end Steps

end Elisa.ProjectSystem.Json
