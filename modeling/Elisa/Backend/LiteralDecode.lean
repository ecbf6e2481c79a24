import Mathlib.Tactic.Linarith
import Mathlib.Tactic.Positivity
import Elisa.Bytes

/-!
# Source literals

A string literal reaches the backend with its escapes as written.  `decodeStringEscapes`
(`codegen_literals_decode.elisa`) turns them into bytes; `decodedLiteralByteCount` counts the same
bytes without making them, for folders that must not allocate, and has to agree with the first.

Both are loops over an index; `decodeEscape` and `countEscape` are their bodies.
-/

namespace Elisa.Backend

def byteAt (text : Bytes) (index : Nat) : UInt8 := text.getD index 0

/-! ## Escapes -/

def hexDigitValue (byte : UInt8) : Int :=
  if 48 ≤ byte ∧ byte ≤ 57 then byte.toNat - 48
  else if 97 ≤ byte ∧ byte ≤ 102 then byte.toNat - 97 + 10
  else if 65 ≤ byte ∧ byte ≤ 70 then byte.toNat - 65 + 10
  else -1

/-- The rest of a number of hexadecimal digits, behind a value, or -1. -/
def hexEscapeFrom (text : Bytes) (value : Int) (index : Nat) : Nat → Int
  | 0 => value
  | digits + 1 =>
    let digit := hexDigitValue (byteAt text index)
    if digit < 0 then -1 else hexEscapeFrom text (value * 16 + digit) (index + 1) digits

def hexEscapeValue (text : Bytes) (start digits : Nat) : Int := hexEscapeFrom text 0 start digits

def utf16SurrogatePairCodepoint (text : Bytes) (lowEscapeStart : Nat) (high : Int) : Int :=
  let remaining := text.length - lowEscapeStart
  if remaining < 6 ∨ byteAt text lowEscapeStart ≠ 92 ∨
    byteAt text (lowEscapeStart + 1) ≠ 117 then -1
  else
    let low := hexEscapeValue text (lowEscapeStart + 2) 4
    if low < 56320 ∨ low > 57343 then -1
    else 65536 + (high - 55296) * 1024 + (low - 56320)

def lowByte (value : Int) : UInt8 := UInt8.ofNat (value % 256).toNat

/-- The UTF-8 encoding of a scalar, as it is appended. -/
def pushUtf8 (codepoint : Int) : Bytes :=
  if codepoint < 128 then [lowByte codepoint]
  else if codepoint < 2048 then [lowByte (192 + codepoint / 64), lowByte (128 + codepoint % 64)]
  else if codepoint < 65536 then
    [lowByte (224 + codepoint / 4096), lowByte (128 + codepoint / 64 % 64),
      lowByte (128 + codepoint % 64)]
  else
    [lowByte (240 + codepoint / 262144), lowByte (128 + codepoint / 4096 % 64),
      lowByte (128 + codepoint / 64 % 64), lowByte (128 + codepoint % 64)]

def knownEscape (byte : UInt8) : Bool :=
  byte == 110 || byte == 116 || byte == 114 || byte == 48 || byte == 92 || byte == 34 || byte == 39

def decodedEscape (byte : UInt8) : UInt8 :=
  if byte = 110 then 10 else if byte = 116 then 9 else if byte = 114 then 13
  else if byte = 48 then 0 else byte

/-! ## Decoding -/

/-- What one round of the decoder appends, where it goes on, and whether it knew the escape. -/
structure Decoded where
  bytes : Bytes
  next : Nat
  known : Bool
  deriving DecidableEq

/-- A piece of the text that stays as it is. -/
def Decoded.verbatim (text : Bytes) (index next : Nat) : Decoded :=
  { bytes := (text.take next).drop index, next := next, known := false }

def decodeEscape (text : Bytes) (index : Nat) : Decoded :=
  let byte := byteAt text index
  if byte ≠ 92 ∨ text.length - index ≤ 1 then { bytes := [byte], next := index + 1, known := true }
  else
    let nextIndex := index + 1
    let nextByte := byteAt text nextIndex
    if nextByte = 120 ∨ nextByte = 117 then
      let hexDigits := if nextByte = 120 then 2 else 4
      let hexStart := nextIndex + 1
      let hexValue :=
        if hexDigits ≤ text.length - hexStart then
          if hexStart ≤ text.length ∧ hexDigits ≤ text.length - hexStart then
            hexEscapeValue text hexStart hexDigits
          else -1
        else -1
      if 0 ≤ hexValue then
        if nextByte = 117 ∧ 55296 ≤ hexValue ∧ hexValue ≤ 56319 then
          let lowEscapeStart := hexStart + hexDigits
          if lowEscapeStart ≤ text.length then
            let pairCodepoint := utf16SurrogatePairCodepoint text lowEscapeStart hexValue
            if 0 ≤ pairCodepoint then
              { bytes := pushUtf8 pairCodepoint, next := lowEscapeStart + 6, known := true }
            else .verbatim text index lowEscapeStart
          else .verbatim text index text.length
        else if nextByte = 117 ∧ 56320 ≤ hexValue ∧ hexValue ≤ 57343 then
          .verbatim text index (hexStart + hexDigits)
        else
          { bytes := if nextByte = 117 then pushUtf8 hexValue else [lowByte hexValue]
            next := hexStart + hexDigits
            known := true }
      else { bytes := [byte], next := index + 1, known := false }
    else if !knownEscape nextByte then { bytes := [byte], next := index + 1, known := false }
    else { bytes := [decodedEscape nextByte], next := nextIndex + 1, known := true }

theorem lt_next_decodeEscape {text : Bytes} {index : Nat} (within : index < text.length) :
    index < (decodeEscape text index).next := by
  unfold decodeEscape
  dsimp only
  generalize byteAt text (index + 1) = nextByte
  generalize (if nextByte = 120 then 2 else 4) = digits
  generalize (if digits ≤ text.length - (index + 1 + 1) then _ else (-1 : Int)) = value
  generalize utf16SurrogatePairCodepoint text (index + 1 + 1 + digits) value = pair
  repeat' split
  all_goals
    try unfold Decoded.verbatim
    dsimp only
    omega

def decodeFrom (text : Bytes) (index : Nat) (storage : Bytes) (allKnown : Bool) : Bytes × Bool :=
  if _h : index < text.length then
    let decoded := decodeEscape text index
    decodeFrom text decoded.next (storage ++ decoded.bytes) (allKnown && decoded.known)
  else (storage, allKnown)
termination_by text.length - index
decreasing_by
  have further := lt_next_decodeEscape _h
  omega

def decodeStringEscapes (text : Bytes) : Bytes × Bool := decodeFrom text 0 [] true

/-! ## Counting -/

/-- How a round of the count ends: with the result, or with a count and the place to go on. -/
inductive Counted where
  | result (value : Int)
  | on (count : Int) (next : Nat)
  deriving DecidableEq

/-- One round of `decoded_literal_byte_count`. -/
def countEscape (text : Bytes) (stopAtNul : Bool) (index : Nat) (count : Int) : Counted :=
  let byte := byteAt text index
  if byte ≠ 92 ∨ text.length - index ≤ 1 then
    if stopAtNul ∧ byte = 0 then .result count else .on (count + 1) (index + 1)
  else
    let nextIndex := index + 1
    let nextByte := byteAt text nextIndex
    if nextByte = 120 ∨ nextByte = 117 then
      let hexDigits := if nextByte = 120 then 2 else 4
      let hexStart := nextIndex + 1
      if hexStart > text.length then .result (-1)
      else if hexDigits > text.length - hexStart then .result (-1)
      else
        let hexValue := hexEscapeValue text hexStart hexDigits
        if hexValue < 0 then .result (-1)
        else if nextByte = 117 ∧ 55296 ≤ hexValue ∧ hexValue ≤ 56319 then
          let lowEscapeStart := hexStart + hexDigits
          if lowEscapeStart > text.length then .result (-1)
          else
            let pairCodepoint := utf16SurrogatePairCodepoint text lowEscapeStart hexValue
            if pairCodepoint < 0 then .result (-1)
            else if stopAtNul ∧ pairCodepoint = 0 then .result count
            else .on (count + 4) (lowEscapeStart + 6)
        else if nextByte = 117 ∧ 56320 ≤ hexValue ∧ hexValue ≤ 57343 then .result (-1)
        else if stopAtNul ∧ hexValue = 0 then .result count
        else
          let width := if nextByte = 120 ∨ hexValue < 128 then 1
            else if hexValue < 2048 then 2 else 3
          .on (count + width) (hexStart + hexDigits)
    else if !knownEscape nextByte then .result (-1)
    else if stopAtNul ∧ nextByte = 48 then .result count
    else .on (count + 1) (nextIndex + 1)

/-! ## One round of both -/

theorem hexDigitValue_lt (byte : UInt8) : hexDigitValue byte < 16 := by
  have all : ∀ value < 256, hexDigitValue (UInt8.ofNat value) < 16 := by decide +kernel
  simpa using all byte.toNat byte.toNat_lt_size

theorem hexEscapeFrom_lt {text : Bytes} {value : Int} {index digits : Nat} {bound : Int}
    (nonneg : 0 ≤ value) (small : value < bound) :
    hexEscapeFrom text value index digits < bound * 16 ^ digits := by
  induction digits generalizing value index bound with
  | zero => simpa [hexEscapeFrom] using small
  | succ digits ih =>
    rw [hexEscapeFrom]
    split
    next =>
      have nonneg : 0 ≤ bound * 16 ^ (digits + 1) := mul_nonneg (by omega) (by positivity)
      omega
    rename_i digit
    have below := hexDigitValue_lt (byteAt text index)
    have rest := @ih (value * 16 + hexDigitValue (byteAt text index)) (index + 1) (bound * 16)
      (by omega) (by omega)
    rw [pow_succ]
    linarith

theorem hexEscapeValue_lt (text : Bytes) (start digits : Nat) :
    hexEscapeValue text start digits < 16 ^ digits := by
  have bounded := @hexEscapeFrom_lt text 0 start digits 1 le_rfl (by decide)
  rwa [one_mul] at bounded

theorem utf16SurrogatePairCodepoint_bounds {text : Bytes} {start : Nat} {high : Int}
    (surrogate : 55296 ≤ high ∧ high ≤ 56319)
    (pair : 0 ≤ utf16SurrogatePairCodepoint text start high) :
    65536 ≤ utf16SurrogatePairCodepoint text start high ∧
      utf16SurrogatePairCodepoint text start high < 1114112 := by
  unfold utf16SurrogatePairCodepoint at pair ⊢
  dsimp only at pair ⊢
  split_ifs at pair ⊢ with missing low
  · omega
  · omega
  · omega

theorem lowByte_ne_zero {v : Int} (positive : 0 < v) (small : v < 256) :
    lowByte v ≠ 0 := by
  intro zero
  have same := congrArg UInt8.toNat zero
  rw [lowByte, UInt8.toNat_ofNat'] at same
  simp only [UInt8.toNat_zero] at same
  omega

theorem pushUtf8_spec {codepoint : Int} (nonneg : 0 ≤ codepoint) (scalar : codepoint < 1114112) :
    ((pushUtf8 codepoint).length : Int) =
      (if codepoint < 128 then 1 else if codepoint < 2048 then 2
        else if codepoint < 65536 then 3 else 4) ∧
    (codepoint ≠ 0 → 0 ∉ pushUtf8 codepoint) := by
  unfold pushUtf8
  split_ifs with one two three
  · refine ⟨rfl, fun some => ?_⟩
    simpa using (lowByte_ne_zero (by omega) (by omega)).symm
  · refine ⟨rfl, fun _ => ?_⟩
    have first := lowByte_ne_zero (v := 192 + codepoint / 64) (by omega) (by omega)
    have last := lowByte_ne_zero (v := 128 + codepoint % 64) (by omega) (by omega)
    simp only [List.mem_cons, List.not_mem_nil, or_false, not_or]
    exact ⟨first.symm, last.symm⟩
  · refine ⟨rfl, fun _ => ?_⟩
    have first := lowByte_ne_zero (v := 224 + codepoint / 4096) (by omega) (by omega)
    have second := lowByte_ne_zero (v := 128 + codepoint / 64 % 64) (by omega) (by omega)
    have last := lowByte_ne_zero (v := 128 + codepoint % 64) (by omega) (by omega)
    simp only [List.mem_cons, List.not_mem_nil, or_false, not_or]
    exact ⟨first.symm, second.symm, last.symm⟩
  · refine ⟨rfl, fun _ => ?_⟩
    have first := lowByte_ne_zero (v := 240 + codepoint / 262144) (by omega) (by omega)
    have second := lowByte_ne_zero (v := 128 + codepoint / 4096 % 64) (by omega) (by omega)
    have third := lowByte_ne_zero (v := 128 + codepoint / 64 % 64) (by omega) (by omega)
    have last := lowByte_ne_zero (v := 128 + codepoint % 64) (by omega) (by omega)
    simp only [List.mem_cons, List.not_mem_nil, or_false, not_or]
    exact ⟨first.symm, second.symm, third.symm, last.symm⟩

/-- What a round of the count says about the round of the decoder at the same place. -/
def Counted.Agrees (stopAtNul : Bool) (count : Int) (decoded : Decoded) : Counted → Prop
  | .result value => value = -1 ∧ decoded.known = false ∨
      stopAtNul = true ∧ value = count ∧ decoded.bytes.head? = some 0
  | .on after next => decoded.known = true ∧ next = decoded.next ∧
      after = count + decoded.bytes.length ∧ (stopAtNul = true → 0 ∉ decoded.bytes)

section Rounds

variable {text : Bytes} {stopAtNul : Bool} {index : Nat} {count : Int}

theorem agrees_byte {byte : UInt8} {next : Nat} {stops : Prop} [Decidable stops]
    (zero : stops ↔ stopAtNul = true ∧ byte = 0) :
    Counted.Agrees stopAtNul count { bytes := [byte], next := next, known := true }
      (if stops then .result count else .on (count + 1) next) := by
  split
  next stop =>
    rw [zero] at stop
    exact .inr ⟨stop.1, rfl, by simp [stop.2]⟩
  next going =>
    rw [zero, not_and] at going
    exact ⟨rfl, rfl, rfl, fun stop => by simpa using Ne.symm (going stop)⟩

theorem agrees_hex {nextByte byte : UInt8} {digits start : Nat}
    (hex : nextByte = 120 ∨ nextByte = 117) (digits_eq : (if nextByte = 120 then 2 else 4) = digits)
    (fits : digits ≤ text.length - start) :
    let value := hexEscapeValue text start digits
    Counted.Agrees stopAtNul count
      (if 0 ≤ value then
        if nextByte = 117 ∧ 55296 ≤ value ∧ value ≤ 56319 then
          if start + digits ≤ text.length then
            if 0 ≤ utf16SurrogatePairCodepoint text (start + digits) value then
              { bytes := pushUtf8 (utf16SurrogatePairCodepoint text (start + digits) value)
                next := start + digits + 6, known := true }
            else .verbatim text index (start + digits)
          else .verbatim text index text.length
        else if nextByte = 117 ∧ 56320 ≤ value ∧ value ≤ 57343 then
          .verbatim text index (start + digits)
        else
          { bytes := if nextByte = 117 then pushUtf8 value else [lowByte value]
            next := start + digits
            known := true }
      else { bytes := [byte], next := index + 1, known := false })
      (if value < 0 then .result (-1)
      else if nextByte = 117 ∧ 55296 ≤ value ∧ value ≤ 56319 then
        if start + digits > text.length then .result (-1)
        else if utf16SurrogatePairCodepoint text (start + digits) value < 0 then .result (-1)
        else if stopAtNul ∧ utf16SurrogatePairCodepoint text (start + digits) value = 0 then
          .result count
        else .on (count + 4) (start + digits + 6)
      else if nextByte = 117 ∧ 56320 ≤ value ∧ value ≤ 57343 then .result (-1)
      else if stopAtNul ∧ value = 0 then .result count
      else
        .on (count + if nextByte = 120 ∨ value < 128 then 1 else if value < 2048 then 2 else 3)
          (start + digits)) := by
  intro value
  have small : value < 16 ^ digits := hexEscapeValue_lt text start digits
  by_cases negative : value < 0
  · rw [if_neg (not_le.2 negative), if_pos negative]
    exact .inl ⟨rfl, rfl⟩
  rw [if_pos (not_lt.1 negative), if_neg negative]
  by_cases high : nextByte = 117 ∧ 55296 ≤ value ∧ value ≤ 56319
  · rw [if_pos high, if_pos high]
    split
    next within =>
      rw [if_neg (not_lt.2 within)]
      by_cases pair : utf16SurrogatePairCodepoint text (start + digits) value < 0
      · rw [if_neg (not_le.2 pair), if_pos pair]
        exact .inl ⟨rfl, rfl⟩
      have bounds := utf16SurrogatePairCodepoint_bounds high.2 (not_lt.1 pair)
      rw [if_pos (not_lt.1 pair), if_neg pair, if_neg (by omega)]
      obtain ⟨width, zero⟩ := pushUtf8_spec (not_lt.1 pair) bounds.2
      refine ⟨rfl, rfl, ?_, fun _ => zero (by omega)⟩
      rw [width, if_neg (by omega), if_neg (by omega), if_neg (by omega)]
    next beyond =>
      rw [if_pos (not_le.1 beyond)]
      exact .inl ⟨rfl, rfl⟩
  rw [if_neg high, if_neg high]
  by_cases low : nextByte = 117 ∧ 56320 ≤ value ∧ value ≤ 57343
  · rw [if_pos low, if_pos low]
    exact .inl ⟨rfl, rfl⟩
  rw [if_neg low, if_neg low]
  rcases hex with rfl | rfl
  · -- a byte of two digits
    obtain rfl : 2 = digits := by simpa using digits_eq
    have byte : lowByte value = 0 ↔ value = 0 := by
      constructor
      · intro zero
        by_contra some
        exact lowByte_ne_zero (by omega) (by omega) zero
      · intro zero
        rw [zero]
        rfl
    have agrees := @agrees_byte stopAtNul count (lowByte value) (start + 2)
      (stopAtNul = true ∧ value = 0) _ (by rw [byte])
    simpa using agrees
  · -- a scalar of four digits
    obtain rfl : 4 = digits := by simpa using digits_eq
    obtain ⟨width, zero⟩ := pushUtf8_spec (not_lt.1 negative) (by omega)
    rw [if_pos (rfl : (117 : UInt8) = 117)]
    split
    next stop =>
      exact .inr ⟨stop.1, rfl, by simp [stop.2, pushUtf8, lowByte]⟩
    rename_i going
    refine ⟨rfl, rfl, ?_, fun stop => ?_⟩
    · rw [width]
      have some : ¬ (117 : UInt8) = 120 := by decide
      simp only [some, false_or]
      split_ifs <;> omega
    · exact zero fun none => going ⟨stop, none⟩

theorem countEscape_agrees (within : index < text.length) :
    (countEscape text stopAtNul index count).Agrees stopAtNul count (decodeEscape text index) := by
  unfold countEscape decodeEscape
  dsimp only
  by_cases plain : byteAt text index ≠ 92 ∨ text.length - index ≤ 1
  · rw [if_pos plain, if_pos plain]
    exact agrees_byte Iff.rfl
  rw [if_neg plain, if_neg plain]
  have two : index + 2 ≤ text.length := by
    rw [not_or] at plain
    omega
  generalize byteAt text (index + 1) = nextByte
  by_cases hex : nextByte = 120 ∨ nextByte = 117
  · rw [if_pos hex, if_pos hex, if_neg (show ¬ index + 1 + 1 > text.length by omega)]
    generalize digits_eq : (if nextByte = 120 then 2 else 4) = digits
    by_cases fits : digits ≤ text.length - (index + 1 + 1)
    · rw [if_neg (not_lt.2 fits), if_pos fits, 
        if_pos (show index + 1 + 1 ≤ text.length ∧ digits ≤ text.length - (index + 1 + 1) from
          ⟨two, fits⟩)]
      exact agrees_hex hex digits_eq fits
    · rw [if_pos (not_le.1 fits), if_neg fits, if_neg (by decide)]
      exact .inl ⟨rfl, rfl⟩
  · rw [if_neg hex, if_neg hex]
    cases known : knownEscape nextByte with
    | false => exact .inl ⟨rfl, rfl⟩
    | true =>
      simp only [Bool.not_true, Bool.false_eq_true, if_false]
      refine agrees_byte (and_congr_right fun _ => ?_)
      have all : ∀ value < 256, knownEscape (UInt8.ofNat value) = true →
          (UInt8.ofNat value = 48 ↔ decodedEscape (UInt8.ofNat value) = 0) := by decide +kernel
      simpa using all nextByte.toNat nextByte.toNat_lt_size (by simpa using known)

end Rounds

/-! ## Both loops -/

theorem lt_next_countEscape {text : Bytes} {stopAtNul : Bool} {index next : Nat} {count after : Int}
    (within : index < text.length)
    (h : countEscape text stopAtNul index count = .on after next) : index < next := by
  have agrees := @countEscape_agrees text stopAtNul index count within
  rw [h] at agrees
  exact agrees.2.1 ▸ lt_next_decodeEscape within

def countFrom (text : Bytes) (stopAtNul : Bool) (index : Nat) (count : Int) : Int :=
  if _within : index < text.length then
    match _h : countEscape text stopAtNul index count with
    | .result value => value
    | .on after next => countFrom text stopAtNul next after
  else count
termination_by text.length - index
decreasing_by
  have further := lt_next_countEscape _within _h
  omega

def decodedLiteralByteCount (text : Bytes) (stopAtNul : Bool) : Int := countFrom text stopAtNul 0 0

def decodedLiteralLength (text : Bytes) : Int := decodedLiteralByteCount text false

def decodedLiteralStrlen (text : Bytes) : Int := decodedLiteralByteCount text true

section Loops

variable {text storage : Bytes} {stopAtNul allKnown : Bool} {index : Nat} {count : Int}

theorem prefix_decodeFrom : storage <+: (decodeFrom text index storage allKnown).1 := by
  fun_induction decodeFrom text index storage allKnown with
  | case1 index storage allKnown within decoded ih =>
    exact (List.prefix_append storage decoded.bytes).trans ih
  | case2 index storage allKnown beyond => exact List.prefix_rfl

theorem decodeFrom_unknown : (decodeFrom text index storage false).2 = false := by
  induction left : text.length - index using Nat.strong_induction_on generalizing index storage with
  | h left ih =>
    rw [decodeFrom]
    split
    next within =>
      have further := lt_next_decodeEscape within
      exact ih _ (by omega) rfl
    next => rfl

/-- The result of a count beside the bytes that the decoder makes: nothing for an unknown
escape, and else the place of the first zero or the number of all bytes. -/
theorem countFrom_decodeFrom (length : count = storage.length)
    (nonzero : stopAtNul = true → 0 ∉ storage) :
    let decoded := decodeFrom text index storage true
    countFrom text stopAtNul index count = -1 ∧ decoded.2 = false ∨
      stopAtNul = true ∧ countFrom text stopAtNul index count = decoded.1.findIdx (· == 0) ∨
        countFrom text stopAtNul index count = decoded.1.length ∧ decoded.2 = true ∧
          (stopAtNul = true → 0 ∉ decoded.1) := by
  induction left : text.length - index using Nat.strong_induction_on
    generalizing index count storage with
  | h left ih =>
    rw [countFrom, decodeFrom]
    by_cases within : index < text.length
    · rw [dif_pos within, dif_pos within]
      dsimp only
      have agrees := @countEscape_agrees text stopAtNul index count within
      have further := lt_next_decodeEscape within
      split
      next value result =>
        rw [result] at agrees
        rcases agrees with ⟨rfl, unknown⟩ | ⟨stop, rfl, zero⟩
        · rw [unknown]
          exact .inl ⟨rfl, decodeFrom_unknown⟩
        refine .inr (.inl ⟨stop, ?_⟩)
        obtain ⟨rest, whole⟩ := @prefix_decodeFrom text
          (storage ++ (decodeEscape text index).bytes) (true && (decodeEscape text index).known)
          (decodeEscape text index).next
        obtain ⟨bytes, first⟩ : ∃ bytes, (decodeEscape text index).bytes = 0 :: bytes := by
          cases here : (decodeEscape text index).bytes with
          | nil => simp [here] at zero
          | cons byte bytes =>
            rw [here, List.head?_cons, Option.some.injEq] at zero
            exact ⟨bytes, by rw [zero]⟩
        have absent : ∀ byte ∈ storage, (byte == 0) = false := by
          intro byte mem
          rw [beq_eq_false_iff_ne]
          rintro rfl
          exact nonzero stop mem
        rw [← whole, first, length, List.append_assoc, List.findIdx_append,
          List.findIdx_eq_length_of_false absent, if_neg (lt_irrefl _)]
        simp [List.findIdx_cons]
      rename_i after next on
      rw [on] at agrees
      obtain ⟨known, rfl, rfl, free⟩ := agrees
      rw [known]
      refine ih _ (by omega) ?_ ?_ rfl
      · rw [length, List.length_append]
        push_cast
        rfl
      · intro stop
        rw [List.mem_append, not_or]
        exact ⟨nonzero stop, free stop⟩
    · rw [dif_neg within, dif_neg within]
      exact .inr (.inr ⟨length, rfl, nonzero⟩)

/-- The counts are those of the decoded bytes: all of them where every escape is known, and those
before the first zero where the count comes back with a number. -/
theorem literal_counts (text : Bytes) :
    ((decodeStringEscapes text).2 = true →
      decodedLiteralLength text = (decodeStringEscapes text).1.length) ∧
    ((decodeStringEscapes text).2 = false → decodedLiteralLength text = -1) ∧
    (0 ≤ decodedLiteralStrlen text →
      decodedLiteralStrlen text = (decodeStringEscapes text).1.findIdx (· == 0)) := by
  have lengths := @countFrom_decodeFrom text [] false 0 0 rfl (by simp)
  have zeros := @countFrom_decodeFrom text [] true 0 0 rfl (by simp)
  refine ⟨fun known => ?_, fun unknown => ?_, fun counted => ?_⟩
  · rcases lengths with ⟨-, unknown⟩ | ⟨stop, -⟩ | ⟨same, -⟩
    · exact absurd (known.symm.trans unknown) (by decide)
    · exact absurd stop (by decide)
    · exact same
  · rcases lengths with ⟨same, -⟩ | ⟨stop, -⟩ | ⟨-, known, -⟩
    · exact same
    · exact absurd stop (by decide)
    · exact absurd (known.symm.trans unknown) (by decide)
  rcases zeros with ⟨same, -⟩ | ⟨-, same⟩ | ⟨same, -, free⟩
  · rw [decodedLiteralStrlen, decodedLiteralByteCount, same] at counted
    exact absurd counted (by decide)
  · exact same
  rw [decodedLiteralStrlen, decodedLiteralByteCount, same, decodeStringEscapes, Nat.cast_inj]
  refine (List.findIdx_eq_length.2 fun byte mem => ?_).symm
  rw [beq_eq_false_iff_ne]
  rintro rfl
  exact free rfl mem

end Loops

end Elisa.Backend
