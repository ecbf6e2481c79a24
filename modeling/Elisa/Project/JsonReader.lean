import Elisa.Bytes

/-!
# The JSON reader of the project system

The manifests are read by hand (`project_json_parse.elisa`), with a cursor over the bytes of a file.
`jsonParseString` and `jsonPushStringEntry` decode a string, `jsonSkipString` steps over it.  Keys
are compared without decoding them (`jsonSpanIs`), and a list is read by `jsonReadStringList` or,
for a platform that is not the selected one, skipped by `jsonSkipStringList`.
-/

namespace Elisa.ProjectSystem.Json

/-- The cursor; once `ok` is false, the caller stops. -/
structure JsonCursor where
  position : Nat
  ok : Bool
  deriving DecidableEq

def JsonCursor.advance (cursor : JsonCursor) (count : Nat) : JsonCursor :=
  { cursor with position := cursor.position + count }

def JsonCursor.fail (cursor : JsonCursor) : JsonCursor := { cursor with ok := false }

@[simp] theorem JsonCursor.advance_position (cursor : JsonCursor) (count : Nat) :
    (cursor.advance count).position = cursor.position + count := rfl

@[simp] theorem JsonCursor.advance_ok (cursor : JsonCursor) (count : Nat) :
    (cursor.advance count).ok = cursor.ok := rfl

@[simp] theorem JsonCursor.fail_ok (cursor : JsonCursor) : cursor.fail.ok = false := rfl

def bytesIsSpace (byte : UInt8) : Bool := byte == 32 || byte == 9 || byte == 10 || byte == 13

def jsonAt (data : Bytes) (position : Nat) : UInt8 := data.getD position 0

def jsonSkipWs (data : Bytes) (cursor : JsonCursor) : JsonCursor :=
  if cursor.position < data.length then
    if !bytesIsSpace (jsonAt data cursor.position) then cursor
    else jsonSkipWs data (cursor.advance 1)
  else cursor
termination_by data.length - cursor.position
decreasing_by
  rw [JsonCursor.advance_position]
  omega

/-! ## Characters -/

def jsonPushUtf8 (out : Bytes) (code : Nat) : Bytes :=
  if code < 128 then out ++ [UInt8.ofNat code]
  else if code < 2048 then
    out ++ [UInt8.ofNat (192 + code / 64), UInt8.ofNat (128 + code % 64)]
  else if code < 65536 then
    out ++ [UInt8.ofNat (224 + code / 4096), UInt8.ofNat (128 + code / 64 % 64),
      UInt8.ofNat (128 + code % 64)]
  else
    out ++ [UInt8.ofNat (240 + code / 262144), UInt8.ofNat (128 + code / 4096 % 64),
      UInt8.ofNat (128 + code / 64 % 64), UInt8.ofNat (128 + code % 64)]

def jsonHexDigit (byte : UInt8) : Int :=
  if 48 ≤ byte ∧ byte ≤ 57 then (byte - 48).toNat
  else if 97 ≤ byte ∧ byte ≤ 102 then (byte - 97 + 10).toNat
  else if 65 ≤ byte ∧ byte ≤ 70 then (byte - 65 + 10).toNat
  else -1

/-- The number of four hex digits, or -1. -/
def jsonHex4 (data : Bytes) (position : Nat) : Int :=
  let digit0 := jsonHexDigit (jsonAt data position)
  if digit0 < 0 then -1
  else
    let digit1 := jsonHexDigit (jsonAt data (position + 1))
    if digit1 < 0 then -1
    else
      let digit2 := jsonHexDigit (jsonAt data (position + 2))
      if digit2 < 0 then -1
      else
        let digit3 := jsonHexDigit (jsonAt data (position + 3))
        if digit3 < 0 then -1
        else ((digit0 * 16 + digit1) * 16 + digit2) * 16 + digit3

/-- The scalar of a unit, with the low surrogate behind a high one; a lone surrogate is replaced. -/
def jsonUnicodeEscapeScalar (data : Bytes) (cursor : JsonCursor) (first : Int) : JsonCursor × Int :=
  let lone : JsonCursor × Int :=
    if 55296 ≤ first ∧ first ≤ 57343 then (cursor, 65533) else (cursor, first)
  if 55296 ≤ first ∧ first ≤ 56319 ∧ jsonAt data cursor.position = 92 ∧
      jsonAt data (cursor.position + 1) = 117 then
    let low := jsonHex4 data (cursor.position + 2)
    if 56320 ≤ low ∧ low ≤ 57343 then
      (cursor.advance 6, 65536 + (first - 55296) * 1024 + (low - 56320))
    else lone
  else lone

theorem jsonUnicodeEscapeScalar_position (data : Bytes) (cursor : JsonCursor) (first : Int) :
    cursor.position ≤ (jsonUnicodeEscapeScalar data cursor first).1.position := by
  simp only [jsonUnicodeEscapeScalar]
  split_ifs <;> simp

theorem le_scalar_position (data : Bytes) (cursor : JsonCursor) (first : Int) :
    cursor.position ≤
      (jsonUnicodeEscapeScalar data ((cursor.advance 2).advance 4) first).1.position := by
  have := jsonUnicodeEscapeScalar_position data ((cursor.advance 2).advance 4) first
  simp only [JsonCursor.advance_position] at this
  omega

def jsonIsUtf8Continuation (byte : UInt8) : Bool := decide (128 ≤ byte) && decide (byte ≤ 191)

/-- The width of a valid sequence, or zero. -/
def jsonRawUtf8Width (data : Bytes) (position stop : Nat) : Nat :=
  let first := jsonAt data position
  let second := jsonAt data (position + 1)
  let continues (offset : Nat) := jsonIsUtf8Continuation (jsonAt data (position + offset))
  let remaining := stop - position
  if first < 128 then 1
  else if 194 ≤ first ∧ first ≤ 223 then
    if remaining ≥ 2 ∧ continues 1 then 2 else 0
  else if first = 224 then
    if remaining ≥ 3 ∧ second ≥ 160 ∧ second ≤ 191 ∧ continues 2 then 3 else 0
  else if first ≥ 225 ∧ first ≤ 236 ∨ first ≥ 238 ∧ first ≤ 239 then
    if remaining ≥ 3 ∧ continues 1 ∧ continues 2 then 3 else 0
  else if first = 237 then
    if remaining ≥ 3 ∧ second ≥ 128 ∧ second ≤ 159 ∧ continues 2 then 3 else 0
  else if first = 240 then
    if remaining ≥ 4 ∧ second ≥ 144 ∧ second ≤ 191 ∧ continues 2 ∧ continues 3 then 4 else 0
  else if first ≥ 241 ∧ first ≤ 243 then
    if remaining ≥ 4 ∧ continues 1 ∧ continues 2 ∧ continues 3 then 4 else 0
  else if first = 244 then
    if remaining ≥ 4 ∧ second ≥ 128 ∧ second ≤ 143 ∧ continues 2 ∧ continues 3 then 4 else 0
  else 0

def jsonPushRawUtf8 (out data : Bytes) (position width : Nat) : Bytes :=
  out ++ (List.range width).map fun offset => jsonAt data (position + offset)

/-! ## Strings -/

def parseStringLoop (data : Bytes) (cursor : JsonCursor) (out : Bytes) : JsonCursor × Bytes :=
  if cursor.position < data.length then
    let byte := jsonAt data cursor.position
    if byte = 34 then (cursor.advance 1, out)
    else if byte ≠ 92 then
      if byte < 32 then (cursor.fail, out)
      else if byte < 128 then parseStringLoop data (cursor.advance 1) (out ++ [byte])
      else
        let width := jsonRawUtf8Width data cursor.position data.length
        if width = 0 then parseStringLoop data (cursor.advance 1) (jsonPushUtf8 out 65533)
        else parseStringLoop data (cursor.advance width)
          (jsonPushRawUtf8 out data cursor.position width)
    else
      let escape := jsonAt data (cursor.position + 1)
      let behind := cursor.advance 2
      if escape = 34 ∨ escape = 92 ∨ escape = 47 then parseStringLoop data behind (out ++ [escape])
      else if escape = 98 then parseStringLoop data behind (out ++ [8])
      else if escape = 102 then parseStringLoop data behind (out ++ [12])
      else if escape = 110 then parseStringLoop data behind (out ++ [10])
      else if escape = 114 then parseStringLoop data behind (out ++ [13])
      else if escape = 116 then parseStringLoop data behind (out ++ [9])
      else if escape = 117 then
        let first := jsonHex4 data behind.position
        if first < 0 then (behind.fail, out)
        else
          let scalar := jsonUnicodeEscapeScalar data (behind.advance 4) first
          parseStringLoop data scalar.1 (jsonPushUtf8 out scalar.2.toNat)
      else (behind.fail, out)
  else (cursor.fail, out)
termination_by data.length - cursor.position
decreasing_by
  all_goals
    have := jsonUnicodeEscapeScalar_position data ((cursor.advance 2).advance 4)
      (jsonHex4 data (cursor.advance 2).position)
    simp only [JsonCursor.advance_position] at *
    omega

def jsonParseString (data : Bytes) (cursor : JsonCursor) : JsonCursor × Bytes :=
  let cursor := jsonSkipWs data cursor
  if jsonAt data cursor.position ≠ 34 then (cursor.fail, [])
  else parseStringLoop data (cursor.advance 1) []

/-- Strings in one buffer, each by its start and its length. -/
structure StrList where
  data : Bytes
  starts : List Nat
  lengths : List Nat
  deriving DecidableEq

def pushStringLoop (data : Bytes) (entryStart : Nat) (cursor : JsonCursor) (list : StrList) :
    JsonCursor × StrList :=
  if cursor.position < data.length then
    let byte := jsonAt data cursor.position
    if byte = 34 then
      (cursor.advance 1,
        { list with
          starts := list.starts ++ [entryStart]
          lengths := list.lengths ++ [list.data.length - entryStart] })
    else if byte ≠ 92 then
      if byte < 32 then (cursor.fail, list)
      else if byte < 128 then
        pushStringLoop data entryStart (cursor.advance 1) { list with data := list.data ++ [byte] }
      else
        let width := jsonRawUtf8Width data cursor.position data.length
        if width = 0 then
          pushStringLoop data entryStart (cursor.advance 1)
            { list with data := jsonPushUtf8 list.data 65533 }
        else
          pushStringLoop data entryStart (cursor.advance width)
            { list with data := jsonPushRawUtf8 list.data data cursor.position width }
    else
      let escape := jsonAt data (cursor.position + 1)
      let behind := cursor.advance 2
      let push (byte : UInt8) : StrList := { list with data := list.data ++ [byte] }
      if escape = 34 ∨ escape = 92 ∨ escape = 47 then
        pushStringLoop data entryStart behind (push escape)
      else if escape = 98 then pushStringLoop data entryStart behind (push 8)
      else if escape = 102 then pushStringLoop data entryStart behind (push 12)
      else if escape = 110 then pushStringLoop data entryStart behind (push 10)
      else if escape = 114 then pushStringLoop data entryStart behind (push 13)
      else if escape = 116 then pushStringLoop data entryStart behind (push 9)
      else if escape = 117 then
        let first := jsonHex4 data behind.position
        if first < 0 then (behind.fail, list)
        else
          let scalar := jsonUnicodeEscapeScalar data (behind.advance 4) first
          pushStringLoop data entryStart scalar.1
            { list with data := jsonPushUtf8 list.data scalar.2.toNat }
      else (behind.fail, list)
  else (cursor.fail, list)
termination_by data.length - cursor.position
decreasing_by
  all_goals
    have := jsonUnicodeEscapeScalar_position data ((cursor.advance 2).advance 4)
      (jsonHex4 data (cursor.advance 2).position)
    simp only [JsonCursor.advance_position] at *
    omega

def skipStringLoop (data : Bytes) (cursor : JsonCursor) : JsonCursor :=
  if cursor.position < data.length then
    let byte := jsonAt data cursor.position
    if byte = 34 then cursor.advance 1
    else if byte < 32 then cursor.fail
    else if byte = 92 then
      let remaining := data.length - cursor.position
      if remaining < 2 then cursor.fail
      else
        let escape := jsonAt data (cursor.position + 1)
        if escape = 34 ∨ escape = 92 ∨ escape = 47 ∨ escape = 98 ∨ escape = 102 ∨ escape = 110 ∨
            escape = 114 ∨ escape = 116 then
          skipStringLoop data (cursor.advance 2)
        else if escape = 117 then
          if remaining < 6 ∨ jsonHex4 data (cursor.position + 2) < 0 then cursor.fail
          else skipStringLoop data (cursor.advance 6)
        else cursor.fail
    else skipStringLoop data (cursor.advance 1)
  else cursor.fail
termination_by data.length - cursor.position
decreasing_by
  all_goals
    simp only [JsonCursor.advance_position]
    omega

def jsonSkipString (data : Bytes) (cursor : JsonCursor) : JsonCursor :=
  if jsonAt data cursor.position ≠ 34 then cursor.fail
  else skipStringLoop data (cursor.advance 1)

/-! ## Keys -/

/-- The code of an escape `\\u` in a key. -/
def spanUnicode (data : Bytes) (position stop : Nat) (asciiFold : Bool) : Option (Nat × Nat) :=
  if stop - position < 6 then none
  else
    let scalar := jsonHex4 data (position + 2)
    if scalar < 0 then none
    else if asciiFold && decide (scalar = 8490) then some (107, 6)
    else if asciiFold && decide (scalar = 383) then some (115, 6)
    else if scalar ≥ 128 then none
    else some (scalar.toNat, 6)

/-- The code of an escape in a key. -/
def spanEscape (data : Bytes) (position stop : Nat) (asciiFold : Bool) : Option (Nat × Nat) :=
  if stop - position < 2 then none
  else
    let escape := jsonAt data (position + 1)
    if escape = 34 ∨ escape = 92 ∨ escape = 47 then some (escape.toNat, 2)
    else if escape = 98 then some (8, 2)
    else if escape = 102 then some (12, 2)
    else if escape = 110 then some (10, 2)
    else if escape = 114 then some (13, 2)
    else if escape = 116 then some (9, 2)
    else if escape = 117 then spanUnicode data position stop asciiFold
    else none

/-- The code and the width of the next character of a key, if the key can go on with it. -/
def spanCode (data : Bytes) (position stop : Nat) (asciiFold : Bool) : Option (Nat × Nat) :=
  let byte := jsonAt data position
  let remaining := stop - position
  if byte = 92 then spanEscape data position stop asciiFold
  else if asciiFold && decide (byte = 226) && decide (remaining ≥ 3) &&
      decide (jsonAt data (position + 1) = 132) && decide (jsonAt data (position + 2) = 170) then
    some (107, 3)
  else if asciiFold && decide (byte = 197) && decide (remaining ≥ 2) &&
      decide (jsonAt data (position + 1) = 191) then
    some (115, 2)
  else some (byte.toNat, 1)

variable {position code width : Nat} {asciiFold : Bool}

theorem spanUnicode_width {data : Bytes} {stop : Nat}
    (h : spanUnicode data position stop asciiFold = some (code, width)) : 0 < width := by
  simp only [spanUnicode] at h
  split_ifs at h <;> cases h <;> exact Nat.succ_pos _

theorem spanEscape_width {data : Bytes} {stop : Nat}
    (h : spanEscape data position stop asciiFold = some (code, width)) : 0 < width := by
  rw [Nat.pos_iff_ne_zero]
  rintro rfl
  simp only [spanEscape, ite_eq_iff, Option.some.injEq, Prod.mk.injEq, reduceCtorEq, and_false,
    false_or, or_false, OfNat.ofNat_ne_zero] at h
  exact Nat.lt_irrefl 0 (spanUnicode_width h.2.2.2.2.2.2.2.2)

theorem spanCode_width {data : Bytes} {stop : Nat}
    (h : spanCode data position stop asciiFold = some (code, width)) : 0 < width := by
  simp only [spanCode] at h
  split at h
  next => exact spanEscape_width h
  split at h
  next => cases h; exact Nat.succ_pos _
  split at h
  next => cases h; exact Nat.succ_pos _
  next => cases h; exact Nat.succ_pos _

def foldCase (code : Nat) : Nat := if 65 ≤ code ∧ code ≤ 90 then code + 32 else code

def spanLoop (data : Bytes) (position stop : Nat) (name : Bytes) (asciiFold : Bool) : Bool :=
  if position < stop then
    match _hcode : spanCode data position stop asciiFold with
    | none => false
    | some (code, width) =>
      if code ≥ 128 then false
      else
        match name with
        | [] => false
        | expected :: name =>
          let agrees := if asciiFold then foldCase code = foldCase expected.toNat
            else code = expected.toNat
          if ¬ agrees then false else spanLoop data (position + width) stop name asciiFold
  else name.isEmpty
termination_by stop - position
decreasing_by
  have := spanCode_width _hcode
  omega

def jsonSpanIsMode (data : Bytes) (start length : Nat) (name : Bytes) (asciiFold : Bool) : Bool :=
  if start > data.length ∨ length > data.length - start then false
  else spanLoop data start (start + length) name asciiFold

def jsonSpanIs (data : Bytes) (start length : Nat) (name : Bytes) : Bool :=
  jsonSpanIsMode data start length name false

def jsonTakeNull (data : Bytes) (cursor : JsonCursor) : JsonCursor × Bool :=
  let cursor := jsonSkipWs data cursor
  if !jsonSpanIs data cursor.position 4 (ascii "null") then (cursor, false)
  else (cursor.advance 4, true)

/-! ## Lists -/

def jsonPushStringEntry (data : Bytes) (cursor : JsonCursor) (list : StrList) :
    JsonCursor × StrList :=
  let null := jsonTakeNull data cursor
  if null.2 then
    (null.1,
      { list with starts := list.starts ++ [list.data.length], lengths := list.lengths ++ [0] })
  else
    let cursor := jsonSkipWs data null.1
    if jsonAt data cursor.position ≠ 34 then (cursor.fail, list)
    else pushStringLoop data list.data.length (cursor.advance 1) list

section Progress

variable {data : Bytes} {cursor : JsonCursor}

theorem le_jsonSkipWs (data : Bytes) (cursor : JsonCursor) :
    cursor.position ≤ (jsonSkipWs data cursor).position := by
  fun_induction jsonSkipWs data cursor with
  | case1 => exact Nat.le_refl _
  | case2 cursor _ _ ih => exact Nat.le_of_succ_le ih
  | case3 => exact Nat.le_refl _

/-- The cursor goes forward over what is accepted. -/
def Advances (data : Bytes) (before after : JsonCursor) : Prop :=
  after.ok = true → before.position < data.length ∧ before.position < after.position

theorem advances_fail {before : JsonCursor} : Advances data before cursor.fail := by
  intro h
  cases h

theorem advances_of_le {before middle after : JsonCursor} (inside : before.position < data.length)
    (le : before.position ≤ middle.position) (h : Advances data middle after) :
    Advances data before after := fun hok => ⟨inside, Nat.lt_of_le_of_lt le (h hok).2⟩

theorem advances_advance {count : Nat} (inside : cursor.position < data.length) (pos : 0 < count) :
    Advances data cursor (cursor.advance count) := fun _ => ⟨inside, Nat.lt_add_of_pos_right pos⟩

theorem pushStringLoop_advances (entryStart : Nat) (list : StrList) :
    Advances data cursor (pushStringLoop data entryStart cursor list).1 := by
  fun_induction pushStringLoop data entryStart cursor list
  all_goals
    first
    | exact advances_fail
    | exact advances_advance ‹_› Nat.one_pos
    | exact advances_of_le ‹_› (Nat.le_add_right _ _) ‹_›
    | exact advances_of_le ‹_› (le_scalar_position data _ _) ‹_›

theorem skipStringLoop_advances : Advances data cursor (skipStringLoop data cursor) := by
  fun_induction skipStringLoop data cursor
  all_goals
    first
    | exact advances_fail
    | exact advances_advance ‹_› Nat.one_pos
    | exact advances_of_le ‹_› (Nat.le_add_right _ _) ‹_›

theorem inside_of_jsonAt (h : jsonAt data position ≠ 0) : position < data.length := by
  by_contra hout
  exact h (by simp [jsonAt, List.getElem?_eq_none (Nat.le_of_not_lt hout)])

theorem jsonSkipString_advances : Advances data cursor (jsonSkipString data cursor) := by
  rw [jsonSkipString]
  split
  next => exact advances_fail
  rename_i h
  have hinside : cursor.position < data.length := by
    refine inside_of_jsonAt ?_
    rw [not_not.mp h]
    decide
  exact advances_of_le hinside (Nat.le_add_right _ 1) skipStringLoop_advances

theorem inside_of_jsonSpanIs {start length : Nat} {name : Bytes}
    (h : jsonSpanIs data start length name) :
    start + length ≤ data.length := by
  rw [jsonSpanIs, jsonSpanIsMode] at h
  split at h
  next => cases h
  next hout => omega

theorem jsonTakeNull_advances (h : (jsonTakeNull data cursor).2 = true) :
    cursor.position < data.length ∧ cursor.position < (jsonTakeNull data cursor).1.position := by
  have hskip := le_jsonSkipWs data cursor
  simp only [jsonTakeNull] at h ⊢
  cases hnull : jsonSpanIs data (jsonSkipWs data cursor).position 4 (ascii "null") with
  | false => simp [hnull] at h
  | true =>
    have := inside_of_jsonSpanIs hnull
    simp only [Bool.not_true, Bool.false_eq_true, if_false, JsonCursor.advance_position]
    omega

theorem le_jsonTakeNull (data : Bytes) (cursor : JsonCursor) :
    cursor.position ≤ (jsonTakeNull data cursor).1.position := by
  have hskip := le_jsonSkipWs data cursor
  simp only [jsonTakeNull]
  split
  next => exact hskip
  next => exact Nat.le_trans hskip (Nat.le_add_right _ 4)

theorem jsonPushStringEntry_advances (list : StrList) :
    Advances data cursor (jsonPushStringEntry data cursor list).1 := by
  simp only [jsonPushStringEntry]
  split
  next h => exact fun _ => jsonTakeNull_advances h
  rename_i h
  split
  next => exact advances_fail
  rename_i hquote
  have hnull := le_jsonTakeNull data cursor
  have hskip := le_jsonSkipWs data (jsonTakeNull data cursor).1
  have hinside := inside_of_jsonAt (by rw [not_not.mp hquote]; decide)
  exact advances_of_le (Nat.lt_of_le_of_lt (Nat.le_trans hnull hskip) hinside)
    (Nat.le_trans (Nat.le_trans hnull hskip) (Nat.le_add_right _ 1))
    (pushStringLoop_advances _ _)

end Progress

/-- Behind the comma, if there is one. -/
def entryCursor (cursor : JsonCursor) (first : Bool) : JsonCursor :=
  if first then cursor else cursor.advance 1

/-- The same when skipping, where the next value is looked for at once. -/
def skippedEntryCursor (data : Bytes) (cursor : JsonCursor) (first : Bool) : JsonCursor :=
  if first then cursor else jsonSkipWs data (cursor.advance 1)

theorem le_entryCursor (cursor : JsonCursor) (first : Bool) :
    cursor.position ≤ (entryCursor cursor first).position := by
  cases first with
  | false => exact Nat.le_add_right _ 1
  | true => exact Nat.le_refl _

theorem le_skippedEntryCursor (data : Bytes) (cursor : JsonCursor) (first : Bool) :
    cursor.position ≤ (skippedEntryCursor data cursor first).position := by
  cases first with
  | false => exact Nat.le_trans (Nat.le_add_right _ 1) (le_jsonSkipWs data (cursor.advance 1))
  | true => exact Nat.le_refl _

def readListLoop (data : Bytes) (cursor : JsonCursor) (list : StrList) (first : Bool) :
    JsonCursor × StrList :=
  if cursor.ok then
    let here := jsonSkipWs data cursor
    if jsonAt data here.position = 93 then (here.advance 1, list)
    else if !first && decide (jsonAt data here.position ≠ 44) then (here.fail, list)
    else
      let entry := jsonPushStringEntry data (entryCursor here first) list
      if !entry.1.ok then entry else readListLoop data entry.1 entry.2 false
  else (cursor, list)
termination_by data.length - cursor.position
decreasing_by
  rename_i hok
  have hentry := jsonPushStringEntry_advances list (by simpa using hok)
  have hle := Nat.le_trans (le_jsonSkipWs data cursor)
    (le_entryCursor (jsonSkipWs data cursor) first)
  exact Nat.sub_lt_sub_left (Nat.lt_of_le_of_lt hle hentry.1) (Nat.lt_of_le_of_lt hle hentry.2)

def jsonReadStringList (data : Bytes) (cursor : JsonCursor) (list : StrList) :
    JsonCursor × StrList :=
  let null := jsonTakeNull data cursor
  if null.2 then (null.1, ⟨[], [], []⟩)
  else
    let here := jsonSkipWs data null.1
    if jsonAt data here.position ≠ 91 then (here.fail, list)
    else readListLoop data (here.advance 1) list true

def JsonCursor.left (data : Bytes) (cursor : JsonCursor) : Nat :=
  if cursor.ok then data.length - cursor.position + 1 else 0

theorem left_lt {data : Bytes} {before middle after : JsonCursor} (hok : before.ok = true)
    (le : before.position ≤ middle.position) (h : Advances data middle after) :
    after.left data < before.left data := by
  rw [JsonCursor.left, JsonCursor.left, if_pos hok]
  split
  next hafter =>
    have := h hafter
    omega
  next => exact Nat.succ_pos _

def skipListLoop (data : Bytes) (cursor : JsonCursor) (first : Bool) : JsonCursor :=
  if cursor.ok then
    let here := jsonSkipWs data cursor
    if jsonAt data here.position = 93 then here.advance 1
    else if !first && decide (jsonAt data here.position ≠ 44) then here.fail
    else
      let null := jsonTakeNull data (skippedEntryCursor data here first)
      if null.2 then skipListLoop data null.1 false
      else skipListLoop data (jsonSkipString data null.1) false
  else cursor.fail
termination_by cursor.left data
decreasing_by
  · rename_i hok _ _ hnull
    exact left_lt hok (Nat.le_trans (le_jsonSkipWs data cursor)
      (le_skippedEntryCursor data (jsonSkipWs data cursor) first)) fun _ =>
        jsonTakeNull_advances hnull
  · rename_i hok _ _ _
    exact left_lt hok (Nat.le_trans (le_jsonSkipWs data cursor)
      (Nat.le_trans (le_skippedEntryCursor data (jsonSkipWs data cursor) first)
        (le_jsonTakeNull data _))) jsonSkipString_advances

def jsonSkipStringList (data : Bytes) (cursor : JsonCursor) : JsonCursor :=
  let null := jsonTakeNull data (jsonSkipWs data cursor)
  if null.2 then null.1
  else if jsonAt data null.1.position ≠ 91 then null.1.fail
  else skipListLoop data (null.1.advance 1) true

end Elisa.ProjectSystem.Json
