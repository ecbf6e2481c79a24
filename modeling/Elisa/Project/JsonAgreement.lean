import Elisa.Project.JsonStrings

/-!
# The agreement of the readers

The three loops are readers of the contents of strings, so that they agree on every text
(`parseStringLoop_reads`, `pushStringLoop_reads`, `skipStringLoop_reads`).
-/

namespace Elisa.ProjectSystem.Json

open Elisa.Lib Utf8 List

/-- Where a reader ends and what it returns, unless it failed. -/
def accepted {σ : Type} (result : JsonCursor × σ) : Option (Nat × σ) :=
  if result.1.ok then some (result.1.position, result.2) else none

section Loops

variable {data rest : Bytes} {position : Nat}

def pushBytes (out : Bytes) (char : Char) : Bytes := out ++ encode char

theorem parseStringLoop_reads (data : Bytes) :
    Reads data pushBytes id fun position out =>
      accepted (parseStringLoop data ⟨position, true⟩ out) where
  past position out h := by
    rw [parseStringLoop_step, decodeStep_over h]
    rfl
  close position out rest h := by
    rw [parseStringLoop_step, decodeStep_close h]
    rfl
  item position next out char hle hinside h := by
    rw [parseStringLoop_step, decodeStep_item hle hinside h]
    rfl
  refused position out h := by
    obtain ⟨final, hfail⟩ := decodeStep_refused h
    rw [parseStringLoop_step, hfail]
    rfl

/-- The entry that ends at the end of the buffer. -/
def closeEntry (entryStart : Nat) (list : StrList) : StrList :=
  { list with
    starts := list.starts ++ [entryStart]
    lengths := list.lengths ++ [list.data.length - entryStart] }

theorem pushStringLoop_reads (data : Bytes) (entryStart : Nat) :
    Reads data (fun list char => { list with data := pushBytes list.data char })
      (closeEntry entryStart) fun position list =>
        accepted (pushStringLoop data entryStart ⟨position, true⟩ list) where
  past position list h := by
    rw [pushStringLoop_step, decodeStep_over h]
    rfl
  close position list rest h := by
    rw [pushStringLoop_step, decodeStep_close h]
    rfl
  item position next list char hle hinside h := by
    rw [pushStringLoop_step, decodeStep_item hle hinside h]
    rfl
  refused position list h := by
    obtain ⟨final, hfail⟩ := decodeStep_refused h
    rw [pushStringLoop_step, hfail]
    rfl

/-! ## Skipping -/

theorem skipStringLoop_over (h : data.drop position = []) :
    skipStringLoop data ⟨position, true⟩ = ⟨position, false⟩ := by
  have hle : data.length ≤ position := drop_eq_nil_iff.mp h
  rw [skipStringLoop]
  exact if_neg (Nat.not_lt.mpr hle)

theorem skipStringLoop_close (h : data.drop position = 34 :: rest) :
    skipStringLoop data ⟨position, true⟩ = ⟨position + 1, true⟩ := by
  rw [skipStringLoop, if_pos (drop_cons h)]
  simp only [jsonAt_eq data position, h]
  rfl

theorem skipStringLoop_byte {byte : UInt8} (h : data.drop position = byte :: rest)
    (quote : byte ≠ 34) (slash : byte ≠ 92) : skipStringLoop data ⟨position, true⟩ =
      if byte < 32 then ⟨position, false⟩ else skipStringLoop data ⟨position + 1, true⟩ := by
  have hbyte : jsonAt data position = byte := by
    rw [jsonAt_eq, h]
    rfl
  rw [skipStringLoop, if_pos (drop_cons h)]
  simp only [hbyte]
  rw [if_neg quote, if_neg slash]
  rfl

theorem skipStringLoop_bytes {bytes : Bytes} (h : data.drop position = bytes ++ rest)
    (plain : ∀ byte ∈ bytes, byte ≠ 34 ∧ byte ≠ 92 ∧ ¬ byte < 32) :
    skipStringLoop data ⟨position, true⟩ = skipStringLoop data ⟨position + bytes.length, true⟩ := by
  induction bytes generalizing position with
  | nil => rfl
  | cons byte bytes ih =>
    obtain ⟨hquote, hslash, hcontrol⟩ := plain byte mem_cons_self
    have hbehind : data.drop (position + 1) = bytes ++ rest := @drop_append _ _ position [byte] h
    rw [skipStringLoop_byte h hquote hslash, if_neg hcontrol,
      ih hbehind fun b hb => plain b (mem_cons_of_mem _ hb), length_cons,
      Nat.add_assoc, Nat.add_comm 1]

theorem skipStringLoop_slash (h : data.drop position = 92 :: rest) :
    skipStringLoop data ⟨position, true⟩ =
      if rest.length + 1 < 2 then ⟨position, false⟩
      else
        let escape := rest.getD 0 0
        if escape = 34 ∨ escape = 92 ∨ escape = 47 ∨ escape = 98 ∨ escape = 102 ∨ escape = 110 ∨
            escape = 114 ∨ escape = 116 then
          skipStringLoop data ⟨position + 2, true⟩
        else if escape = 117 then
          if rest.length + 1 < 6 ∨ jsonHex4 data (position + 2) < 0 then ⟨position, false⟩
          else skipStringLoop data ⟨position + 6, true⟩
        else ⟨position, false⟩ := by
  have hbyte : jsonAt data position = 92 := by
    rw [jsonAt_eq, h]
    rfl
  have hescape : jsonAt data (position + 1) = rest.getD 0 0 := by
    rw [jsonAt_add, h]
    rfl
  have hremaining : data.length - position = rest.length + 1 := by
    rw [← length_drop, h, length_cons]
  rw [skipStringLoop, if_pos (drop_cons h)]
  simp only [hbyte, hescape, hremaining]
  rfl

theorem skipStringLoop_unit {digits : Bytes} {unit : Nat}
    (h : data.drop position = unitText digits ++ rest) (hdigits : HexUnit digits unit) :
    skipStringLoop data ⟨position, true⟩ = skipStringLoop data ⟨position + 6, true⟩ := by
  have hfirst : jsonHex4 data (position + 2) = unit := jsonHex4_unitText h hdigits
  have hslash : data.drop position = 92 :: 117 :: (digits ++ rest) := h
  have hlength := hdigits.length_eq
  rw [skipStringLoop_slash hslash]
  simp only [hfirst, getD_cons_zero, length_cons, length_append, hlength]
  rw [if_neg (by omega), if_neg (by decide), if_pos trivial, if_neg (by omega)]

theorem escapeChar_some {letter : UInt8} {char : Char} (h : escapeChar letter = some char) :
    letter = 34 ∨ letter = 92 ∨ letter = 47 ∨ letter = 98 ∨ letter = 102 ∨ letter = 110 ∨
      letter = 114 ∨ letter = 116 := by
  by_contra hnone
  simp only [not_or] at hnone
  obtain ⟨h34, h92, h47, h98, h102, h110, h114, h116⟩ := hnone
  rw [escapeChar, if_neg h34, if_neg h92, if_neg h47, if_neg h98, if_neg h102, if_neg h110,
    if_neg h114, if_neg h116] at h
  cases h

/-- Skipping goes on behind an item too. -/
theorem skipStringLoop_item {next : Nat} {char : Char} (hle : position ≤ next)
    (hinside : next ≤ data.length) (h : Item (data.drop position) char (data.drop next)) :
    skipStringLoop data ⟨position, true⟩ = skipStringLoop data ⟨next, true⟩ := by
  generalize htext : data.drop position = text at h
  generalize hrest : data.drop next = rest at h
  have hnext (bytes : Bytes) (h : data.drop position = bytes ++ rest) :
      next = position + bytes.length := next_eq hle hinside (h.trans (by rw [hrest]))
  cases h with
  | char char rest printable hquote hslash =>
    rw [hnext _ htext]
    exact skipStringLoop_bytes htext (encode_plain printable hquote hslash)
  | malformed byte rest hhigh hnone =>
    rw [skipStringLoop_byte htext (by grind) (by grind), if_neg (by grind), hnext [byte] htext]
    rfl
  | @escape letter char rest hletter =>
    rw [skipStringLoop_slash htext, hnext [92, letter] htext]
    simp only [getD_cons_zero, length_cons]
    rw [if_neg (by omega), if_pos (escapeChar_some hletter)]
    rfl
  | @unit digits unit rest valid hdigits =>
    have hlength := hdigits.text_length
    rw [skipStringLoop_unit htext hdigits, hnext _ htext, hlength]
  | @pair highDigits lowDigits high low rest hhigh hlow hhighDigits hlowDigits =>
    have hlength := hhighDigits.text_length
    have hlength' := hlowDigits.text_length
    have heq := hnext (unitText highDigits ++ unitText lowDigits) (by rw [htext, append_assoc])
    rw [length_append, hlength, hlength'] at heq
    rw [skipStringLoop_unit htext hhighDigits,
      skipStringLoop_unit (hhighDigits.drop_text htext) hlowDigits, heq]
  | @lone digits unit rest hdigits surrogate alone =>
    have hlength := hdigits.text_length
    rw [skipStringLoop_unit htext hdigits, hnext _ htext, hlength]

/-- Skipping fails wherever reading does. -/
theorem skipStringLoop_refused (h : Refused (data.drop position)) :
    (skipStringLoop data ⟨position, true⟩).ok = false := by
  generalize htext : data.drop position = text at h
  cases h with
  | control rest hcontrol =>
    rw [skipStringLoop_byte htext (by grind) (by grind), if_pos hcontrol]
  | short =>
    rw [skipStringLoop_slash htext]
    rfl
  | @escape letter rest hnone hunit =>
    obtain ⟨h34, h92, h47, h98, h102, h110, h114, h116⟩ := escapeChar_none hnone
    rw [skipStringLoop_slash htext]
    simp only [getD_cons_zero]
    rw [if_neg (by simp), if_neg (by simp [h34, h92, h47, h98, h102, h110, h114, h116]),
      if_neg hunit]
  | unit rest hnone =>
    have hneg : jsonHex4 data (position + 2) < 0 := jsonHex4_refused htext hnone
    rw [skipStringLoop_slash htext]
    simp only [getD_cons_zero, length_cons]
    rw [if_neg (by omega), if_neg (by decide), if_pos trivial, if_pos (.inr hneg)]

theorem skipStringLoop_reads (data : Bytes) :
    Reads data (fun (_ : Unit) _ => ()) id fun position _ =>
      accepted (skipStringLoop data ⟨position, true⟩, ()) where
  past position _ h := by
    rw [skipStringLoop_over h]
    rfl
  close position _ rest h := by
    rw [skipStringLoop_close h]
    rfl
  item position next _ char hle hinside h := by rw [skipStringLoop_item hle hinside h]
  refused position _ h := by
    rw [accepted, skipStringLoop_refused h]
    rfl

end Loops

/-! ## Failed cursors -/

section Failed

variable {data : Bytes} {cursor : JsonCursor}

theorem jsonUnicodeEscapeScalar_ok (data : Bytes) (cursor : JsonCursor) (first : Int) :
    (jsonUnicodeEscapeScalar data cursor first).1.ok = cursor.ok := by
  simp only [jsonUnicodeEscapeScalar]
  split_ifs <;> rfl

theorem jsonSkipWs_ok (data : Bytes) (cursor : JsonCursor) :
    (jsonSkipWs data cursor).ok = cursor.ok := by
  fun_induction jsonSkipWs data cursor with
  | case1 => rfl
  | case2 _ _ _ ih => exact ih
  | case3 => rfl

theorem jsonSkipWs_idem (data : Bytes) (cursor : JsonCursor) :
    jsonSkipWs data (jsonSkipWs data cursor) = jsonSkipWs data cursor := by
  fun_induction jsonSkipWs data cursor with
  | case1 cursor hinside hspace => rw [jsonSkipWs, if_pos hinside, if_pos hspace]
  | case2 _ _ _ ih => exact ih
  | case3 cursor hover => rw [jsonSkipWs, if_neg hover]

theorem parseStringLoop_ok (out : Bytes) :
    (parseStringLoop data cursor out).1.ok = true → cursor.ok = true := by
  fun_induction parseStringLoop data cursor out
  all_goals
    first
    | exact fun h => absurd h Bool.false_ne_true
    | exact id
    | exact ‹_ → _›
    | exact fun h => ((jsonUnicodeEscapeScalar_ok data _ _).symm.trans (‹_ → _› h) :)

theorem pushStringLoop_ok (entryStart : Nat) (list : StrList) :
    (pushStringLoop data entryStart cursor list).1.ok = true → cursor.ok = true := by
  fun_induction pushStringLoop data entryStart cursor list
  all_goals
    first
    | exact fun h => absurd h Bool.false_ne_true
    | exact id
    | exact ‹_ → _›
    | exact fun h => ((jsonUnicodeEscapeScalar_ok data _ _).symm.trans (‹_ → _› h) :)

theorem skipStringLoop_ok : (skipStringLoop data cursor).ok = true → cursor.ok = true := by
  fun_induction skipStringLoop data cursor
  all_goals
    first
    | exact fun h => absurd h Bool.false_ne_true
    | exact id
    | exact ‹_ → _›

end Failed

/-! ## Strings -/

/-- A string of these characters stands at a place, and ends at another. -/
def StringAt (data : Bytes) (position : Nat) (chars : List Char) (final : Nat) : Prop :=
  ∃ rest, data.drop position = 34 :: rest ∧ Contents rest chars (data.drop final) ∧
    final ≤ data.length

def utf8 (chars : List Char) : Bytes := chars.flatMap encode

section Strings

variable {data : Bytes} {cursor : JsonCursor}

theorem foldl_pushBytes (chars : List Char) (out : Bytes) :
    chars.foldl pushBytes out = out ++ utf8 chars := by
  induction chars generalizing out with
  | nil => exact (append_nil out).symm
  | cons char chars ih =>
    rw [foldl_cons, ih, pushBytes, append_assoc]
    rfl

theorem foldl_pushEntry (chars : List Char) (list : StrList) :
    chars.foldl (fun list char => { list with data := pushBytes list.data char }) list =
      { list with data := list.data ++ utf8 chars } := by
  induction chars generalizing list with
  | nil => simp [utf8]
  | cons char chars ih =>
    rw [foldl_cons, ih, pushBytes, append_assoc]
    rfl

theorem accepted_eq_some_iff {σ : Type} {result : JsonCursor × σ} {final : Nat} {value : σ} :
    accepted result = some (final, value) ↔ result = (⟨final, true⟩, value) := by
  obtain ⟨⟨position, ok⟩, state⟩ := result
  cases ok <;> simp [accepted]

theorem drop_quote {position : Nat} (h : jsonAt data position = 34) :
    data.drop position = 34 :: data.drop (position + 1) := by
  have hinside : position < data.length := inside_of_jsonAt (by rw [h]; decide)
  rw [jsonAt, getD_eq_getElem?_getD, getElem?_eq_getElem hinside, Option.getD_some] at h
  rw [drop_eq_getElem_cons hinside, h]

theorem StringAt.quote {position final : Nat} {chars : List Char}
    (h : StringAt data position chars final) : jsonAt data position = 34 := by
  obtain ⟨rest, htext, -⟩ := h
  rw [jsonAt_eq, htext]
  rfl

theorem Reads.quoted_iff {σ : Type} {push : σ → Char → σ} {finish : σ → σ}
    {read : Nat → σ → Option (Nat × σ)} (h : Reads data push finish read) {position final : Nat}
    {result : σ} (quote : jsonAt data position = 34) (state : σ) :
    read (position + 1) state = some (final, result) ↔
      ∃ chars, StringAt data position chars final ∧ result = finish (chars.foldl push state) := by
  rw [h.eq_some_iff]
  constructor
  · rintro ⟨chars, hcontents, hinside, hresult⟩
    exact ⟨chars, ⟨_, drop_quote quote, hcontents, hinside⟩, hresult⟩
  · rintro ⟨chars, ⟨rest, htext, hcontents, hinside⟩, hresult⟩
    rw [drop_quote quote, List.cons.injEq] at htext
    rw [← htext.2] at hcontents
    exact ⟨chars, hcontents, hinside, hresult⟩

theorem advance_ok {count : Nat} (h : cursor.ok = true) :
    cursor.advance count = ⟨cursor.position + count, true⟩ := by
  rw [JsonCursor.advance, h]

/-- A reader of strings that looks for the quotation mark, and then runs a loop that reads the rest,
accepts the strings; and a cursor that failed is not mended. -/
theorem Reads.string_iff {σ : Type} {push : σ → Char → σ} {finish : σ → σ}
    (loop : JsonCursor → σ → JsonCursor × σ)
    (h : Reads data push finish fun position state => accepted (loop ⟨position, true⟩ state))
    (keeps : ∀ cursor state, (loop cursor state).1.ok = true → cursor.ok = true) (state : σ)
    {refused result : σ} {final : Nat} :
    (if jsonAt data cursor.position ≠ 34 then (cursor.fail, refused)
      else loop (cursor.advance 1) state) = (⟨final, true⟩, result) ↔
      cursor.ok = true ∧ ∃ chars, StringAt data cursor.position chars final ∧
        result = finish (chars.foldl push state) := by
  rcases Decidable.em (jsonAt data cursor.position = 34) with hquote | hquote
  · rw [if_neg (not_not.mpr hquote)]
    cases hcursor : cursor.ok with
    | true =>
      rw [advance_ok hcursor, ← accepted_eq_some_iff, and_iff_right rfl]
      exact h.quoted_iff hquote state
    | false =>
      refine iff_of_false (fun heq => ?_) fun hfalse => nomatch hfalse.1
      have hloop := keeps (cursor.advance 1) state (by rw [heq])
      rw [JsonCursor.advance_ok, hcursor] at hloop
      cases hloop
  · rw [if_pos hquote]
    refine iff_of_false (fun heq => nomatch heq) ?_
    rintro ⟨-, chars, hstring, -⟩
    exact hquote hstring.quote

/-- Parsing accepts exactly the strings, and returns their UTF-8 bytes. -/
theorem jsonParseString_iff {final : Nat} {out : Bytes} :
    jsonParseString data cursor = (⟨final, true⟩, out) ↔ cursor.ok = true ∧
      ∃ chars, StringAt data (jsonSkipWs data cursor).position chars final ∧ out = utf8 chars := by
  unfold jsonParseString
  dsimp only
  rw [(parseStringLoop_reads data).string_iff (parseStringLoop data)
    (fun _ => parseStringLoop_ok) [], jsonSkipWs_ok]
  simp only [foldl_pushBytes, nil_append, id]

/-- Skipping accepts exactly the strings. -/
theorem jsonSkipString_iff {final : Nat} :
    jsonSkipString data cursor = ⟨final, true⟩ ↔
      cursor.ok = true ∧ ∃ chars, StringAt data cursor.position chars final := by
  have hstring : (if jsonAt data cursor.position ≠ 34 then (cursor.fail, ())
      else (skipStringLoop data (cursor.advance 1), ())) = (⟨final, true⟩, ()) ↔ _ :=
    (skipStringLoop_reads data).string_iff (fun cursor _ => (skipStringLoop data cursor, ()))
      (fun _ _ => skipStringLoop_ok) ()
  rw [← apply_ite fun cursor => (cursor, ())] at hstring
  simpa [jsonSkipString] using hstring

def StrList.withEntry (list : StrList) (bytes : Bytes) : StrList :=
  ⟨list.data ++ bytes, list.starts ++ [list.data.length], list.lengths ++ [bytes.length]⟩

theorem closeEntry_eq (list : StrList) (bytes : Bytes) :
    closeEntry list.data.length { list with data := list.data ++ bytes } =
      list.withEntry bytes := by
  simp [closeEntry, StrList.withEntry]

theorem jsonTakeNull_false (null : (jsonTakeNull data cursor).2 = false) :
    (jsonTakeNull data cursor).1 = jsonSkipWs data cursor := by
  simp only [jsonTakeNull] at null ⊢
  split at null
  next h => rw [if_pos h]
  next => cases null

theorem jsonPushStringEntry_iff {list result : StrList} {final : Nat}
    (null : (jsonTakeNull data cursor).2 = false) :
    jsonPushStringEntry data cursor list = (⟨final, true⟩, result) ↔ cursor.ok = true ∧
      ∃ chars, StringAt data (jsonSkipWs data cursor).position chars final ∧
        result = list.withEntry (utf8 chars) := by
  unfold jsonPushStringEntry
  dsimp only
  rw [null, if_neg Bool.false_ne_true, jsonTakeNull_false null, jsonSkipWs_idem,
    (pushStringLoop_reads data list.data.length).string_iff (pushStringLoop data list.data.length)
      (fun _ => pushStringLoop_ok list.data.length) list, jsonSkipWs_ok]
  simp only [foldl_pushEntry, closeEntry_eq]

end Strings

/-! ## Lists -/

section Lists

variable {data : Bytes} {cursor : JsonCursor}

theorem eta_ok {cursor : JsonCursor} (h : cursor.ok = true) : cursor = ⟨cursor.position, true⟩ := by
  obtain ⟨position, ok⟩ := cursor
  cases h
  rfl

/-- A value of a list that is skipped. -/
def skipEntry (data : Bytes) (cursor : JsonCursor) : JsonCursor :=
  let null := jsonTakeNull data cursor
  if null.2 then null.1 else jsonSkipString data null.1

theorem jsonTakeNull_skipWs (data : Bytes) (cursor : JsonCursor) :
    jsonTakeNull data (jsonSkipWs data cursor) = jsonTakeNull data cursor := by
  rw [jsonTakeNull, jsonTakeNull, jsonSkipWs_idem]

/-- Skipping and reading an entry of a list accept the same, and end alike. -/
theorem entry_agrees (list : StrList) :
    (jsonPushStringEntry data cursor list).1.ok = (skipEntry data cursor).ok ∧
      ((skipEntry data cursor).ok = true →
        (jsonPushStringEntry data cursor list).1 = skipEntry data cursor) := by
  cases hnull : (jsonTakeNull data cursor).2 with
  | true => simp [jsonPushStringEntry, skipEntry, hnull]
  | false =>
    have hskip : skipEntry data cursor = jsonSkipString data (jsonSkipWs data cursor) := by
      simp [skipEntry, hnull, jsonTakeNull_false hnull]
    have hok := jsonSkipWs_ok data cursor
    rw [hskip]
    have hpush {final : Nat} {result : StrList}
        (h : jsonPushStringEntry data cursor list = (⟨final, true⟩, result)) :
        jsonSkipString data (jsonSkipWs data cursor) = ⟨final, true⟩ := by
      obtain ⟨hcursor, chars, hstring, -⟩ := (jsonPushStringEntry_iff hnull).mp h
      exact jsonSkipString_iff.mpr ⟨hok.trans hcursor, chars, hstring⟩
    have hback {final : Nat} (h : jsonSkipString data (jsonSkipWs data cursor) = ⟨final, true⟩) :
        (jsonPushStringEntry data cursor list).1 = ⟨final, true⟩ := by
      obtain ⟨hcursor, chars, hstring⟩ := jsonSkipString_iff.mp h
      rw [(jsonPushStringEntry_iff hnull).mpr ⟨hok.symm.trans hcursor, chars, hstring, rfl⟩]
    constructor
    · rw [Bool.eq_iff_iff]
      constructor
      · intro h
        rw [hpush (Prod.ext (eta_ok h) rfl)]
      · intro h
        rw [hback (eta_ok h)]
    · intro h
      rw [hback (eta_ok h), ← eta_ok h]

theorem skipListLoop_failed (h : cursor.ok = false) (first : Bool) :
    (skipListLoop data cursor first).ok = false := by
  rw [skipListLoop, h]
  rfl

theorem jsonTakeNull_skippedEntry (data : Bytes) (cursor : JsonCursor) (first : Bool) :
    jsonTakeNull data (skippedEntryCursor data cursor first) =
      jsonTakeNull data (entryCursor cursor first) := by
  cases first with
  | false => exact jsonTakeNull_skipWs data (cursor.advance 1)
  | true => rfl

theorem skipListLoop_eq (hok : cursor.ok = true) (first : Bool) :
    skipListLoop data cursor first =
      if jsonAt data (jsonSkipWs data cursor).position = 93 then (jsonSkipWs data cursor).advance 1
      else if !first && decide (jsonAt data (jsonSkipWs data cursor).position ≠ 44) then
        (jsonSkipWs data cursor).fail
      else
        skipListLoop data (skipEntry data (entryCursor (jsonSkipWs data cursor) first)) false := by
  rw [skipListLoop, if_pos hok]
  simp only [jsonTakeNull_skippedEntry, skipEntry, apply_ite (skipListLoop data · false)]

/-- So do the loops over a list. -/
theorem listLoops_agree (list : StrList) (first : Bool) :
    (readListLoop data cursor list first).1.ok = (skipListLoop data cursor first).ok ∧
      ((skipListLoop data cursor first).ok = true →
        (readListLoop data cursor list first).1 = skipListLoop data cursor first) := by
  fun_induction readListLoop data cursor list first with
  | case1 cursor list first hok here hclose =>
    rw [skipListLoop_eq hok, if_pos hclose]
    exact ⟨rfl, fun _ => rfl⟩
  | case2 cursor list first hok here hclose hcomma =>
    rw [skipListLoop_eq hok, if_neg hclose, if_pos hcomma]
    exact ⟨rfl, fun _ => rfl⟩
  | case3 cursor list first hok here hclose hcomma entry hfail =>
    have hentry : entry.1.ok = false := by simpa using hfail
    have hagrees := (@entry_agrees data (entryCursor here first) list).1
    have hskip : (skipListLoop data (skipEntry data (entryCursor here first)) false).ok = false :=
      skipListLoop_failed (hagrees.symm.trans hentry) false
    rw [skipListLoop_eq hok, if_neg hclose, if_neg hcomma, hskip]
    refine ⟨hentry, fun h => ?_⟩
    cases h
  | case4 cursor list first hok here hclose hcomma entry hfail ih =>
    have hentry : entry.1.ok = true := by simpa using hfail
    obtain ⟨hagrees, hcursor⟩ := @entry_agrees data (entryCursor here first) list
    rw [skipListLoop_eq hok, if_neg hclose, if_neg hcomma, ← hcursor (hagrees.symm.trans hentry)]
    exact ih
  | case5 cursor list first hok =>
    have hfailed : cursor.ok = false := by simpa using hok
    rw [skipListLoop_failed hfailed]
    refine ⟨hfailed, fun h => ?_⟩
    cases h

theorem lists_agree (data : Bytes) (cursor : JsonCursor) (list : StrList) :
    (jsonReadStringList data cursor list).1.ok = (jsonSkipStringList data cursor).ok ∧
      ((jsonSkipStringList data cursor).ok = true →
        (jsonReadStringList data cursor list).1 = jsonSkipStringList data cursor) := by
  simp only [jsonReadStringList, jsonSkipStringList, jsonTakeNull_skipWs]
  cases hnull : (jsonTakeNull data cursor).2 with
  | true => exact ⟨rfl, fun _ => rfl⟩
  | false =>
    simp only [jsonTakeNull_false hnull, jsonSkipWs_idem, Bool.false_eq_true, if_false]
    split
    next => exact ⟨rfl, fun _ => rfl⟩
    next => exact listLoops_agree list true

end Lists

end Elisa.ProjectSystem.Json
