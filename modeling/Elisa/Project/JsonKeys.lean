import Elisa.Project.JsonAgreement

/-!
# Keys

A key is compared without decoding it first: `jsonSpanIs` goes over the raw span and decodes as far
as a name of ASCII needs.  It agrees with the string that the span stands in, quoted anew
(`DecodesTo`), but for a quote or a control character in the span that is not escaped: the
comparison takes it as it is, and the string ends or fails there.  The contents of a string have
neither (`jsonSpanIs_iff`, `readers_agree`).
-/

namespace Elisa.ProjectSystem.Json

open Elisa.Lib Utf8 List

def DecodesTo (raw name : Bytes) : Prop :=
  jsonParseString (34 :: (raw ++ [34])) ⟨0, true⟩ = (⟨raw.length + 2, true⟩, name)

def Plain (name : Bytes) : Prop := ∀ byte ∈ name, byte ≠ 34 ∧ ¬ byte < 32

section Loops

variable {data : Bytes} {position stop code width : Nat} {name : Bytes}

theorem spanLoop_none (inside : position < stop) (h : spanCode data position stop false = none) :
    spanLoop data position stop name false = false := by
  rw [spanLoop, if_pos inside]
  split
  next => rfl
  next hcode => rw [h] at hcode; cases hcode

theorem spanLoop_some (inside : position < stop)
    (h : spanCode data position stop false = some (code, width)) :
    spanLoop data position stop name false = true ↔ code < 128 ∧ ∃ byte rest, name = byte :: rest ∧
      byte.toNat = code ∧ spanLoop data (position + width) stop rest false = true := by
  rw [spanLoop, if_pos inside]
  split
  next hcode => rw [h] at hcode; cases hcode
  rename_i code' width' hcode
  rw [h] at hcode
  cases hcode
  cases name with
  | nil => simp
  | cons byte rest =>
    rcases Nat.lt_or_ge code 128 with hlt | hge
    · rw [if_neg (Nat.not_le.mpr hlt)]
      rcases eq_or_ne code byte.toNat with heq | hne
      · simp [hlt, ← heq]
      · simp [hne, hne.symm]
    · rw [if_pos hge]
      simp [Nat.not_lt.mpr hge]

theorem spanLoop_over (above : ¬ position < stop) :
    spanLoop data position stop name false = name.isEmpty := by
  rw [spanLoop, if_neg above]

theorem parseStringLoop_extends {out result : Bytes} {final : Nat}
    (h : accepted (parseStringLoop data ⟨position, true⟩ out) = some (final, result)) :
    ∃ more, result = out ++ more := by
  obtain ⟨chars, -, -, hresult⟩ := (parseStringLoop_reads data).eq_some_iff.mp h
  rw [foldl_pushBytes] at hresult
  exact ⟨utf8 chars, hresult⟩

end Loops

/-! ## One step of both -/

/-- The quoted text of a span, at the positions of the span. -/
def quoted (data : Bytes) (stop : Nat) : Bytes := data.take stop ++ [34]

/-- A decoder of the quoted text. -/
def readQuoted (data : Bytes) (stop position : Nat) (out : Bytes) : Option (Nat × Bytes) :=
  accepted (parseStringLoop (quoted data stop) ⟨position, true⟩ out)

/-- What the comparison and a decoder of the quoted text do at a position. -/
inductive SpanStep (data : Bytes) (position stop : Nat) : Prop where
  /-- Both go over a character of ASCII, and so does a skip. -/
  | both (byte : UInt8) (width : Nat) : byte < 128 →
      spanCode data position stop false = some (byte.toNat, width) →
      (∀ out, readQuoted data stop position out =
        readQuoted data stop (position + width) (out ++ [byte])) →
      0 < width → position + width ≤ stop →
      skipStringLoop data ⟨position, true⟩ = skipStringLoop data ⟨position + width, true⟩ →
      SpanStep data position stop
  /-- Neither goes on to a name of ASCII. -/
  | neither : (∀ code width, spanCode data position stop false = some (code, width) → 128 ≤ code) →
      (∀ out name, (∀ byte ∈ name, byte < 128) →
        readQuoted data stop position out ≠ some (stop + 1, out ++ name)) →
      SpanStep data position stop
  /-- The comparison goes over a byte that must be escaped, and the string ends or fails. -/
  | raw (byte : UInt8) : byte = 34 ∨ byte < 32 →
      spanCode data position stop false = some (byte.toNat, 1) →
      (∀ out result, readQuoted data stop position out ≠ some (stop + 1, result)) →
      skipStringLoop data ⟨position, true⟩ ≠ ⟨stop + 1, true⟩ → SpanStep data position stop

section Steps

variable {data rest : Bytes} {position stop : Nat} {byte : UInt8}

theorem quoted_drop (inside : position ≤ stop) (hstop : stop ≤ data.length) :
    (quoted data stop).drop position = (data.take stop).drop position ++ [34] := by
  rw [quoted, drop_append_of_le_length]
  rw [length_take]
  omega

theorem data_drop (inside : position ≤ stop) (hstop : stop ≤ data.length) :
    data.drop position = (data.take stop).drop position ++ data.drop stop := by
  conv_lhs => rw [← take_append_drop stop data]
  rw [drop_append_of_le_length]
  rw [length_take]
  omega

theorem readQuoted_fail {final : JsonCursor} (hfinal : final.ok = false)
    (h : decodeStep (quoted data stop) ⟨position, true⟩ = .fail final) (out : Bytes) :
    readQuoted data stop position out = none := by
  rw [readQuoted, parseStringLoop_step, h]
  simp [DecodeStep.run, accepted, hfinal]

theorem readQuoted_push {next : Nat} {bytes : Bytes}
    (h : decodeStep (quoted data stop) ⟨position, true⟩ = .push ⟨next, true⟩ bytes) (out : Bytes) :
    readQuoted data stop position out = readQuoted data stop next (out ++ bytes) := by
  rw [readQuoted, parseStringLoop_step, h]
  rfl

theorem readQuoted_high {next : JsonCursor} {bytes more : Bytes} (hnext : next.ok = true)
    (h : decodeStep (quoted data stop) ⟨position, true⟩ = .push next bytes)
    (hbytes : bytes = byte :: more) (hhigh : ¬ byte < 128) (out name : Bytes)
    (ascii : ∀ byte ∈ name, byte < 128) :
    readQuoted data stop position out ≠ some (stop + 1, out ++ name) := by
  rw [eta_ok hnext] at h
  rw [readQuoted_push h, hbytes]
  intro hread
  obtain ⟨tail, htail⟩ := parseStringLoop_extends hread
  rw [append_assoc, append_cancel_left_eq] at htail
  exact hhigh (ascii byte (by simp [htail]))

theorem jsonPushUtf8_high {code : Nat} (low : 128 ≤ code) (high : code < 1114112) :
    ∃ byte more, jsonPushUtf8 [] code = byte :: more ∧ ¬ byte < 128 := by
  have hhead (n : Nat) (h : 128 ≤ n) (h' : n < 256) : ¬ UInt8.ofNat n < 128 := by
    rw [UInt8.lt_iff_toNat_lt, UInt8.toNat_ofNat', Nat.mod_eq_of_lt h']
    exact Nat.not_lt.mpr h
  rw [jsonPushUtf8, if_neg (Nat.not_lt.mpr low)]
  split
  next => exact ⟨_, _, rfl, hhead _ (by omega) (by omega)⟩
  split
  next => exact ⟨_, _, rfl, hhead _ (by omega) (by omega)⟩
  next => exact ⟨_, _, rfl, hhead _ (by omega) (by omega)⟩

theorem jsonUnicodeEscapeScalar_high (data : Bytes) (cursor : JsonCursor) {unit : Nat}
    (low : 128 ≤ unit) (high : unit < 65536) :
    128 ≤ (jsonUnicodeEscapeScalar data cursor unit).2.toNat ∧
      (jsonUnicodeEscapeScalar data cursor unit).2.toNat < 1114112 := by
  simp only [jsonUnicodeEscapeScalar]
  split_ifs <;> simp only <;> omega

theorem span_step_byte (inside : position < stop) (hstop : stop ≤ data.length)
    (hdata : data.drop position = byte :: rest)
    (hquoted : ∃ more, (quoted data stop).drop position = byte :: more) (slash : byte ≠ 92) :
    SpanStep data position stop := by
  obtain ⟨more, hquoted⟩ := hquoted
  have hbyte : jsonAt data position = byte := by
    rw [jsonAt_eq, hdata]
    rfl
  have hcode : spanCode data position stop false = some (byte.toNat, 1) := by
    simp [spanCode, hbyte, slash]
  rcases eq_or_ne byte 34 with rfl | hquote
  · refine .raw 34 (.inl rfl) hcode ?_ ?_
    · intro out result h
      rw [readQuoted, parseStringLoop_step, decodeStep_close hquoted] at h
      have heq : position + 1 = stop + 1 := congrArg Prod.fst (Option.some.inj h)
      omega
    · rw [skipStringLoop_close hdata]
      intro h
      cases h
      omega
  rcases Decidable.em (byte < 32) with hcontrol | hcontrol
  · refine .raw byte (.inr hcontrol) hcode ?_ ?_
    · intro out result h
      rw [readQuoted_fail rfl (by rw [decodeStep_byte hquoted hquote slash, if_pos hcontrol])] at h
      cases h
    · rw [skipStringLoop_byte hdata hquote slash, if_pos hcontrol]
      intro h
      cases h
  rcases Decidable.em (byte < 128) with hascii | hhigh
  · refine .both byte 1 hascii hcode ?_ Nat.one_pos inside ?_
    · intro out
      rw [readQuoted_push
        (by rw [decodeStep_byte hquoted hquote slash, if_neg hcontrol, if_pos hascii])]
    · rw [skipStringLoop_byte hdata hquote slash, if_neg hcontrol]
  refine .neither ?_ ?_
  · intro code width h
    rw [hcode] at h
    cases h
    exact Nat.not_lt.mp fun h => hhigh (UInt8.lt_iff_toNat_lt.mpr h)
  have hstep := decodeStep_byte hquoted hquote slash
  rw [if_neg hcontrol, if_neg hhigh] at hstep
  simp only at hstep
  split at hstep
  next =>
    obtain ⟨head, tail, hpush, hhead⟩ := @jsonPushUtf8_high 65533 (by decide) (by decide)
    exact readQuoted_high rfl hstep hpush hhead
  rename_i hwidth
  obtain ⟨width, hwidth⟩ := Nat.exists_eq_succ_of_ne_zero hwidth
  have hhead : jsonAt (quoted data stop) (position + 0) = byte := by
    rw [jsonAt_add, hquoted]
    rfl
  have hbytes : ∃ tail, jsonPushRawUtf8 [] (quoted data stop) position
      (jsonRawUtf8Width (quoted data stop) position (quoted data stop).length) = byte :: tail := by
    refine ⟨(List.range width).map fun offset =>
      jsonAt (quoted data stop) (position + (offset + 1)), ?_⟩
    rw [hwidth, jsonPushRawUtf8, range_succ_eq_map, map_cons, hhead, map_map]
    rfl
  obtain ⟨tail, hbytes⟩ := hbytes
  exact readQuoted_high rfl hstep hbytes hhigh

theorem escapeChar_ascii {letter : UInt8} {char : Char} (h : escapeChar letter = some char) :
    char.toNat < 128 := by
  apply escapeChar_cases h <;> decide

theorem spanEscape_letter {letter : UInt8} {char : Char} (hletter : escapeChar letter = some char)
    (h : jsonAt data (position + 1) = letter) (room : position + 2 ≤ stop) :
    spanEscape data position stop false = some (char.toNat, 2) := by
  simp only [spanEscape, h]
  clear h
  rw [if_neg (by omega)]
  apply escapeChar_cases hletter <;> rfl

theorem spanEscape_none {letter : UInt8} (hletter : escapeChar letter = none) (hunit : letter ≠ 117)
    (h : jsonAt data (position + 1) = letter) : spanEscape data position stop false = none := by
  simp only [spanEscape, h]
  rcases Nat.lt_or_ge (stop - position) 2 with hshort | hlong
  · rw [if_pos hshort]
  obtain ⟨h34, h92, h47, h98, h102, h110, h114, h116⟩ := escapeChar_none hletter
  rw [if_neg (Nat.not_lt.mpr hlong), if_neg (by simp [h34, h92, h47]), if_neg h98, if_neg h102,
    if_neg h110, if_neg h114, if_neg h116, if_neg hunit]

theorem spanEscape_unit (h : jsonAt data (position + 1) = 117) (room : position + 2 ≤ stop) :
    spanEscape data position stop false = spanUnicode data position stop false := by
  simp only [spanEscape, h]
  rw [if_neg (by omega), if_neg (by decide), if_neg (by decide), if_neg (by decide),
    if_neg (by decide), if_neg (by decide), if_neg (by decide), if_pos trivial]

theorem HexUnit.ne_append_quote {digits text : Bytes} {unit : Nat} (h : HexUnit digits unit) :
    digits ≠ text ++ [34] := by
  cases h with
  | @intro a b c d _ _ _ _ _ _ _ hd =>
    intro heq
    have hlast : d = 34 := by simpa using congrArg List.getLast? heq
    rw [hlast] at hd
    cases hd

theorem span_step_unit (inside : position < stop) {text : Bytes}
    (hcode : spanCode data position stop false = spanUnicode data position stop false)
    (hdata : data.drop position = 92 :: 117 :: (text ++ data.drop stop))
    (hquoted : (quoted data stop).drop position = 92 :: 117 :: (text ++ [34]))
    (hlength : text.length + 2 = stop - position) : SpanStep data position stop := by
  have hdigits : data.drop (position + 2) = text ++ data.drop stop := by
    rw [← drop_drop, hdata]
    rfl
  rcases Classical.em (∃ digits unit after, text ++ [34] = digits ++ after ∧ HexUnit digits unit)
    with ⟨digits, unit, after, htext, hunit⟩ | hnone
  · have hfour := hunit.length_eq
    -- The quote is no digit, so that the digits stand in the span.
    have hroom : digits.length ≤ text.length := by
      by_contra hshort
      have hlen := congrArg List.length htext
      rw [length_append, length_append, length_singleton] at hlen
      have hnil : after = [] := eq_nil_of_length_eq_zero (by omega)
      rw [hnil, append_nil] at htext
      exact hunit.ne_append_quote htext.symm
    obtain ⟨behind, rfl⟩ : ∃ behind, text = digits ++ behind := by
      refine (prefix_of_prefix_length_le ?_ (prefix_append text [34]) hroom).imp
        fun _ h => h.symm
      rw [htext]
      exact prefix_append digits after
    have hspan : spanUnicode data position stop false =
        if unit ≥ 128 then none else some (unit, 6) := by
      have hnonneg : ¬ (unit : Int) < 0 := Int.not_lt.mpr (Int.natCast_nonneg unit)
      rw [length_append] at hlength
      rw [spanUnicode, if_neg (by omega), jsonHex4_unit (hdigits.trans (append_assoc ..)) hunit]
      simp only [hnonneg, Bool.false_and, Bool.false_eq_true, if_false,
        ge_iff_le, Int.toNat_natCast]
      norm_cast
    rw [append_assoc] at hdata hquoted
    have hstep := decodeStep_unit hquoted hunit
    have hsmall := hunit.small
    rcases Nat.lt_or_ge unit 128 with hascii | hhigh
    · have hvalid : unit.isValidChar := .inl (by omega)
      have hval : (UInt8.ofNat unit).toNat = unit := by
        rw [UInt8.toNat_ofNat', Nat.mod_eq_of_lt (by omega)]
      rw [scalar_valid _ hvalid] at hstep
      simp only [Int.toNat_natCast, jsonPushUtf8, if_pos hascii, nil_append] at hstep
      rw [length_append] at hlength
      refine .both (UInt8.ofNat unit) 6 ?_ ?_ ?_ (by omega) (by omega) ?_
      · rw [UInt8.lt_iff_toNat_lt, hval]
        exact hascii
      · rw [hcode, hspan, if_neg (Nat.not_le.mpr hascii), hval]
      · exact readQuoted_push hstep
      · exact skipStringLoop_unit hdata hunit
    · refine .neither ?_ ?_
      · intro code width h
        rw [hcode, hspan, if_pos hhigh] at h
        cases h
      · obtain ⟨hlow, hbound⟩ :=
          jsonUnicodeEscapeScalar_high (quoted data stop) ⟨position + 6, true⟩ hhigh hsmall
        obtain ⟨head, tail, hpush, hhead⟩ := jsonPushUtf8_high hlow hbound
        exact readQuoted_high (jsonUnicodeEscapeScalar_ok _ _ _) hstep hpush hhead
  · refine .neither ?_ ?_
    · intro code width h
      rw [hcode, spanUnicode] at h
      rcases Nat.lt_or_ge (stop - position) 6 with hshort | hlong
      · rw [if_pos hshort] at h
        cases h
      have hneg : jsonHex4 data (position + 2) < 0 := by
        refine jsonHex4_neg fun digits unit after hafter hunit => hnone ?_
        have hfour := hunit.length_eq
        obtain ⟨behind, rfl⟩ : ∃ behind, text = digits ++ behind := by
          refine (prefix_of_prefix_length_le ?_
            (prefix_append text (data.drop stop)) (by omega)).imp fun _ h => h.symm
          rw [← hdigits, hafter]
          exact prefix_append digits after
        exact ⟨digits, unit, behind ++ [34], append_assoc .., hunit⟩
      simp only [if_neg (Nat.not_lt.mpr hlong), if_pos hneg] at h
      cases h
    · intro out name _ h
      have hrefused : Refused ((quoted data stop).drop position) := by
        rw [hquoted]
        exact .unit _ fun digits unit after heq hunit => hnone ⟨digits, unit, after, heq, hunit⟩
      obtain ⟨final, hfail⟩ := decodeStep_refused hrefused
      rw [readQuoted_fail rfl hfail] at h
      cases h

theorem span_step_slash (inside : position < stop) {text : Bytes}
    (hdata : data.drop position = 92 :: (text ++ data.drop stop))
    (hquoted : (quoted data stop).drop position = 92 :: (text ++ [34]))
    (hlength : text.length + 1 = stop - position) : SpanStep data position stop := by
  have hbyte : jsonAt data position = 92 := by
    rw [jsonAt_eq, hdata]
    rfl
  have hcode : spanCode data position stop false = spanEscape data position stop false := by
    simp only [spanCode, hbyte, if_true]
  cases text with
  | nil =>
    -- The backslash escapes the closing quote.
    rw [length_nil] at hlength
    refine .neither ?_ ?_
    · intro code width h
      rw [hcode, spanEscape, if_pos (by omega)] at h
      cases h
    intro out name _ h
    rw [readQuoted_push (decodeStep_escape hquoted rfl), readQuoted, parseStringLoop_step,
      decodeStep_over] at h
    · cases h
    · rw [← drop_drop, hquoted]
      rfl
  | cons letter text =>
    rw [length_cons] at hlength
    have hletter : jsonAt data (position + 1) = letter := by
      rw [jsonAt_add, hdata]
      rfl
    cases hescape : escapeChar letter with
    | some char =>
      have hascii := escapeChar_ascii hescape
      have hval : (UInt8.ofNat char.toNat).toNat = char.toNat := by
        rw [UInt8.toNat_ofNat', Nat.mod_eq_of_lt (by omega)]
      refine .both (UInt8.ofNat char.toNat) 2 ?_ ?_ ?_ Nat.two_pos (by omega) ?_
      · rw [UInt8.lt_iff_toNat_lt, hval]
        exact hascii
      · rw [hcode, spanEscape_letter hescape hletter (by omega), hval]
      · intro out
        rw [readQuoted_push (decodeStep_escape hquoted hescape), encode_ascii hascii]
      · rw [skipStringLoop_slash hdata]
        simp only [cons_append, getD_cons_zero, length_cons]
        rw [if_neg (by omega), if_pos (escapeChar_some hescape)]
    | none =>
      rcases eq_or_ne letter 117 with rfl | hunit
      · rw [spanEscape_unit hletter (by omega)] at hcode
        exact span_step_unit inside hcode hdata hquoted (by omega)
      refine .neither ?_ ?_
      · intro code width h
        rw [hcode, spanEscape_none hescape hunit hletter] at h
        cases h
      intro out name _ h
      have hrefused : Refused ((quoted data stop).drop position) := by
        rw [hquoted]
        exact .escape _ hescape hunit
      obtain ⟨final, hfail⟩ := decodeStep_refused hrefused
      rw [readQuoted_fail rfl hfail] at h
      cases h

theorem span_step (inside : position < stop) (hstop : stop ≤ data.length) :
    SpanStep data position stop := by
  have hdata := data_drop inside.le hstop
  have hquoted := quoted_drop inside.le hstop
  have hlength : ((data.take stop).drop position).length = stop - position := by
    rw [length_drop, length_take, Nat.min_eq_left hstop]
  cases htext : (data.take stop).drop position with
  | nil =>
    rw [htext, length_nil] at hlength
    omega
  | cons byte text =>
    rw [htext] at hdata hquoted hlength
    rw [length_cons] at hlength
    rw [cons_append] at hdata hquoted
    rcases eq_or_ne byte 92 with rfl | hslash
    · exact span_step_slash inside hdata hquoted hlength
    · exact span_step_byte inside hstop hdata ⟨text ++ [34], hquoted⟩ hslash

theorem spanLoop_iff {name : Bytes} (inside : position ≤ stop) (hstop : stop ≤ data.length)
    (ascii : ∀ byte ∈ name, byte < 128)
    (closed : Plain name ∨ skipStringLoop data ⟨position, true⟩ = ⟨stop + 1, true⟩) (out : Bytes) :
    spanLoop data position stop name false = true ↔
      readQuoted data stop position out = some (stop + 1, out ++ name) := by
  induction hleft : stop - position using Nat.strong_induction_on
    generalizing position name out with
  | _ left ih =>
    subst hleft
    rcases Nat.lt_or_ge position stop with hlt | hge
    · rcases span_step hlt hstop with ⟨byte, width, hbyte, hcode, hread, hpos, hle, hskip⟩ |
        ⟨hcode, hread⟩ | ⟨byte, hraw, hcode, hread, hskip⟩
      · rw [spanLoop_some hlt hcode, hread]
        rw [UInt8.lt_iff_toNat_lt] at hbyte
        constructor
        · rintro ⟨-, head, rest, rfl, hhead, hrest⟩
          obtain rfl := UInt8.toNat_inj.mp hhead
          have hclosed : Plain rest ∨
              skipStringLoop data ⟨position + width, true⟩ = ⟨stop + 1, true⟩ :=
            closed.imp (fun h b hb => h b (mem_cons_of_mem _ hb)) hskip.symm.trans
          rw [(ih _ (by omega) hle (fun b hb => ascii b (mem_cons_of_mem _ hb)) hclosed
            (out ++ [head]) rfl).mp hrest, append_assoc]
          rfl
        · intro h
          obtain ⟨rest, hrest⟩ := parseStringLoop_extends h
          rw [append_assoc, append_cancel_left_eq] at hrest
          subst hrest
          have hclosed : Plain rest ∨
              skipStringLoop data ⟨position + width, true⟩ = ⟨stop + 1, true⟩ :=
            closed.imp (fun h b hb => h b (mem_cons_of_mem _ hb)) hskip.symm.trans
          refine ⟨hbyte, byte, rest, rfl, rfl, ?_⟩
          refine (ih _ (by omega) hle (fun b hb => ascii b (mem_cons_of_mem _ hb)) hclosed
            (out ++ [byte]) rfl).mpr ?_
          rw [h, append_assoc]
          rfl
      · refine iff_of_false ?_ (hread out name ascii)
        cases hspan : spanCode data position stop false with
        | none => simp [spanLoop_none hlt hspan]
        | some result =>
          rw [spanLoop_some hlt hspan]
          rintro ⟨hlow, -⟩
          exact absurd (hcode _ _ hspan) (Nat.not_le.mpr hlow)
      · refine iff_of_false ?_ (hread out _)
        rw [spanLoop_some hlt hcode]
        rintro ⟨-, head, rest, rfl, hhead, -⟩
        obtain rfl := UInt8.toNat_inj.mp hhead
        rcases closed with hplain | hclosed
        · obtain ⟨hquote, hcontrol⟩ := hplain head mem_cons_self
          exact hraw.elim hquote hcontrol
        · exact hskip hclosed
    · obtain rfl : position = stop := Nat.le_antisymm inside hge
      have hclose : (quoted data position).drop position = 34 :: [] := by
        rw [quoted_drop inside hstop, drop_take_self]
        rfl
      rw [spanLoop_over (Nat.lt_irrefl _), readQuoted, parseStringLoop_step,
        decodeStep_close hclose]
      cases name <;> simp [DecodeStep.run, accepted]

end Steps

/-! ## Spans -/

section Spans

variable {data name : Bytes} {start length : Nat}

def SpanOfString (data : Bytes) (start length : Nat) : Prop :=
  ∃ quote, start = quote + 1 ∧ jsonSkipString data ⟨quote, true⟩ = ⟨start + length + 1, true⟩

theorem SpanOfString.closed (h : SpanOfString data start length) :
    skipStringLoop data ⟨start, true⟩ = ⟨start + length + 1, true⟩ := by
  obtain ⟨quote, rfl, hskip⟩ := h
  rw [jsonSkipString] at hskip
  split at hskip
  next => cases hskip
  next => exact hskip

theorem decodesTo_iff {raw : Bytes} :
    DecodesTo raw name ↔ ∃ chars, Contents (raw ++ [34]) chars [] ∧ name = utf8 chars := by
  have hskip : jsonSkipWs (34 :: (raw ++ [34])) ⟨0, true⟩ = ⟨0, true⟩ := by
    rw [jsonSkipWs]
    simp only [length_cons, Nat.succ_pos, if_true]
    rfl
  have hend : (34 :: (raw ++ [34])).drop (raw.length + 2) = [] :=
    drop_eq_nil_iff.mpr (by simp)
  rw [DecodesTo, jsonParseString_iff, hskip]
  constructor
  · rintro ⟨-, chars, ⟨rest, htext, hcontents, -⟩, hname⟩
    cases htext
    rw [hend] at hcontents
    exact ⟨chars, hcontents, hname⟩
  · rintro ⟨chars, hcontents, hname⟩
    refine ⟨rfl, chars, ⟨_, rfl, ?_, by simp⟩, hname⟩
    rw [hend]
    exact hcontents

theorem readQuoted_iff (inside : start + length ≤ data.length) :
    readQuoted data (start + length) start [] = some (start + length + 1, name) ↔
      DecodesTo ((data.drop start).take length) name := by
  have hraw : (data.take (start + length)).drop start = (data.drop start).take length := by
    rw [drop_take, Nat.add_sub_cancel_left]
  have hlength : (quoted data (start + length)).length = start + length + 1 := by
    rw [quoted, length_append, length_take, Nat.min_eq_left inside, length_singleton]
  have hend : (quoted data (start + length)).drop (start + length + 1) = [] :=
    drop_eq_nil_iff.mpr hlength.le
  have hreads : readQuoted data (start + length) start [] = some (start + length + 1, name) ↔ _ :=
    (parseStringLoop_reads (quoted data (start + length))).eq_some_iff
  rw [hreads, decodesTo_iff, hend, hlength, quoted_drop (Nat.le_add_right _ _) inside, hraw]
  simp only [foldl_pushBytes, nil_append, id, Nat.le_refl, true_and]

/-- A key is compared as if it were decoded, unless a byte that must be escaped stands in the span
as it is and the name has it. -/
theorem jsonSpanIs_iff (ascii : ∀ byte ∈ name, byte < 128)
    (closed : Plain name ∨ SpanOfString data start length) :
    jsonSpanIs data start length name = true ↔
      start + length ≤ data.length ∧ DecodesTo ((data.drop start).take length) name := by
  rw [jsonSpanIs, jsonSpanIsMode]
  rcases Nat.lt_or_ge data.length (start + length) with hout | hinside
  · rw [if_pos (by omega)]
    refine iff_of_false Bool.false_ne_true ?_
    rintro ⟨hle, -⟩
    omega
  · have hclosed := closed.imp_right SpanOfString.closed
    rw [if_neg (by omega), ← readQuoted_iff hinside,
      spanLoop_iff (Nat.le_add_right _ _) hinside ascii hclosed []]
    simp [hinside]

end Spans

/-! ## All readers -/

/-- The readers of strings and lists over the bytes of a file. -/
structure ReadersAgree (data : Bytes) : Prop where
  /-- What is decoded is a string, and its bytes are those of its characters. -/
  decoded : ∀ cursor final out, jsonParseString data cursor = (⟨final, true⟩, out) ↔
    cursor.ok = true ∧
      ∃ chars, StringAt data (jsonSkipWs data cursor).position chars final ∧ out = utf8 chars
  /-- The same strings are skipped, where the whitespace before them has been. -/
  skipped : ∀ cursor final, jsonSkipString data (jsonSkipWs data cursor) = ⟨final, true⟩ ↔
    ∃ out, jsonParseString data cursor = (⟨final, true⟩, out)
  /-- The same bytes are the entry of a list. -/
  pushed : ∀ cursor list final result, (jsonTakeNull data cursor).2 = false →
    (jsonPushStringEntry data cursor list = (⟨final, true⟩, result) ↔
      ∃ out, jsonParseString data cursor = (⟨final, true⟩, out) ∧ result = list.withEntry out)
  /-- A key is compared as if it were decoded. -/
  compared : ∀ start length name, (∀ byte ∈ name, byte < 128) →
    Plain name ∨ SpanOfString data start length →
      (jsonSpanIs data start length name = true ↔
        start + length ≤ data.length ∧ DecodesTo ((data.drop start).take length) name)
  /-- The same lists are read and skipped. -/
  lists : ∀ cursor list final, (jsonReadStringList data cursor list).1 = ⟨final, true⟩ ↔
    jsonSkipStringList data cursor = ⟨final, true⟩

theorem readers_agree (data : Bytes) : ReadersAgree data where
  decoded cursor final out := jsonParseString_iff
  skipped cursor final := by
    simp only [jsonSkipString_iff, jsonParseString_iff, jsonSkipWs_ok]
    constructor
    · rintro ⟨hok, chars, hstring⟩
      exact ⟨utf8 chars, hok, chars, hstring, rfl⟩
    · rintro ⟨_, hok, chars, hstring, -⟩
      exact ⟨hok, chars, hstring⟩
  pushed cursor list final result null := by
    simp only [jsonPushStringEntry_iff null, jsonParseString_iff]
    constructor
    · rintro ⟨hok, chars, hstring, hresult⟩
      exact ⟨utf8 chars, ⟨hok, chars, hstring, rfl⟩, hresult⟩
    · rintro ⟨_, ⟨hok, chars, hstring, rfl⟩, hresult⟩
      exact ⟨hok, chars, hstring, hresult⟩
  compared start length name ascii closed := jsonSpanIs_iff ascii closed
  lists cursor list final := by
    obtain ⟨hok, hcursor⟩ := lists_agree data cursor list
    constructor
    · intro h
      rw [h] at hok
      rw [← hcursor hok.symm, h]
    · intro h
      rw [hcursor (by rw [h]), h]

/-- A string and a list that are read, and a key that is compared. -/
theorem readers_agree_text :
    jsonSkipString (ascii "[\"a\"]") (jsonSkipWs (ascii "[\"a\"]") ⟨1, true⟩) = ⟨4, true⟩ ∧
      jsonSpanIs (ascii "[\"a\"]") 2 1 (ascii "a") = true ∧
      (jsonReadStringList (ascii "[\"a\"]") ⟨0, true⟩ ⟨[], [], []⟩).1 = ⟨5, true⟩ := by
  refine ⟨?_, ?_, ?_⟩
  · exact ((readers_agree (ascii "[\"a\"]")).skipped ⟨1, true⟩ 4).mpr ⟨ascii "a", by decide +kernel⟩
  · exact ((readers_agree (ascii "[\"a\"]")).compared 2 1 (ascii "a")
      (by decide +kernel) (.inl (by unfold Plain; decide +kernel))).mpr
        ⟨by decide, by unfold DecodesTo; decide +kernel⟩
  · exact ((readers_agree (ascii "[\"a\"]")).lists ⟨0, true⟩ ⟨[], [], []⟩ 5).mpr (by decide +kernel)

/-- Only the decoder skips whitespace first, and a quote in a span is taken for itself. -/
theorem readers_differ :
    jsonParseString (ascii " \"a\"") ⟨0, true⟩ = (⟨4, true⟩, ascii "a") ∧
      jsonSkipString (ascii " \"a\"") ⟨0, true⟩ = ⟨0, false⟩ ∧
      jsonSpanIs (ascii "\"") 0 1 (ascii "\"") = true ∧ ¬ DecodesTo (ascii "\"") (ascii "\"") := by
  refine ⟨by decide +kernel, by decide +kernel, by decide +kernel, ?_⟩
  unfold DecodesTo
  decide +kernel

end Elisa.ProjectSystem.Json
