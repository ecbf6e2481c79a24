import Elisa.Bytes
import Elisa.Lib.Utf8

/-!
# The strings of JSON

The contents of a string are a sequence of items, up to the closing quote (`Contents`).  An item
stands for a character: one of UTF-8 that needs no escape, an escape of one letter, a unit in four
hex digits, or a pair of surrogates.  A byte with which no character starts and a surrogate alone
stand for U+FFFD.

The head of a text that is neither over nor at a quote is an item or refused (`item_or_refused`).
So a function that closes at a quote, goes over items and fails otherwise accepts exactly the
contents of strings (`Reads.eq_some_iff`).
-/

namespace Elisa.ProjectSystem.Json

open Elisa.Lib Utf8 List

/-! ## Items -/

def escapeChar (letter : UInt8) : Option Char :=
  if letter = 34 then some '"'
  else if letter = 92 then some '\\'
  else if letter = 47 then some '/'
  else if letter = 98 then some (Char.ofNat 8)
  else if letter = 102 then some (Char.ofNat 12)
  else if letter = 110 then some '\n'
  else if letter = 114 then some '\r'
  else if letter = 116 then some '\t'
  else none

theorem escapeChar_cases {letter : UInt8} {char : Char} {motive : UInt8 → Char → Prop}
    (h : escapeChar letter = some char) (h34 : motive 34 '"') (h92 : motive 92 '\\')
    (h47 : motive 47 '/') (h98 : motive 98 (Char.ofNat 8)) (h102 : motive 102 (Char.ofNat 12))
    (h110 : motive 110 '\n') (h114 : motive 114 '\r') (h116 : motive 116 '\t') :
    motive letter char := by
  simp only [escapeChar, ite_eq_iff, Option.some.injEq, reduceCtorEq, and_false, or_false] at h
  obtain ⟨rfl, rfl⟩ | ⟨-, ⟨rfl, rfl⟩ | ⟨-, ⟨rfl, rfl⟩ | ⟨-, ⟨rfl, rfl⟩ | ⟨-, ⟨rfl, rfl⟩ |
    ⟨-, ⟨rfl, rfl⟩ | ⟨-, ⟨rfl, rfl⟩ | ⟨-, rfl, rfl⟩⟩⟩⟩⟩⟩⟩ := h
  all_goals assumption

theorem escapeChar_none {letter : UInt8} (h : escapeChar letter = none) :
    letter ≠ 34 ∧ letter ≠ 92 ∧ letter ≠ 47 ∧ letter ≠ 98 ∧ letter ≠ 102 ∧ letter ≠ 110 ∧
      letter ≠ 114 ∧ letter ≠ 116 := by
  simpa only [escapeChar, ite_eq_iff, reduceCtorEq, and_false, false_or, and_true] using h

def hexDigit? (byte : UInt8) : Option Nat :=
  if 48 ≤ byte ∧ byte ≤ 57 then some (byte.toNat - 48)
  else if 97 ≤ byte ∧ byte ≤ 102 then some (byte.toNat - 87)
  else if 65 ≤ byte ∧ byte ≤ 70 then some (byte.toNat - 55)
  else none

/-- Four hex digits and their number. -/
inductive HexUnit : Bytes → Nat → Prop where
  | intro {a b c d : UInt8} {w x y z : Nat} : hexDigit? a = some w → hexDigit? b = some x →
      hexDigit? c = some y → hexDigit? d = some z →
      HexUnit [a, b, c, d] (((w * 16 + x) * 16 + y) * 16 + z)

def IsHigh (unit : Nat) : Prop := 55296 ≤ unit ∧ unit ≤ 56319

def IsLow (unit : Nat) : Prop := 56320 ≤ unit ∧ unit ≤ 57343

def unitText (digits : Bytes) : Bytes := 92 :: 117 :: digits

def LowAhead (text : Bytes) : Prop :=
  ∃ digits unit rest, text = unitText digits ++ rest ∧ HexUnit digits unit ∧ IsLow unit

theorem pair_isValid {high low : Nat} (hhigh : IsHigh high) (hlow : IsLow low) :
    (65536 + (high - 55296) * 1024 + (low - 56320)).isValidChar := by
  obtain ⟨_, _⟩ := hhigh
  obtain ⟨_, _⟩ := hlow
  rw [Nat.isValidChar]
  omega

/-- An item at the head of a text, its character and the rest of the text. -/
inductive Item : Bytes → Char → Bytes → Prop where
  | char (char : Char) (rest : Bytes) : 32 ≤ char.toNat → char ≠ '"' → char ≠ '\\' →
      Item (encode char ++ rest) char rest
  | malformed (byte : UInt8) (rest : Bytes) : 128 ≤ byte →
      (∀ char, ¬ encode char <+: byte :: rest) → Item (byte :: rest) '\uFFFD' rest
  | escape {letter : UInt8} {char : Char} (rest : Bytes) : escapeChar letter = some char →
      Item (92 :: letter :: rest) char rest
  | unit {digits : Bytes} {unit : Nat} (rest : Bytes) (valid : unit.isValidChar) :
      HexUnit digits unit → Item (unitText digits ++ rest) (charOf unit valid) rest
  | pair {highDigits lowDigits : Bytes} {high low : Nat} (rest : Bytes) (hhigh : IsHigh high)
      (hlow : IsLow low) : HexUnit highDigits high → HexUnit lowDigits low →
      Item (unitText highDigits ++ (unitText lowDigits ++ rest))
        (charOf _ (pair_isValid hhigh hlow)) rest
  | lone {digits : Bytes} {unit : Nat} (rest : Bytes) : HexUnit digits unit → ¬ unit.isValidChar →
      ¬ (IsHigh unit ∧ LowAhead rest) → Item (unitText digits ++ rest) '\uFFFD' rest

/-- The contents of a string, its characters, and what stands behind the closing quote. -/
inductive Contents : Bytes → List Char → Bytes → Prop where
  | close (rest : Bytes) : Contents (34 :: rest) [] rest
  | item {text rest after : Bytes} {char : Char} {chars : List Char} : Item text char rest →
      Contents rest chars after → Contents text (char :: chars) after

/-- What no string can go on with. -/
inductive Refused : Bytes → Prop where
  | control {byte : UInt8} (rest : Bytes) : byte < 32 → Refused (byte :: rest)
  | short : Refused [92]
  | escape {letter : UInt8} (rest : Bytes) : escapeChar letter = none → letter ≠ 117 →
      Refused (92 :: letter :: rest)
  | unit (rest : Bytes) : (∀ digits unit after, rest = digits ++ after → ¬ HexUnit digits unit) →
      Refused (92 :: 117 :: rest)

section Items

variable {text rest : Bytes} {char : Char}

theorem item_or_refused {byte : UInt8} (quote : byte ≠ 34) :
    (∃ char after, Item (byte :: rest) char after) ∨ Refused (byte :: rest) := by
  rcases eq_or_ne byte 92 with rfl | hslash
  · cases rest with
    | nil => exact .inr .short
    | cons letter rest =>
      cases hletter : escapeChar letter with
      | some char => exact .inl ⟨char, rest, .escape rest hletter⟩
      | none =>
        rcases eq_or_ne letter 117 with rfl | hunit
        · rcases Classical.em (∃ digits unit after, rest = digits ++ after ∧ HexUnit digits unit)
            with ⟨digits, unit, after, rfl, hdigits⟩ | hnone
          · refine .inl ?_
            rcases Classical.em unit.isValidChar with hvalid | hsurrogate
            · exact ⟨_, after, .unit after hvalid hdigits⟩
            · rcases Classical.em (IsHigh unit ∧ LowAhead after) with ⟨hhigh, hlow⟩ | hlone
              · obtain ⟨lowDigits, low, final, rfl, hlowDigits, hlow⟩ := hlow
                exact ⟨_, final, .pair final hhigh hlow hdigits hlowDigits⟩
              · exact ⟨_, after, .lone after hdigits hsurrogate hlone⟩
          · refine .inr (.unit rest fun digits unit after heq hdigits => hnone ?_)
            exact ⟨digits, unit, after, heq, hdigits⟩
        · exact .inr (.escape rest hletter hunit)
  · rcases Nat.lt_or_ge byte.toNat 32 with hcontrol | hprint
    · exact .inr (.control rest (UInt8.lt_iff_toNat_lt.mpr hcontrol))
    refine .inl ?_
    rcases Nat.lt_or_ge byte.toNat 128 with hlt | hhigh
    · have hval : (charOf byte.toNat (.inl (by omega))).toNat = byte.toNat := rfl
      have hencode : encode (charOf byte.toNat (.inl (by omega))) = _ := encode_ascii hlt
      rw [hval, UInt8.ofNat_toNat] at hencode
      refine ⟨charOf byte.toNat (.inl (by omega)), rest, ?_⟩
      have hitem := Item.char (charOf byte.toNat (.inl (by omega))) rest
        hprint ?_ ?_
      · rwa [hencode] at hitem
      · intro h
        exact quote (UInt8.toNat_inj.mp (hval.symm.trans (congrArg Char.toNat h)))
      · intro h
        exact hslash (UInt8.toNat_inj.mp (hval.symm.trans (congrArg Char.toNat h)))
    · rcases Classical.em (∃ char, encode char <+: byte :: rest) with ⟨char, hprefix⟩ | hnone
      · obtain ⟨after, hafter⟩ := hprefix
        have hhead : ∀ code : UInt8, code < 128 → encode char ≠ [code] := by
          intro code hcode heq
          rw [heq, singleton_append, cons.injEq] at hafter
          rw [← hafter.1] at hhigh
          exact absurd hhigh (Nat.not_le_of_lt (UInt8.lt_iff_toNat_lt.mp hcode))
        have hlarge : 128 ≤ char.toNat := by
          by_contra hsmall
          have hlt : char.toNat < 128 := not_le.mp hsmall
          refine hhead _ ?_ (encode_ascii hlt)
          rw [UInt8.lt_iff_toNat_lt, UInt8.toNat_ofNat', Nat.mod_eq_of_lt (by omega)]
          exact hlt
        have hne (other : Char) (h : other.toNat < 128) : char ≠ other := by
          rintro rfl
          omega
        have hitem := Item.char char after (by omega) (hne '"' (by decide)) (hne '\\' (by decide))
        rw [hafter] at hitem
        exact ⟨char, after, hitem⟩
      · exact ⟨_, rest, .malformed byte rest (UInt8.le_iff_toNat_le.mpr hhigh) fun char h =>
          hnone ⟨char, h⟩⟩

theorem HexUnit.length_eq {digits : Bytes} {unit : Nat} (h : HexUnit digits unit) :
    digits.length = 4 := by
  cases h
  rfl

theorem Item.split (h : Item text char rest) : ∃ bytes, bytes ≠ [] ∧ text = bytes ++ rest := by
  cases h with
  | char => exact ⟨encode char, encode_ne_nil char, rfl⟩
  | malformed byte => exact ⟨[byte], cons_ne_nil _ _, rfl⟩
  | @escape letter => exact ⟨[92, letter], cons_ne_nil _ _, rfl⟩
  | @unit digits => exact ⟨unitText digits, cons_ne_nil _ _, rfl⟩
  | @pair highDigits lowDigits =>
    exact ⟨unitText highDigits ++ unitText lowDigits, cons_ne_nil _ _,
      (append_assoc ..).symm⟩
  | @lone digits => exact ⟨unitText digits, cons_ne_nil _ _, rfl⟩

end Items

/-! ## Readers -/

section Readers

variable {σ : Type} {data : Bytes} {push : σ → Char → σ} {finish : σ → σ}
  {read : Nat → σ → Option (Nat × σ)}

/-- A reader goes over items, ends at a quote, and fails otherwise. -/
structure Reads (data : Bytes) (push : σ → Char → σ) (finish : σ → σ)
    (read : Nat → σ → Option (Nat × σ)) : Prop where
  past : ∀ position state, data.drop position = [] → read position state = none
  close : ∀ position state rest, data.drop position = 34 :: rest →
    read position state = some (position + 1, finish state)
  item : ∀ position next state char, position ≤ next → next ≤ data.length →
    Item (data.drop position) char (data.drop next) →
      read position state = read next (push state char)
  refused : ∀ position state, Refused (data.drop position) → read position state = none

/-- Behind an item the text goes on at a position further on. -/
theorem Item.next {position : Nat} {char : Char} {rest : Bytes}
    (h : Item (data.drop position) char rest) :
    ∃ next, rest = data.drop next ∧ position < next ∧ next ≤ data.length := by
  obtain ⟨bytes, hne, hsplit⟩ := h.split
  have hlength := congrArg length hsplit
  have hpos := length_pos_iff.mpr hne
  rw [length_drop, length_append] at hlength
  refine ⟨position + bytes.length, ?_, by omega, by omega⟩
  rw [← drop_drop, hsplit, drop_left']
  rfl

theorem Reads.eq_some_iff (h : Reads data push finish read) {position final : Nat}
    {state result : σ} : read position state = some (final, result) ↔
      ∃ chars, Contents (data.drop position) chars (data.drop final) ∧
        final ≤ data.length ∧ result = finish (chars.foldl push state) := by
  constructor
  · intro hread
    induction hleft : data.length - position using Nat.strong_induction_on
      generalizing position state with
    | _ left ih =>
      subst hleft
      cases htext : data.drop position with
      | nil =>
        rw [h.past position state htext] at hread
        cases hread
      | cons byte rest =>
        have hlength := congrArg length htext
        rw [length_drop, length_cons] at hlength
        rcases eq_or_ne byte 34 with rfl | hquote
        · rw [h.close position state rest htext] at hread
          cases hread
          have hrest : data.drop (position + 1) = rest := by
            rw [← drop_drop, htext, drop_one, tail_cons]
          refine ⟨[], ?_, by omega, rfl⟩
          rw [hrest]
          exact .close rest
        · rcases @item_or_refused rest byte hquote with ⟨char, after, hitem⟩ | hrefused
          · rw [← htext] at hitem ⊢
            obtain ⟨next, rfl, hlt, hle⟩ := hitem.next
            rw [h.item position next state char hlt.le hle hitem] at hread
            obtain ⟨chars, hchars, hinside, hresult⟩ := ih _ (by omega) hread rfl
            exact ⟨char :: chars, .item hitem hchars, hinside, hresult⟩
          · rw [h.refused position state (htext ▸ hrefused)] at hread
            cases hread
  · rintro ⟨chars, hcontents, hle, rfl⟩
    generalize htext : data.drop position = text at hcontents
    generalize hafter : data.drop final = after at hcontents
    induction hcontents generalizing position state with
    | close rest =>
      have hlength := congrArg length htext
      have hlength' := congrArg length hafter
      rw [length_drop, length_cons] at hlength
      rw [length_drop] at hlength'
      rw [h.close position state rest htext, show position + 1 = final by omega]
      rfl
    | @item text rest after char chars hitem hchars ih =>
      subst htext
      obtain ⟨next, rfl, hlt, hinside⟩ := hitem.next
      rw [h.item position next state char hlt.le hinside hitem]
      exact ih rfl hafter

end Readers

end Elisa.ProjectSystem.Json
