import Mathlib.Data.List.Basic
import Mathlib.Tactic.IntervalCases

/-!
# The sequences of UTF-8

The bytes of a character are one of nine kinds of sequences, told apart by their first byte
(`IsSequence`). All others are between 128 and 191, and after some first bytes the second one is
restricted further: it would be a longer form, a surrogate or beyond the last character.  These are
the encodings of the characters (`isSequence_encode`, `IsSequence.exists_char`).
-/

namespace Elisa.Lib.Utf8

abbrev encode (c : Char) : List UInt8 := String.utf8EncodeChar c

/-- A byte behind the first one. -/
def IsTail (byte : UInt8) : Prop := 128 ≤ byte ∧ byte ≤ 191

instance (byte : UInt8) : Decidable (IsTail byte) := inferInstanceAs (Decidable (_ ∧ _))

inductive IsSequence : List UInt8 → Prop where
  | one {a : UInt8} : a < 128 → IsSequence [a]
  | two {a b : UInt8} : 194 ≤ a → a ≤ 223 → IsTail b → IsSequence [a, b]
  /-- Shorter sequences stand for the values below. -/
  | threeLow {b c : UInt8} : 160 ≤ b → b ≤ 191 → IsTail c → IsSequence [224, b, c]
  | three {a b c : UInt8} : 225 ≤ a → a ≤ 239 → a ≠ 237 → IsTail b → IsTail c →
      IsSequence [a, b, c]
  /-- The values above are surrogates. -/
  | threeSurrogate {b c : UInt8} : 128 ≤ b → b ≤ 159 → IsTail c → IsSequence [237, b, c]
  | fourLow {b c d : UInt8} : 144 ≤ b → b ≤ 191 → IsTail c → IsTail d → IsSequence [240, b, c, d]
  | four {a b c d : UInt8} : 241 ≤ a → a ≤ 243 → IsTail b → IsTail c → IsTail d →
      IsSequence [a, b, c, d]
  /-- There are no characters above. -/
  | fourHigh {b c d : UInt8} : 128 ≤ b → b ≤ 143 → IsTail c → IsTail d → IsSequence [244, b, c, d]

section Arithmetic

variable {n : Nat}

def charOf (n : Nat) (h : n.isValidChar) : Char := Char.ofNatAux n h

theorem charOf_toNat (h : n.isValidChar) : (charOf n h).val.toNat = n := rfl

theorem encode_one {c : Char} (h : c.val.toNat = n) (high : n ≤ 127) :
    encode c = [UInt8.ofNat n] := by
  subst h
  exact if_pos high

theorem encode_two {c : Char} (h : c.val.toNat = n) (low : 127 < n) (high : n ≤ 2047) :
    encode c = [UInt8.ofNat (n / 64 % 32 + 192), UInt8.ofNat (n % 64 + 128)] := by
  subst h
  exact (if_neg (not_le.mpr low)).trans (if_pos high)

theorem encode_three {c : Char} (h : c.val.toNat = n) (low : 2047 < n) (high : n ≤ 65535) :
    encode c = [UInt8.ofNat (n / 4096 % 16 + 224), UInt8.ofNat (n / 64 % 64 + 128),
      UInt8.ofNat (n % 64 + 128)] := by
  subst h
  exact (if_neg (by omega)).trans ((if_neg (not_le.mpr low)).trans (if_pos high))

theorem encode_four {c : Char} (h : c.val.toNat = n) (low : 65535 < n) :
    encode c = [UInt8.ofNat (n / 262144 % 8 + 240), UInt8.ofNat (n / 4096 % 64 + 128),
      UInt8.ofNat (n / 64 % 64 + 128), UInt8.ofNat (n % 64 + 128)] := by
  subst h
  exact (if_neg (by omega)).trans ((if_neg (by omega)).trans (if_neg (not_le.mpr low)))

theorem le_ofNat {k n : Nat} (h : k ≤ n) (small : n < 256) :
    (OfNat.ofNat k : UInt8) ≤ UInt8.ofNat n := by
  show UInt8.ofNat k ≤ UInt8.ofNat n
  rw [UInt8.le_iff_toNat_le, UInt8.toNat_ofNat', UInt8.toNat_ofNat', Nat.mod_eq_of_lt small,
    Nat.mod_eq_of_lt (by omega)]
  exact h

theorem ofNat_le {k n : Nat} (h : n ≤ k) (small : k < 256) :
    UInt8.ofNat n ≤ (OfNat.ofNat k : UInt8) := by
  show UInt8.ofNat n ≤ UInt8.ofNat k
  rw [UInt8.le_iff_toNat_le, UInt8.toNat_ofNat', UInt8.toNat_ofNat', Nat.mod_eq_of_lt small,
    Nat.mod_eq_of_lt (by omega)]
  exact h

theorem ofNat_eq {byte : UInt8} (h : n = byte.toNat) : UInt8.ofNat n = byte := by
  rw [h, UInt8.ofNat_toNat]

theorem IsTail.bounds {byte : UInt8} (h : IsTail byte) : 128 ≤ byte.toNat ∧ byte.toNat ≤ 191 :=
  ⟨UInt8.le_iff_toNat_le.mp h.1, UInt8.le_iff_toNat_le.mp h.2⟩

theorem isTail_ofNat (low : 128 ≤ n) (high : n ≤ 191) : IsTail (UInt8.ofNat n) :=
  ⟨le_ofNat (k := 128) low (by omega), ofNat_le (k := 191) high (by omega)⟩

end Arithmetic

theorem isSequence_encode (c : Char) : IsSequence (encode c) := by
  have hvalid : c.val.toNat < 55296 ∨ 57343 < c.val.toNat ∧ c.val.toNat < 1114112 := c.valid
  generalize hn : c.val.toNat = n at hvalid
  have htail (m : Nat) : IsTail (UInt8.ofNat (m % 64 + 128)) := isTail_ofNat (by omega) (by omega)
  rcases le_or_gt n 127 with h1 | h1
  · rw [encode_one hn h1]
    refine .one ?_
    rw [UInt8.lt_iff_toNat_lt, UInt8.toNat_ofNat', Nat.mod_eq_of_lt (by omega)]
    exact Nat.lt_succ_of_le h1
  rcases le_or_gt n 2047 with h2 | h2
  · rw [encode_two hn h1 h2]
    exact .two (le_ofNat (k := 194) (by omega) (by omega))
        (ofNat_le (k := 223) (by omega) (by omega)) (htail n)
  rcases le_or_gt n 65535 with h3 | h3
  · rw [encode_three hn h2 h3]
    rcases lt_or_ge n 4096 with low | low
    · rw [show n / 4096 % 16 + 224 = 224 by omega]
      exact .threeLow (le_ofNat (k := 160) (by omega) (by omega))
        (ofNat_le (k := 191) (by omega) (by omega))
        (htail n)
    rcases eq_or_ne (n / 4096) 13 with hsurrogate | hsurrogate
    · rw [show n / 4096 % 16 + 224 = 237 by omega]
      exact .threeSurrogate (le_ofNat (k := 128) (by omega) (by omega))
        (ofNat_le (k := 159) (by omega) (by omega)) (htail n)
    refine .three (le_ofNat (k := 225) (by omega) (by omega))
      (ofNat_le (k := 239) (by omega) (by omega)) ?_
      (htail (n / 64)) (htail n)
    intro h
    have := congrArg UInt8.toNat h
    rw [UInt8.toNat_ofNat', Nat.mod_eq_of_lt (by omega)] at this
    have h237 : (237 : UInt8).toNat = 237 := rfl
    omega
  · rw [encode_four hn h3]
    rcases lt_or_ge n 262144 with low | low
    · rw [show n / 262144 % 8 + 240 = 240 by omega]
      exact .fourLow (le_ofNat (k := 144) (by omega) (by omega))
        (ofNat_le (k := 191) (by omega) (by omega))
        (htail (n / 64)) (htail n)
    rcases lt_or_ge n 1048576 with high | high
    · exact .four (le_ofNat (k := 241) (by omega) (by omega))
        (ofNat_le (k := 243) (by omega) (by omega))
        (htail (n / 4096)) (htail (n / 64)) (htail n)
    · rw [show n / 262144 % 8 + 240 = 244 by omega]
      exact .fourHigh (le_ofNat (k := 128) (by omega) (by omega))
        (ofNat_le (k := 143) (by omega) (by omega))
        (htail (n / 64)) (htail n)

section Decoding

variable {a b c d : UInt8}

theorem exists_two (low : 194 ≤ a.toNat) (high : a.toNat ≤ 223) (hb : IsTail b) :
    ∃ char, encode char = [a, b] := by
  have := hb.bounds
  refine ⟨charOf ((a.toNat - 192) * 64 + (b.toNat - 128)) (.inl (by omega)), ?_⟩
  rw [encode_two rfl (by rw [charOf_toNat]; omega) (by rw [charOf_toNat]; omega), charOf_toNat]
  simp only [List.cons.injEq, and_true]
  exact ⟨ofNat_eq (by omega), ofNat_eq (by omega)⟩

theorem exists_three (low : 224 ≤ a.toNat) (high : a.toNat ≤ 239) (hb : IsTail b) (hc : IsTail c)
    (long : a.toNat = 224 → 160 ≤ b.toNat) (scalar : a.toNat = 237 → b.toNat ≤ 159) :
    ∃ char, encode char = [a, b, c] := by
  have := hb.bounds
  have := hc.bounds
  refine ⟨charOf ((a.toNat - 224) * 4096 + (b.toNat - 128) * 64 + (c.toNat - 128)) ?_, ?_⟩
  · rw [Nat.isValidChar]
    omega
  · rw [encode_three rfl (by rw [charOf_toNat]; omega) (by rw [charOf_toNat]; omega), charOf_toNat]
    simp only [List.cons.injEq, and_true]
    exact ⟨ofNat_eq (by omega), ofNat_eq (by omega), ofNat_eq (by omega)⟩

theorem exists_four (low : 240 ≤ a.toNat) (high : a.toNat ≤ 244) (hb : IsTail b) (hc : IsTail c)
    (hd : IsTail d) (long : a.toNat = 240 → 144 ≤ b.toNat) (last : a.toNat = 244 → b.toNat ≤ 143) :
    ∃ char, encode char = [a, b, c, d] := by
  have := hb.bounds
  have := hc.bounds
  have := hd.bounds
  refine ⟨charOf ((a.toNat - 240) * 262144 + (b.toNat - 128) * 4096 + (c.toNat - 128) * 64 +
    (d.toNat - 128)) ?_, ?_⟩
  · rw [Nat.isValidChar]
    omega
  · rw [encode_four rfl (by rw [charOf_toNat]; omega), charOf_toNat]
    simp only [List.cons.injEq, and_true]
    exact ⟨ofNat_eq (by omega), ofNat_eq (by omega), ofNat_eq (by omega), ofNat_eq (by omega)⟩

theorem isTail_of_le (low : 128 ≤ b.toNat) (high : b.toNat ≤ 191) : IsTail b :=
  ⟨UInt8.le_iff_toNat_le.mpr low, UInt8.le_iff_toNat_le.mpr high⟩

theorem IsSequence.exists_char {bytes : List UInt8} (h : IsSequence bytes) :
    ∃ char, encode char = bytes := by
  have hnat {x y : UInt8} (h : x ≤ y) : x.toNat ≤ y.toNat := UInt8.le_iff_toNat_le.mp h
  cases h with
  | one h =>
    rename_i a
    have hlt : a.toNat < 128 := UInt8.lt_iff_toNat_lt.mp h
    refine ⟨charOf a.toNat (.inl (by omega)), ?_⟩
    rw [encode_one rfl (by rw [charOf_toNat]; omega), charOf_toNat, UInt8.ofNat_toNat]
  | two low high hb => exact exists_two (hnat low) (hnat high) hb
  | threeLow low high hc =>
    have hlow := hnat low
    have hhigh := hnat high
    exact exists_three (by decide) (by decide) (isTail_of_le (le_trans (by decide) hlow) hhigh) hc
      (fun _ => hlow) (fun h => absurd h (by decide))
  | three low high hne hb hc =>
    have hlow := hnat low
    refine exists_three (le_trans (by decide) hlow) (hnat high) hb hc (fun h => ?_) fun h => ?_
    · rw [h] at hlow
      exact absurd hlow (by decide)
    · exact absurd (UInt8.toNat_inj.mp h) hne
  | threeSurrogate low high hc =>
    have hhigh := hnat high
    exact exists_three (by decide) (by decide)
      (isTail_of_le (hnat low) (le_trans hhigh (by decide)))
      hc (fun h => absurd h (by decide)) (fun _ => hhigh)
  | fourLow low high hc hd =>
    have hlow := hnat low
    exact exists_four (by decide) (by decide)
      (isTail_of_le (le_trans (by decide) hlow) (hnat high)) hc hd (fun _ => hlow)
      (fun h => absurd h (by decide))
  | four low high hb hc hd =>
    have hlow := hnat low
    have hhigh := hnat high
    refine exists_four (le_trans (by decide) hlow) (le_trans hhigh (by decide)) hb hc hd
      (fun h => ?_) fun h => ?_
    · rw [h] at hlow
      exact absurd hlow (by decide)
    · rw [h] at hhigh
      exact absurd hhigh (by decide)
  | fourHigh low high hc hd =>
    have hhigh := hnat high
    exact exists_four (by decide) (by decide)
      (isTail_of_le (hnat low) (le_trans hhigh (by decide))) hc hd (fun h => absurd h (by decide))
      (fun _ => hhigh)

end Decoding

theorem encode_ascii {char : Char} (h : char.toNat < 128) :
    encode char = [UInt8.ofNat char.toNat] :=
  encode_one rfl (Nat.le_of_lt_succ h)

theorem encode_ne_nil (char : Char) : encode char ≠ [] := by
  rw [← List.length_pos_iff, String.length_utf8EncodeChar]
  exact Char.utf8Size_pos char

/-- The bytes of a sequence of more than one are not those of ASCII. -/
theorem IsSequence.high {bytes : List UInt8} (h : IsSequence bytes) (long : bytes.length ≠ 1) :
    ∀ byte ∈ bytes, 128 ≤ byte := by
  have hle {k byte : UInt8} (hk : 128 ≤ k) (h : k ≤ byte) : 128 ≤ byte := UInt8.le_trans hk h
  cases h with
  | one => exact absurd rfl long
  | two low _ hb => simp [hle (by decide) low, hb.1]
  | threeLow low _ hc => simp [hle (by decide) low, hc.1]
  | three low _ _ hb hc => simp [hle (by decide) low, hb.1, hc.1]
  | threeSurrogate low _ hc => simp [low, hc.1]
  | fourLow low _ hc hd => simp [hle (by decide) low, hc.1, hd.1]
  | four low _ hb hc hd => simp [hle (by decide) low, hb.1, hc.1, hd.1]
  | fourHigh low _ hc hd => simp [low, hc.1, hd.1]

theorem encode_high {char : Char} (h : 128 ≤ char.toNat) : ∀ byte ∈ encode char, 128 ≤ byte := by
  refine (isSequence_encode char).high ?_
  rw [String.length_utf8EncodeChar]
  intro hone
  rw [Char.utf8Size_eq_one_iff] at hone
  have := UInt32.le_iff_toNat_le.mp hone
  exact absurd this (Nat.not_le_of_lt h)

end Elisa.Lib.Utf8
