import Mathlib.Data.List.DropRight
import Elisa.Bytes

/-!
# Texts of an EASM source

The scanners of `easm_text_scan.elisa` and `easm_checked_decimal.elisa`.  A search that finds
nothing returns the length of its text, and a search for the empty text finds nothing.  A slice
whose end lies before its start is empty.
-/

namespace Elisa.Easm

open List

/-! ## Scanners -/

def slice (text : Bytes) (start stop : Nat) : Bytes := (text.take stop).drop start

abbrev after (text : Bytes) (start : Nat) : Bytes := text.drop start

def isBlank (byte : UInt8) : Bool := byte == 32 || byte == 9

def findByte (text : Bytes) (needle : UInt8) : Nat := text.findIdx (· == needle)

def startsWith (text start : Bytes) : Bool := start.isPrefixOf text

theorem head?_of_startsWith {text start : Bytes} (h : startsWith text start = true)
    (some : start ≠ []) : text.head? = start.head? := by
  obtain ⟨rest, rfl⟩ := isPrefixOf_iff_prefix.1 h
  rw [head?_append_of_ne_nil _ some]

def findFrom (needle : Bytes) : Bytes → Nat
  | [] => 0
  | byte :: rest => if startsWith (byte :: rest) needle then 0 else findFrom needle rest + 1

def find (text needle : Bytes) : Nat := if needle = [] then text.length else findFrom needle text

def holds (text needle : Bytes) : Bool := decide (find text needle < text.length)

def firstSpace (text : Bytes) : Nat := text.findIdx isBlank

/-- The span left after the blanks at both ends. -/
def trimBounds (text : Bytes) : Nat × Nat :=
  let first := text.findIdx (!isBlank ·)
  let blanks := (text.drop first).reverse.findIdx (!isBlank ·)
  (first, text.length - blanks)

def trim (text : Bytes) : Bytes := slice text (trimBounds text).1 (trimBounds text).2

theorem trim_eq (text : Bytes) :
    trim text = (text.dropWhile isBlank).rdropWhile isBlank := by
  simp only [trim, slice, trimBounds, rdropWhile]
  rw [dropWhile_eq_drop_findIdx_not, dropWhile_eq_drop_findIdx_not, drop_take]
  generalize text.findIdx _ = first
  generalize findIdx _ (text.drop first).reverse = blanks
  rw [reverse_drop, reverse_reverse, length_reverse, length_drop]
  congr 1
  omega

theorem trim_eq_nil_iff {text : Bytes} : trim text = [] ↔ ∀ byte ∈ text, isBlank byte = true := by
  rw [trim_eq, rdropWhile_eq_nil_iff]
  constructor
  · intro all
    rw [← dropWhile_eq_nil_iff]
    cases left : text.dropWhile isBlank with
    | nil => rfl
    | cons byte rest =>
      have first := head?_dropWhile_not isBlank text
      simp [left, all byte (by simp [left])] at first
  · intro all byte mem
    exact all byte ((dropWhile_suffix isBlank).subset mem)

theorem exists_not_blank_of_trim {text : Bytes} (left : trim text ≠ []) :
    ∃ byte ∈ trim text, isBlank byte = false := by
  rw [trim_eq] at left ⊢
  exact ⟨_, getLast_mem left, by simpa using rdropWhile_last_not isBlank _ left⟩

theorem head?_trim (text : Bytes) : (trim text).head? = text.find? (!isBlank ·) := by
  rw [find?_eq_head?_dropWhile_not]
  have same : text.dropWhile (fun byte => !!isBlank byte) = text.dropWhile isBlank := by
    simp only [Bool.not_not]
  rw [same, trim_eq]
  cases left : text.dropWhile isBlank with
  | nil => rfl
  | cons first rest =>
    have visible := head?_dropWhile_not isBlank text
    rw [left] at visible
    have some : (first :: rest).rdropWhile isBlank ≠ [] := by
      rw [Ne, rdropWhile_eq_nil_iff]
      intro all
      simp [all first (mem_cons_self ..)] at visible
    obtain ⟨kept, equal⟩ := rdropWhile_prefix isBlank (l := first :: rest)
    cases kept' : (first :: rest).rdropWhile isBlank with
    | nil => exact absurd kept' some
    | cons head tail =>
      rw [kept'] at equal
      simpa using (cons.inj equal).1

theorem startsWith_findFrom {needle text : Bytes} (found : findFrom needle text < text.length) :
    startsWith (text.drop (findFrom needle text)) needle = true := by
  induction text with
  | nil => simp at found
  | cons byte rest ih =>
    unfold findFrom at found ⊢
    split
    next here => simpa using here
    next later =>
      rw [if_neg later, length_cons] at found
      simpa using ih (by omega)

theorem startsWith_find {text needle : Bytes} (found : find text needle < text.length) :
    startsWith (text.drop (find text needle)) needle = true := by
  unfold find at found ⊢
  split_ifs at found ⊢ with none
  · simp at found
  · exact startsWith_findFrom found

def oneOf (text : Bytes) (words : List String) : Bool := words.any fun word => text == ascii word

def splitCommas : Bytes → List Bytes
  | [] => [[]]
  | byte :: rest =>
    if byte = 44 then [] :: splitCommas rest
    else
      match splitCommas rest with
      | [] => [[byte]]
      | piece :: pieces => (byte :: piece) :: pieces

/-! ## Checked decimal numbers -/

def i64Max : Int := 9223372036854775807
def i64Min : Int := -9223372036854775808

/-- One digit behind a number that is not negative. -/
def appendPositiveDigit (value digit : Int) : Option Int :=
  if value < 0 then none
  else if value > i64Max / 10 ∨ value = i64Max / 10 ∧ digit > i64Max % 10 then none
  else some (value * 10 + digit)

/-- One digit behind a number that is not positive; the quotient and the remainder are
truncated, as in the source. -/
def appendNegativeDigit (value digit : Int) : Option Int :=
  if value > 0 then none
  else if value < i64Min.tdiv 10 ∨ value = i64Min.tdiv 10 ∧ digit > 0 - i64Min.tmod 10 then none
  else some (value * 10 - digit)

def parseDigits (negative : Bool) : Int → Bytes → Option Int
  | value, [] => some value
  | value, byte :: rest =>
    if byte < 48 ∨ byte > 57 then none
    else
      let digit : Int := (byte - 48).toNat
      (if negative then appendNegativeDigit value digit else appendPositiveDigit value digit).bind
        fun value => parseDigits negative value rest

def parseSigned : Bytes → Option Int
  | [] => none
  | byte :: rest =>
    if byte = 45 then
      if rest = [] then none else parseDigits true 0 rest
    else parseDigits false 0 (byte :: rest)

/-- The number of a text, or zero. -/
def parseI64 (text : Bytes) : Int := (parseSigned text).getD 0

end Elisa.Easm
