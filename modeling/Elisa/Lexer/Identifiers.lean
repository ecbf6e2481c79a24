import Elisa.Lexer.Cursor
import Elisa.Lexer.UnicodeRanges
import Elisa.Lib.Steps

/-!
# Identifiers

An identifier goes on over the ASCII letters, digits, `_` and `$`, and over the letters and digits
of Unicode (`lexer_core.elisa`).  A letter of Latin-1 that does not start a valid sequence counts
too.
-/

namespace Elisa.Lexer

open Elisa.Lib

/-! ## Code points -/

def isUtf8Continuation (byte : Nat) : Bool := decide (0x80 ≤ byte ∧ byte ≤ 0xBF)

def latin1Letters : CodepointRanges :=
  [(0xAA, 0xAA), (0xB5, 0xB5), (0xBA, 0xBA), (0xC0, 0xD6), (0xD8, 0xF6), (0xF8, 0xFF)]

def unicode2Letters : CodepointRanges :=
  [(0x00F8, 0x02C1), (0x02C6, 0x02D1), (0x02E0, 0x02E4), (0x02EC, 0x02EC), (0x02EE, 0x02EE),
   (0x0370, 0x0374), (0x0376, 0x0377), (0x037A, 0x037D), (0x037F, 0x037F), (0x0386, 0x0386),
   (0x0388, 0x038A), (0x038C, 0x038C), (0x038E, 0x03A1), (0x03A3, 0x03F5), (0x03F7, 0x0481),
   (0x048A, 0x052F), (0x0531, 0x0556), (0x0559, 0x0559), (0x0560, 0x0588), (0x05D0, 0x05EA),
   (0x05EF, 0x05F2), (0x0620, 0x064A), (0x066E, 0x066F), (0x0671, 0x06D3), (0x06D5, 0x06D5),
   (0x06E5, 0x06E6), (0x06EE, 0x06EF), (0x06FA, 0x06FC), (0x06FF, 0x06FF), (0x0710, 0x0710),
   (0x0712, 0x072F), (0x074D, 0x07A5), (0x07B1, 0x07B1), (0x07CA, 0x07EA), (0x07F4, 0x07F5),
   (0x07FA, 0x07FA)]

def unicode2Digits : CodepointRanges := [(0x0660, 0x0669), (0x06F0, 0x06F9), (0x07C0, 0x07C9)]

def lexerDecodeUtf8Two (first second : Nat) : Nat := (first - 0xC0) * 0x40 + second - 0x80

def lexerDecodeUtf8Three (lead second third : Nat) : Nat := lead * 0x1000 + second * 0x40 + third

def lexerDecodeUtf8Four (lead second third fourth : Nat) : Nat :=
  lead * 0x40000 + second * 0x1000 + third * 0x40 + fourth

section Positions

variable (inp : Input) (position : Nat)

def threeByteCodepoint : Option Nat :=
  let first := inp.byteAt position
  let second := inp.byteAt (position + 1)
  let third := inp.byteAt (position + 2)
  if inp.sourceLength ≤ position ∨ inp.sourceLength - position ≤ 2 then none
  else if first < 0xE0 ∨ first > 0xEF then none
  else if second < 0x80 ∨ second > 0xBF ∨ third < 0x80 ∨ third > 0xBF then none
  else if first = 0xE0 ∧ second < 0xA0 then none
  else if first = 0xED ∧ second > 0x9F then none
  else some (lexerDecodeUtf8Three (first - 0xE0) (second - 0x80) (third - 0x80))

def fourByteCodepoint : Option Nat :=
  let first := inp.byteAt position
  let second := inp.byteAt (position + 1)
  let third := inp.byteAt (position + 2)
  let fourth := inp.byteAt (position + 3)
  if inp.sourceLength ≤ position ∨ inp.sourceLength - position ≤ 3 then none
  else if first < 0xF0 ∨ first > 0xF4 then none
  else if second < 0x80 ∨ second > 0xBF ∨ third < 0x80 ∨ third > 0xBF ∨
      fourth < 0x80 ∨ fourth > 0xBF then none
  else if first = 0xF0 ∧ second < 0x90 then none
  else if first = 0xF4 ∧ second > 0x8F then none
  else
    some (lexerDecodeUtf8Four (first - 0xF0) (second - 0x80) (third - 0x80) (fourth - 0x80))

def startsValidUtf8Sequence : Bool :=
  if inp.sourceLength ≤ position then false
  else
    let remaining := inp.sourceLength - position
    let first := inp.byteAt position
    let second := inp.byteAt (position + 1)
    let third := inp.byteAt (position + 2)
    let fourth := inp.byteAt (position + 3)
    if 0xC2 ≤ first ∧ first ≤ 0xDF then decide (remaining > 1) && isUtf8Continuation second
    else if first = 0xE0 then
      decide (remaining > 2) && decide (0xA0 ≤ second) && decide (second ≤ 0xBF) &&
        isUtf8Continuation third
    else if (0xE0 < first ∧ first < 0xED) ∨ (0xED < first ∧ first ≤ 0xEF) then
      decide (remaining > 2) && isUtf8Continuation second && isUtf8Continuation third
    else if first = 0xED then
      decide (remaining > 2) && decide (0x80 ≤ second) && decide (second ≤ 0x9F) &&
        isUtf8Continuation third
    else if first = 0xF0 then
      decide (remaining > 3) && decide (0x90 ≤ second) && decide (second ≤ 0xBF) &&
        isUtf8Continuation third && isUtf8Continuation fourth
    else if 0xF0 < first ∧ first < 0xF4 then
      decide (remaining > 3) && isUtf8Continuation second && isUtf8Continuation third &&
        isUtf8Continuation fourth
    else if first = 0xF4 then
      decide (remaining > 3) && decide (0x80 ≤ second) && decide (second ≤ 0x8F) &&
        isUtf8Continuation third && isUtf8Continuation fourth
    else false

/-- Whether two bytes spell a code point with a property, by the lead byte and the code point. -/
def twoByteCodepoint (property : Nat → Nat → Bool) : Bool :=
  let first := inp.byteAt position
  let second := inp.byteAt (position + 1)
  decide (inp.sourceLength - position > 1) && decide (0xC2 ≤ first) && decide (first ≤ 0xDF) &&
    isUtf8Continuation second && property first (lexerDecodeUtf8Two first second)

def isTwoByteLetter (first codepoint : Nat) : Bool :=
  if first ≤ 0xC3 then latin1Letters.contains codepoint else unicode2Letters.contains codepoint

def isTwoByteDigit (first codepoint : Nat) : Bool :=
  decide (0xD9 ≤ first) && unicode2Digits.contains codepoint

def isLatin1Byte : Bool :=
  latin1Letters.contains (inp.byteAt position) && !startsValidUtf8Sequence inp position

def unicodeIdentifierStartWidth : Nat :=
  if inp.sourceLength ≤ position then 0
  else if twoByteCodepoint inp position isTwoByteLetter then 2
  else if (threeByteCodepoint inp position).any isUnicodeLetterCodepoint then 3
  else if (fourByteCodepoint inp position).any isUnicodeLetterCodepoint then 4
  else if isLatin1Byte inp position then 1
  else 0

/-- How many bytes the Unicode letter or digit at a position takes. -/
def unicodeIdentifierCharWidth : Nat :=
  if inp.sourceLength ≤ position then 0
  else if twoByteCodepoint inp position fun first codepoint =>
      isTwoByteLetter first codepoint || isTwoByteDigit first codepoint then 2
  else if (threeByteCodepoint inp position).any fun codepoint =>
      isUnicodeLetterCodepoint codepoint || isUnicodeDigitCodepoint codepoint then 3
  else if (fourByteCodepoint inp position).any fun codepoint =>
      isUnicodeLetterCodepoint codepoint || isUnicodeDigitCodepoint codepoint then 4
  else if isLatin1Byte inp position then 1
  else 0

def startsUnicodeIdentifier : Bool := decide (0 < unicodeIdentifierStartWidth inp position)

def continuesUnicodeIdentifier : Bool := decide (0 < unicodeIdentifierCharWidth inp position)

variable {inp position}

theorem continuesUnicodeIdentifier_of_starts
    (starts : startsUnicodeIdentifier inp position = true) :
    continuesUnicodeIdentifier inp position = true := by
  have two : twoByteCodepoint inp position isTwoByteLetter = true →
      twoByteCodepoint inp position (fun first codepoint =>
        isTwoByteLetter first codepoint || isTwoByteDigit first codepoint) = true := by
    simp only [twoByteCodepoint, Bool.and_eq_true, Bool.or_eq_true]
    exact fun h => ⟨h.1, .inl h.2⟩
  have any : ∀ point : Option Nat, point.any isUnicodeLetterCodepoint = true →
      point.any (fun codepoint =>
        isUnicodeLetterCodepoint codepoint || isUnicodeDigitCodepoint codepoint) = true := by
    intro point h
    cases point with
    | none => exact absurd h (by simp)
    | some point => simp_all
  simp only [startsUnicodeIdentifier, unicodeIdentifierStartWidth] at starts
  simp only [continuesUnicodeIdentifier, unicodeIdentifierCharWidth]
  split_ifs at starts ⊢ <;> simp_all

end Positions

/-! ## Keywords -/

def keywords : List (String × TokenKind) :=
  [("as", .kwAs), ("if", .kwIf), ("in", .kwIn), ("or", .kwOr), ("is", .kwIs), ("to", .kwTo),
   ("and", .kwAnd), ("def", .kwDef), ("not", .kwNot), ("try", .kwTry), ("elif", .kwElif),
   ("else", .kwElse), ("enum", .kwEnum), ("heap", .kwHeap), ("null", .kwNull), ("pass", .kwPass),
   ("repr", .kwRepr), ("tail", .kwTail), ("true", .kwTrue), ("with", .kwWith), ("lmut", .kwLmut),
   ("break", .kwBreak), ("catch", .kwCatch), ("const", .kwConst), ("error", .kwError),
   ("false", .kwFalse), ("match", .kwMatch), ("panic", .kwPanic), ("raise", .kwRaise),
   ("stack", .kwStack), ("while", .kwWhile), ("export", .kwExport), ("extern", .kwExtern),
   ("global", .kwGlobal), ("packed", .kwPacked), ("return", .kwReturn), ("sizeof", .kwSizeof),
   ("static", .kwStatic), ("struct", .kwStruct), ("zeroed", .kwZeroed), ("size_of", .kwSizeof),
   ("alignof", .kwAlignof), ("mutable", .kwMutable), ("align_of", .kwAlignof),
   ("continue", .kwContinue), ("offsetof", .kwOffsetof), ("offset_of", .kwOffsetof)]

def frontendLookupKeyword (text : Bytes) : TokenKind :=
  match keywords.find? fun keyword => decide (ascii keyword.1 = text) with
  | some keyword => keyword.2
  | none => .ident

/-! ## The scanner -/

section Scanner

variable (inp : Input)

def advanceLatin1IdentifierChar (c : Cursor) : Cursor :=
  c.advanceChars inp (unicodeIdentifierCharWidth inp c.position)

def identifierStep (c : Cursor) : Option Cursor :=
  if c.isEndOfSource inp then none
  else if isIdentifierChar (c.currentChar inp) then some (c.advanceChar inp)
  else if continuesUnicodeIdentifier inp c.position then some (advanceLatin1IdentifierChar inp c)
  else none

def scanIdentifier (c : Cursor) : Cursor :=
  runSteps (identifierStep inp) (inp.remaining c.position) c

end Scanner

end Elisa.Lexer
