import Mathlib.Algebra.Ring.Int.Defs
import Mathlib.Algebra.Ring.Nat
import Mathlib.Data.List.Basic

/-!
# Bytes

A source view (`sview`) and a byte array (`darray[u8]`) are both lists of bytes here: nothing
depends on where the bytes live.  `ascii` writes the byte literals of the source as text.
-/

namespace Elisa

/-- The bytes of a view or a byte array. -/
abbrev Bytes := List UInt8

instance : LawfulBEq Bytes := inferInstance

def ascii (text : String) : Bytes := text.toList.map fun c => c.toNat.toUInt8

/-- A long text is evaluated from its characters: the literal itself is decoded byte by byte. -/
theorem ascii_ofList (text : List Char) :
    ascii (String.ofList text) = text.map fun c => c.toNat.toUInt8 := by
  rw [ascii, String.toList_ofList]

/-- The byte `.`, which separates module components in a source spelling. -/
abbrev dot : UInt8 := 46

/-- The byte `:`, which separates module components in pairs. -/
abbrev colon : UInt8 := 58

end Elisa
