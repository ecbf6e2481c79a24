import Elisa.Semantic.SymbolIndex

/-!
# Row numbers of 32 bits

The chains of the symbol table keep the numbers of rows in 32 bits, and the greatest number stands
for no row.
-/

namespace Elisa.Semantic

def toRow (entry : UInt32) : Option Nat :=
  if entry = symbolIndexRowNone then none else some entry.toNat

theorem toNat_toUInt32 {n : Nat} (small : n < 2 ^ 32) : n.toUInt32.toNat = n :=
  UInt32.toNat_ofNat_of_lt small

theorem toRow_none {entry : UInt32} (none_ : toRow entry = none) : entry = symbolIndexRowNone := by
  rw [toRow] at none_
  split at none_
  next is => exact is
  next => cases none_

theorem toRow_some {entry : UInt32} {r : Nat} (some_ : toRow entry = some r) :
    entry ≠ symbolIndexRowNone ∧ entry.toNat = r := by
  rw [toRow] at some_
  split at some_
  next => cases some_
  next other => exact ⟨other, Option.some.inj some_⟩

theorem toUInt32_ne_none {r : Nat} (small : r + 1 < 2 ^ 32) : r.toUInt32 ≠ symbolIndexRowNone := by
  intro same
  have value := congrArg UInt32.toNat same
  rw [toNat_toUInt32 (by omega)] at value
  have last : symbolIndexRowNone.toNat = 2 ^ 32 - 1 := rfl
  omega

theorem toRow_toUInt32 {r : Nat} (small : r + 1 < 2 ^ 32) : toRow r.toUInt32 = some r := by
  rw [toRow, if_neg (toUInt32_ne_none small), toNat_toUInt32 (by omega)]

end Elisa.Semantic
