import Mathlib.Algebra.Ring.Nat
import Mathlib.Data.List.Basic

/-!
# A memory of bytes that holds words

Addresses have 64 bits and wrap around.  What is loaded is the word that was stored, and a store
that ends before a word begins, or begins behind its end, leaves it as it is.
-/

namespace Elisa.Lib

abbrev Memory := BitVec 64 → BitVec 8

def byteOf (word : BitVec 64) (index : Nat) : BitVec 8 := word.extractLsb' (8 * index) 8

/-- The bytes of a word, up to a size, from an address on. -/
def Memory.store (memory : Memory) (address : BitVec 64) (size : Nat) (word : BitVec 64) :
    Memory :=
  fun place =>
    if (place - address).toNat < size then byteOf word (place - address).toNat else memory place

/-- The word of the first bytes from an address on. -/
def Memory.loadBytes (memory : Memory) (address : BitVec 64) : Nat → BitVec 64
  | 0 => 0
  | count + 1 => memory.loadBytes address count |||
      (memory (address + BitVec.ofNat 64 count)).setWidth 64 <<< (8 * count)

def Memory.load (memory : Memory) (address : BitVec 64) : BitVec 64 := memory.loadBytes address 8

section Words

variable {memory : Memory} {address other : BitVec 64} {word : BitVec 64}

theorem Memory.getLsbD_loadBytes {bit : Nat} (within : bit < 64) (count : Nat) :
    (memory.loadBytes address count).getLsbD bit = (decide (bit < 8 * count) &&
      (memory (address + BitVec.ofNat 64 (bit / 8))).getLsbD (bit % 8)) := by
  induction count with
  | zero => simp [Memory.loadBytes]
  | succ count ih =>
    rw [Memory.loadBytes, BitVec.getLsbD_or, ih, BitVec.getLsbD_shiftLeft, BitVec.getLsbD_setWidth]
    by_cases earlier : bit < 8 * count
    · have later : bit < 8 * (count + 1) := by omega
      simp [earlier, later]
    by_cases here : bit < 8 * (count + 1)
    · have quotient : bit / 8 = count := by omega
      have rest : bit - 8 * count = bit % 8 := by omega
      have small : bit % 8 < 64 := by omega
      simp [earlier, here, within, quotient, rest, small]
    · have beyond : 8 ≤ bit - 8 * count := by omega
      simp [earlier, here, BitVec.getLsbD_of_ge _ _ beyond]

theorem Memory.load_eq_of_bytes
    (bytes : ∀ index < 8, memory (address + BitVec.ofNat 64 index) = byteOf word index) :
    memory.load address = word := by
  apply BitVec.eq_of_getLsbD_eq
  intro bit within
  have byte : bit / 8 < 8 := by omega
  have offset : bit % 8 < 8 := by omega
  rw [Memory.load, Memory.getLsbD_loadBytes within, bytes (bit / 8) byte, byteOf,
    BitVec.getLsbD_extractLsb', Nat.div_add_mod bit 8]
  simp [within, offset]

@[simp] theorem Memory.load_store (memory : Memory) (address word : BitVec 64) :
    (memory.store address 8 word).load address = word := by
  apply Memory.load_eq_of_bytes
  intro index within
  have place : (address + BitVec.ofNat 64 index - address).toNat = index := by bv_omega
  simp only [Memory.store, place, within, if_true]

theorem Memory.load_store_apart {size : Nat} (after : size ≤ (address - other).toNat)
    (before : (address - other).toNat + 8 ≤ 2 ^ 64) :
    (memory.store other size word).load address = memory.load address := by
  apply BitVec.eq_of_getLsbD_eq
  intro bit within
  have place : (address + BitVec.ofNat 64 (bit / 8) - other).toNat =
      (address - other).toNat + bit / 8 := by bv_omega
  rw [Memory.load, Memory.load, Memory.getLsbD_loadBytes within, Memory.getLsbD_loadBytes within,
    Memory.store, if_neg (by omega)]

end Words

end Elisa.Lib
