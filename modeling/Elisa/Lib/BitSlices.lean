import Mathlib.Data.List.Basic
import Mathlib.Data.Nat.Bitwise

/-!
# Slices of a word

A slice is a range of bits.  It is read by a shift and a mask, and written by clearing its bits and
placing others there (`splice`), which a disjoint slice does not see (`slice_splice`).  `Spans` lays
slices one behind another, each as wide as a list of widths says.
-/

namespace Elisa.Lib

/-! ## Reading and writing -/

section Slices

def slice (offset width word : Nat) : Nat := (word >>> offset) &&& (2 ^ width - 1)

def splice (bits offset width value word : Nat) : Nat :=
  (word &&& (2 ^ bits - 1 - (2 ^ width - 1) <<< offset)) |||
    ((value &&& (2 ^ width - 1)) <<< offset)

theorem testBit_slice (offset width word i : Nat) :
    (slice offset width word).testBit i = (word.testBit (offset + i) && decide (i < width)) := by
  rw [slice, Nat.testBit_and, Nat.testBit_shiftRight, Nat.testBit_two_pow_sub_one]

theorem mask_lt {bits offset width : Nat} (inside : offset + width ≤ bits) :
    (2 ^ width - 1) <<< offset < 2 ^ bits := by
  have hpos := Nat.two_pow_pos width
  have hpos' := Nat.two_pow_pos offset
  have hle : 2 ^ (width + offset) ≤ 2 ^ bits := Nat.pow_le_pow_right (by decide) (by omega)
  rw [Nat.shiftLeft_eq]
  calc (2 ^ width - 1) * 2 ^ offset < 2 ^ width * 2 ^ offset :=
        Nat.mul_lt_mul_of_pos_right (by omega) hpos'
    _ = 2 ^ (width + offset) := (Nat.pow_add 2 width offset).symm
    _ ≤ 2 ^ bits := hle

theorem testBit_splice_outside {bits offset width i : Nat} (value word : Nat)
    (inside : offset + width ≤ bits) (hi : i < bits) (outside : i < offset ∨ offset + width ≤ i) :
    (splice bits offset width value word).testBit i = word.testBit i := by
  have hmask : ((2 ^ width - 1) <<< offset).testBit i = false := by
    rw [Nat.testBit_shiftLeft, Nat.testBit_two_pow_sub_one, Bool.and_eq_false_iff,
      decide_eq_false_iff_not, decide_eq_false_iff_not]
    omega
  have hplaced : ((value &&& (2 ^ width - 1)) <<< offset).testBit i = false := by
    rw [Nat.testBit_shiftLeft, Nat.testBit_and, Nat.testBit_two_pow_sub_one]
    rcases outside with h | h
    · simp [Nat.not_le.mpr h]
    · simp [show ¬ i - offset < width by omega]
  rw [splice, Nat.testBit_or, Nat.testBit_and, hplaced, Bool.or_false, Nat.sub_sub, Nat.add_comm 1,
    Nat.testBit_two_pow_sub_succ (mask_lt inside), hmask]
  simp [hi]

theorem slice_splice {bits offset width offset' width' : Nat} (value word : Nat)
    (inside : offset + width ≤ bits) (inside' : offset' + width' ≤ bits)
    (apart : offset + width ≤ offset' ∨ offset' + width' ≤ offset) :
    slice offset' width' (splice bits offset width value word) = slice offset' width' word := by
  apply Nat.eq_of_testBit_eq
  intro i
  rw [testBit_slice, testBit_slice]
  cases hi : decide (i < width') with
  | false => simp
  | true =>
    rw [decide_eq_true_eq] at hi
    rw [testBit_splice_outside value word inside (by omega) (by omega)]

end Slices

/-! ## Slices one behind another -/

section Spans

/-- The slices of some widths from an offset on. -/
def spans (offset : Nat) : List Nat → List (Nat × Nat)
  | [] => []
  | width :: widths => (offset, width) :: spans (offset + width) widths

/-- One slice ends where another one starts, or before. -/
def Apart (a b : Nat × Nat) : Prop := a.1 + a.2 ≤ b.1 ∨ b.1 + b.2 ≤ a.1

theorem spans_bounds {offset : Nat} {widths : List Nat} {span : Nat × Nat}
    (h : span ∈ spans offset widths) :
    offset ≤ span.1 ∧ span.1 + span.2 ≤ offset + widths.sum ∧ span.2 ∈ widths := by
  induction widths generalizing offset with
  | nil => cases h
  | cons width widths ih =>
    rw [List.sum_cons]
    rcases List.mem_cons.mp h with rfl | h
    · exact ⟨Nat.le_refl _, by omega, List.mem_cons_self⟩
    · obtain ⟨hle, hend, hmem⟩ := ih h
      exact ⟨by omega, by omega, List.mem_cons_of_mem _ hmem⟩

theorem spans_apart (offset : Nat) (widths : List Nat) : (spans offset widths).Pairwise Apart := by
  induction widths generalizing offset with
  | nil => exact .nil
  | cons width widths ih =>
    refine .cons (fun span h => .inl ?_) (ih _)
    exact (spans_bounds h).1

end Spans

end Elisa.Lib
