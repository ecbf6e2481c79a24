import Mathlib.Data.Sign.Basic
import Mathlib.Tactic.FieldSimp
import Mathlib.Tactic.Linarith
import Mathlib.Tactic.Positivity
import Mathlib.Tactic.Ring

/-!
# Decimal digits

`fractionValue` is the value of digits behind a decimal point.  A positive number is such a value,
with a first digit other than zero, times a power of ten, its order.  Of two numbers the one with
the greater order is greater (`scaled_lt_of_order`); with one order their digits decide
(`compareDigits_eq`).
-/

namespace Elisa.Lib

def fractionValue : List Nat → ℚ
  | [] => 0
  | digit :: digits => (digit + fractionValue digits) / 10

/-- The comparison of digits, position by position; missing digits are zeros. -/
def compareDigits : List Nat → List Nat → Int
  | [], [] => 0
  | a :: as, [] => if 0 < a then 1 else compareDigits as []
  | [], b :: bs => if 0 < b then -1 else compareDigits [] bs
  | a :: as, b :: bs => if b < a then 1 else if a < b then -1 else compareDigits as bs

theorem compareDigits_next (a b : List Nat) :
    compareDigits a b = if b.headD 0 < a.headD 0 then 1 else if a.headD 0 < b.headD 0 then -1
      else compareDigits a.tail b.tail := by
  cases a with
  | nil =>
    cases b with
    | nil => simp [compareDigits]
    | cons b bs => simp [compareDigits]
  | cons a as =>
    cases b with
    | nil => simp [compareDigits]
    | cons b bs => simp [compareDigits]

section Digits

variable {a b digits : List Nat}

def AreDigits (digits : List Nat) : Prop := ∀ digit ∈ digits, digit < 10

theorem AreDigits.tail {digit : Nat} (h : AreDigits (digit :: digits)) : AreDigits digits :=
  fun d hd => h d (List.mem_cons_of_mem _ hd)

theorem AreDigits.drop (h : AreDigits digits) (count : Nat) : AreDigits (digits.drop count) :=
  fun d hd => h d (List.mem_of_mem_drop hd)

theorem AreDigits.head {digit : Nat} (h : AreDigits (digit :: digits)) : (digit : ℚ) ≤ 9 := by
  have := h digit List.mem_cons_self
  exact_mod_cast Nat.le_of_lt_succ this

theorem fractionValue_nonneg (digits : List Nat) : 0 ≤ fractionValue digits := by
  induction digits with
  | nil => exact le_refl _
  | cons digit digits ih =>
    rw [fractionValue]
    positivity

theorem fractionValue_lt_one (h : AreDigits digits) : fractionValue digits < 1 := by
  induction digits with
  | nil => norm_num [fractionValue]
  | cons digit digits ih =>
    have := ih h.tail
    have := h.head
    rw [fractionValue, div_lt_one (by norm_num)]
    linarith

/-- A number with a digit in front has at least a tenth. -/
theorem fractionValue_ge {digit : Nat} (h : 0 < digit) :
    1 / 10 ≤ fractionValue (digit :: digits) := by
  have hcast : (1 : ℚ) ≤ digit := by exact_mod_cast h
  have := fractionValue_nonneg digits
  rw [fractionValue]
  linarith

theorem sign_tenth (x : ℚ) : SignType.sign (x / 10) = SignType.sign x := by
  rw [div_eq_mul_inv, sign_mul, sign_pos (show (0 : ℚ) < 10⁻¹ by norm_num), mul_one]

theorem compareDigits_eq (ha : AreDigits a) (hb : AreDigits b) :
    compareDigits a b = (SignType.sign (fractionValue a - fractionValue b) : Int) := by
  fun_induction compareDigits a b with
  | case1 => simp
  | case2 a as h =>
    have hpos : 0 < fractionValue (a :: as) - fractionValue [] := by
      have : 1 / 10 ≤ fractionValue (a :: as) := fractionValue_ge h
      rw [fractionValue.eq_1]
      linarith
    rw [sign_pos hpos]
    rfl
  | case3 a as h ih =>
    have hzero : a = 0 := Nat.eq_zero_of_not_pos h
    rw [ih ha.tail hb, hzero, fractionValue.eq_2, Nat.cast_zero, zero_add, fractionValue.eq_1,
      sub_zero, sub_zero, sign_tenth]
  | case4 b bs h =>
    have hneg : fractionValue [] - fractionValue (b :: bs) < 0 := by
      have : 1 / 10 ≤ fractionValue (b :: bs) := fractionValue_ge h
      rw [fractionValue.eq_1]
      linarith
    rw [sign_neg hneg]
    rfl
  | case5 b bs h ih =>
    have hzero : b = 0 := Nat.eq_zero_of_not_pos h
    rw [ih ha hb.tail, hzero, fractionValue.eq_2, Nat.cast_zero, zero_add, fractionValue.eq_1,
      zero_sub, zero_sub, ← neg_div, sign_tenth]
  | case6 a as b bs h =>
    have hcast : (b : ℚ) + 1 ≤ a := by exact_mod_cast h
    have := fractionValue_nonneg as
    have := fractionValue_lt_one hb.tail
    have hpos : 0 < fractionValue (a :: as) - fractionValue (b :: bs) := by
      rw [fractionValue, fractionValue]
      linarith
    rw [sign_pos hpos]
    rfl
  | case7 a as b bs h h' =>
    have hcast : (a : ℚ) + 1 ≤ b := by exact_mod_cast h'
    have := fractionValue_nonneg bs
    have := fractionValue_lt_one ha.tail
    have hneg : fractionValue (a :: as) - fractionValue (b :: bs) < 0 := by
      rw [fractionValue, fractionValue]
      linarith
    rw [sign_neg hneg]
    rfl
  | case8 a as b bs h h' ih =>
    have heq : a = b := by omega
    have hsub : fractionValue (b :: as) - fractionValue (b :: bs) =
        (fractionValue as - fractionValue bs) / 10 := by
      rw [fractionValue, fractionValue]
      ring
    rw [ih ha.tail hb.tail, heq, hsub, sign_tenth]

theorem fractionValue_drop_zeros {count : Nat} (zeros : ∀ digit ∈ digits.take count, digit = 0)
    (inside : count ≤ digits.length) :
    fractionValue digits * 10 ^ count = fractionValue (digits.drop count) := by
  induction count generalizing digits with
  | zero => simp
  | succ count ih =>
    cases digits with
    | nil => simp at inside
    | cons digit digits =>
      have hzero : digit = 0 := zeros digit (by simp)
      have ih := ih (fun d hd => zeros d (by simp [hd])) (Nat.le_of_succ_le_succ inside)
      rw [List.drop_succ_cons, ← ih, fractionValue, hzero, pow_succ]
      push_cast
      field_simp
      ring

theorem scaled_lt_of_order {digit : Nat} {m n : ℤ} (hb : AreDigits b)
    (h : 0 < digit) (order : m < n) :
    fractionValue b * 10 ^ m < fractionValue (digit :: digits) * 10 ^ n := by
  have hone : fractionValue b < 1 := fractionValue_lt_one hb
  have htenth : 1 / 10 ≤ fractionValue (digit :: digits) := fractionValue_ge h
  have hm : (0 : ℚ) < 10 ^ m := zpow_pos (by norm_num) m
  have hstep : (10 : ℚ) ^ (m + 1) ≤ 10 ^ n := zpow_le_zpow_right₀ (by norm_num) order
  rw [zpow_add_one₀ (by norm_num)] at hstep
  calc fractionValue b * 10 ^ m < 1 * 10 ^ m := mul_lt_mul_of_pos_right hone hm
    _ = 1 / 10 * (10 ^ m * 10) := by ring
    _ ≤ 1 / 10 * 10 ^ n := by linarith
    _ ≤ _ := mul_le_mul_of_nonneg_right htenth (zpow_nonneg (by norm_num) n)

/-- The number that digits write. -/
def numeral (digits : List Nat) : Nat := digits.foldl (fun n digit => n * 10 + digit) 0

theorem numeral_foldl (digits : List Nat) (n : Nat) :
    (digits.foldl (fun n digit => n * 10 + digit) n : Nat) =
      (n + fractionValue digits) * 10 ^ digits.length := by
  induction digits generalizing n with
  | nil => simp [fractionValue]
  | cons digit digits ih =>
    rw [List.foldl_cons, ih, fractionValue, List.length_cons, pow_succ]
    push_cast
    ring

/-- Digits behind a point write a number over a power of ten. -/
theorem numeral_eq (digits : List Nat) :
    (numeral digits : ℚ) = fractionValue digits * 10 ^ digits.length := by
  rw [numeral, numeral_foldl, Nat.cast_zero, zero_add]

end Digits

end Elisa.Lib
