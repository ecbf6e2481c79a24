import Mathlib.Data.Int.Log
import Mathlib.Data.Rat.Floor
import Mathlib.Tactic.Positivity

/-!
# Rounding to binary64

A rational number is scaled so that its unit is the last place of the significand, which has 53
bits, and rounded to an integer there, the even one of two as near (`roundHalfEven`).  Below the
normal numbers the unit is `2 ^ -1074`, and from `2 ^ 1024` on there is no finite value.

The rounded value reaches a value with an even significand from the midpoint below it on
(`le_roundBinary64_iff`), and is beyond it behind the midpoint above (`lt_roundBinary64_iff`).
-/

namespace Elisa.Lib

/-! ## Integers -/

/-- The nearest integer, and of two the even one. -/
def roundHalfEven (q : ℚ) : ℤ :=
  if q - ⌊q⌋ < 1 / 2 then ⌊q⌋
  else if 1 / 2 < q - ⌊q⌋ then ⌊q⌋ + 1
  else if Even ⌊q⌋ then ⌊q⌋
  else ⌊q⌋ + 1

section Integers

variable {q : ℚ} {n : ℤ}

theorem roundHalfEven_of_lt (h : q - ⌊q⌋ < 1 / 2) : roundHalfEven q = ⌊q⌋ := if_pos h

theorem roundHalfEven_of_gt (h : 1 / 2 < q - ⌊q⌋) : roundHalfEven q = ⌊q⌋ + 1 := by
  rw [roundHalfEven, if_neg (not_lt.mpr h.le), if_pos h]

theorem roundHalfEven_of_even (h : q - ⌊q⌋ = 1 / 2) (even : Even ⌊q⌋) :
    roundHalfEven q = ⌊q⌋ := by
  rw [roundHalfEven, if_neg h.not_lt, if_neg h.not_gt, if_pos even]

theorem roundHalfEven_of_odd (h : q - ⌊q⌋ = 1 / 2) (odd : ¬ Even ⌊q⌋) :
    roundHalfEven q = ⌊q⌋ + 1 := by
  rw [roundHalfEven, if_neg h.not_lt, if_neg h.not_gt, if_neg odd]

theorem floor_le_roundHalfEven (q : ℚ) : ⌊q⌋ ≤ roundHalfEven q := by
  rw [roundHalfEven]
  split
  · exact le_refl _
  · split
    · omega
    · split <;> omega

theorem le_roundHalfEven (h : (n : ℚ) ≤ q) : n ≤ roundHalfEven q :=
  le_trans (Int.le_floor.mpr h) (floor_le_roundHalfEven q)

theorem roundHalfEven_le_floor_add_one (q : ℚ) : roundHalfEven q ≤ ⌊q⌋ + 1 := by
  rw [roundHalfEven]
  split
  · omega
  · split
    · omega
    · split <;> omega

theorem roundHalfEven_le (h : q ≤ n) : roundHalfEven q ≤ n := by
  rcases lt_or_eq_of_le h with hlt | rfl
  · exact le_trans (roundHalfEven_le_floor_add_one q) (Int.floor_lt.mpr hlt)
  · rw [roundHalfEven, Int.floor_intCast, sub_self, if_pos (by norm_num)]

/-- An even integer is reached from the midpoint below it on. -/
theorem le_roundHalfEven_iff (even : Even n) : n ≤ roundHalfEven q ↔ (n : ℚ) - 1 / 2 ≤ q := by
  rcases le_or_gt (n : ℚ) q with h | h
  · exact ⟨fun _ => by linarith, fun _ => le_roundHalfEven h⟩
  have hfloor : ⌊q⌋ + 1 ≤ n := Int.floor_lt.mpr h
  have hlt := Int.lt_floor_add_one q
  rcases lt_or_eq_of_le hfloor with hfar | hnext
  · -- The integer is further away than the next one.
    have hcast : (⌊q⌋ : ℚ) + 1 + 1 ≤ n := by exact_mod_cast hfar
    have := roundHalfEven_le_floor_add_one q
    constructor
    · intro hround
      omega
    · intro hmid
      linarith
  · have hcast : (n : ℚ) = ⌊q⌋ + 1 := by exact_mod_cast hnext.symm
    have hodd : ¬ Even ⌊q⌋ := by
      intro hev
      rw [← hnext, Int.even_add_one] at even
      exact even hev
    rw [hcast, ← hnext]
    rcases lt_trichotomy (q - ⌊q⌋) (1 / 2) with hfrac | hfrac | hfrac
    · rw [roundHalfEven_of_lt hfrac]
      exact ⟨fun hround => by omega, fun hmid => by linarith⟩
    · rw [roundHalfEven_of_odd hfrac hodd]
      exact ⟨fun _ => by linarith, fun _ => le_refl _⟩
    · rw [roundHalfEven_of_gt hfrac]
      exact ⟨fun _ => by linarith, fun _ => le_refl _⟩

@[simp] theorem roundHalfEven_neg (q : ℚ) : roundHalfEven (-q) = -roundHalfEven q := by
  have hle := Int.floor_le q
  have hlt := Int.lt_floor_add_one q
  rcases eq_or_lt_of_le hle with hint | hfrac
  · -- An integer is its own rounding.
    rw [← hint, ← Int.cast_neg, roundHalfEven, roundHalfEven, Int.floor_intCast, Int.floor_intCast,
      sub_self, sub_self, if_pos (by norm_num), if_pos (by norm_num)]
  have hfloor : ⌊-q⌋ = -⌊q⌋ - 1 := by
    rw [Int.floor_eq_iff]
    push_cast
    constructor <;> linarith
  have hodd : Even (-⌊q⌋ - 1) ↔ ¬ Even ⌊q⌋ := by
    rw [Int.even_sub_one, even_neg]
  have hneg : -q - ⌊-q⌋ = 1 - (q - ⌊q⌋) := by
    rw [hfloor]
    push_cast
    ring
  rcases lt_trichotomy (q - ⌊q⌋) (1 / 2) with h | h | h
  · rw [roundHalfEven_of_lt h, roundHalfEven_of_gt (by rw [hneg]; linarith), hfloor]
    ring
  · have htie : -q - ⌊-q⌋ = 1 / 2 := by rw [hneg, h]; norm_num
    rcases Decidable.em (Even ⌊q⌋) with hev | hev
    · rw [roundHalfEven_of_even h hev, roundHalfEven_of_odd htie, hfloor]
      · ring
      · rw [hfloor, hodd]
        exact not_not.mpr hev
    · rw [roundHalfEven_of_odd h hev, roundHalfEven_of_even htie, hfloor]
      · ring
      · rw [hfloor, hodd]
        exact hev
  · rw [roundHalfEven_of_gt h, roundHalfEven_of_lt (by rw [hneg]; linarith), hfloor]
    ring

theorem lt_roundHalfEven_iff (even : Even n) : n < roundHalfEven q ↔ (n : ℚ) + 1 / 2 < q := by
  have h := le_roundHalfEven_iff (q := -q) (n := -n) even.neg
  rw [roundHalfEven_neg, Int.neg_le_neg_iff] at h
  push_cast at h
  rw [← not_le, h, not_le]
  constructor <;> intro h <;> linarith

end Integers

/-! ## The format -/

/-- The exponent of the last place of the significand. -/
def unitExponent (x : ℚ) : ℤ := max (Int.log 2 |x| - 52) (-1074)

def roundBinary64 (x : ℚ) : ℚ := roundHalfEven (x / 2 ^ unitExponent x) * 2 ^ unitExponent x

/-- The nearest value, if it is finite. -/
def nearestBinary64 (x : ℚ) : Option ℚ :=
  if |roundBinary64 x| < 2 ^ 1024 then some (roundBinary64 x) else none

section Format

variable {x : ℚ} {t : ℤ} {g : ℤ}

theorem two_zpow_pos (g : ℤ) : (0 : ℚ) < 2 ^ g := zpow_pos (by norm_num) g

@[simp] theorem roundBinary64_neg (x : ℚ) : roundBinary64 (-x) = -roundBinary64 x := by
  rw [roundBinary64, roundBinary64, unitExponent, unitExponent, abs_neg, neg_div, roundHalfEven_neg]
  push_cast
  ring

@[simp] theorem roundBinary64_zero : roundBinary64 0 = 0 := by
  have hzero : roundHalfEven 0 = 0 := by simpa using roundHalfEven_of_lt (q := 0) (by norm_num)
  rw [roundBinary64, zero_div, hzero, Int.cast_zero, zero_mul]

theorem roundBinary64_nonneg (h : 0 ≤ x) : 0 ≤ roundBinary64 x := by
  have hpos := two_zpow_pos (unitExponent x)
  have hround : (0 : ℤ) ≤ roundHalfEven (x / 2 ^ unitExponent x) :=
    le_roundHalfEven (by rw [Int.cast_zero]; positivity)
  exact mul_nonneg (by exact_mod_cast hround) hpos.le

/-- A multiple of the unit is a bound of the rounded value if it is one of the value. -/
theorem roundBinary64_le {n : ℤ} (h : x ≤ n * 2 ^ unitExponent x) :
    roundBinary64 x ≤ n * 2 ^ unitExponent x := by
  have hpos := two_zpow_pos (unitExponent x)
  have hround := roundHalfEven_le ((div_le_iff₀ hpos).mpr h)
  exact mul_le_mul_of_nonneg_right (by exact_mod_cast hround) hpos.le

theorem le_roundBinary64 {n : ℤ} (h : n * 2 ^ unitExponent x ≤ x) :
    n * 2 ^ unitExponent x ≤ roundBinary64 x := by
  have hpos := two_zpow_pos (unitExponent x)
  have hround := le_roundHalfEven ((le_div_iff₀ hpos).mpr h)
  exact mul_le_mul_of_nonneg_right (by exact_mod_cast hround) hpos.le

theorem zpow_split {a b : ℤ} (h : a ≤ b) : ((2 ^ (b - a).toNat : ℤ) : ℚ) * 2 ^ a = 2 ^ b := by
  push_cast
  rw [← zpow_natCast, ← zpow_add₀ (by norm_num), Int.toNat_of_nonneg (by omega)]
  congr 1
  ring

/-- Below the values with a unit, rounding stays at or below the first one of them. -/
theorem roundBinary64_below (hx : 0 ≤ x) (hg : -1074 ≤ g) (h : x < 2 ^ (g + 52)) :
    roundBinary64 x ≤ 2 ^ (g + 52) := by
  rcases eq_or_lt_of_le hx with rfl | hpos
  · rw [roundBinary64_zero]
    exact (two_zpow_pos _).le
  have hlog : Int.log 2 x < g + 52 :=
    (Int.lt_zpow_iff_log_lt (by norm_num) hpos).mp (by exact_mod_cast h)
  have hunit : unitExponent x ≤ g := by
    rw [unitExponent, abs_of_pos hpos]
    omega
  have hsplit := zpow_split (show unitExponent x ≤ g + 52 by omega)
  rw [← hsplit]
  exact roundBinary64_le (by rw [hsplit]; exact h.le)

/-- Beyond the values with a unit, rounding stays beyond the last one of them. -/
theorem roundBinary64_above (hg : -1074 ≤ g) (h : 2 ^ (g + 53) ≤ x) :
    2 ^ (g + 53) ≤ roundBinary64 x := by
  have hpos : 0 < x := lt_of_lt_of_le (two_zpow_pos _) h
  have hlog : g + 53 ≤ Int.log 2 x :=
    (Int.zpow_le_iff_le_log (by norm_num) hpos).mp (by exact_mod_cast h)
  have hunit : unitExponent x = Int.log 2 x - 52 := by
    rw [unitExponent, abs_of_pos hpos]
    omega
  have hle : (2 : ℚ) ^ Int.log 2 x ≤ x := by exact_mod_cast Int.zpow_log_le_self (by norm_num) hpos
  have hsplit := zpow_split (show unitExponent x ≤ Int.log 2 x by omega)
  calc (2 : ℚ) ^ (g + 53) ≤ 2 ^ Int.log 2 x := zpow_le_zpow_right₀ (by norm_num) hlog
    _ = _ := hsplit.symm
    _ ≤ roundBinary64 x := le_roundBinary64 (by rw [hsplit]; exact hle)

/-- Among the values with a unit, rounding is that of integers. -/
theorem roundBinary64_within (hg : -1074 ≤ g) (low : 2 ^ (g + 52) ≤ x) (high : x < 2 ^ (g + 53)) :
    roundBinary64 x = roundHalfEven (x / 2 ^ g) * 2 ^ g := by
  have hpos : 0 < x := lt_of_lt_of_le (two_zpow_pos _) low
  have hlow : g + 52 ≤ Int.log 2 x :=
    (Int.zpow_le_iff_le_log (by norm_num) hpos).mp (by exact_mod_cast low)
  have hhigh : Int.log 2 x < g + 53 :=
    (Int.lt_zpow_iff_log_lt (by norm_num) hpos).mp (by exact_mod_cast high)
  have hunit : unitExponent x = g := by
    rw [unitExponent, abs_of_pos hpos]
    omega
  rw [roundBinary64, hunit]

theorem zpow_unit (g : ℤ) (k : Nat) : (2 : ℚ) ^ (g + k) = 2 ^ k * 2 ^ g := by
  rw [zpow_add₀ (by norm_num), zpow_natCast, mul_comm]

/-- A value below those of a unit rounds to one up to the first of them, a value beyond them to one
from the end of them on, and in between it rounds to a multiple of the unit. -/
theorem roundBinary64_cases (hx : 0 ≤ x) (hg : -1074 ≤ g) :
    (x < 2 ^ 52 * 2 ^ g ∧ roundBinary64 x ≤ 2 ^ 52 * 2 ^ g) ∨
      roundBinary64 x = roundHalfEven (x / 2 ^ g) * 2 ^ g ∨
      2 ^ 53 * 2 ^ g ≤ x ∧ 2 ^ 53 * 2 ^ g ≤ roundBinary64 x := by
  have h52 : (2 : ℚ) ^ (g + 52) = 2 ^ 52 * 2 ^ g := zpow_unit g 52
  have h53 : (2 : ℚ) ^ (g + 53) = 2 ^ 53 * 2 ^ g := zpow_unit g 53
  rw [← h52, ← h53]
  rcases lt_or_ge x (2 ^ (g + 52)) with below | hge
  · exact .inl ⟨below, roundBinary64_below hx hg below⟩
  rcases lt_or_ge x (2 ^ (g + 53)) with within | above
  · exact .inr (.inl (roundBinary64_within hg hge within))
  · exact .inr (.inr ⟨above, roundBinary64_above hg above⟩)

/-- A value with an even significand is reached from the midpoint below it on. -/
theorem le_roundBinary64_iff (hx : 0 ≤ x) (hg : -1074 ≤ g) (even : Even t) (low : 2 ^ 52 < t)
    (high : t ≤ 2 ^ 53) : t * 2 ^ g ≤ roundBinary64 x ↔ (t - 1 / 2) * 2 ^ g ≤ x := by
  have hpos := two_zpow_pos g
  have hlow : (2 : ℚ) ^ 52 + 1 ≤ t := by exact_mod_cast low
  have hhigh : (t : ℚ) ≤ 2 ^ 53 := by exact_mod_cast high
  rcases roundBinary64_cases hx hg with ⟨below, hround⟩ | within | ⟨above, hround⟩
  · exact iff_of_false (by nlinarith) (by nlinarith)
  · rw [within, mul_le_mul_iff_left₀ hpos, Int.cast_le, le_roundHalfEven_iff even, le_div_iff₀ hpos]
  · exact iff_of_true (by nlinarith) (by nlinarith)

/-- A value with an even significand is passed behind the midpoint above it. -/
theorem lt_roundBinary64_iff (hx : 0 ≤ x) (hg : -1074 ≤ g) (even : Even t) (low : 2 ^ 52 ≤ t)
    (high : t < 2 ^ 53) : t * 2 ^ g < roundBinary64 x ↔ (t + 1 / 2) * 2 ^ g < x := by
  have hpos := two_zpow_pos g
  have hlow : (2 : ℚ) ^ 52 ≤ t := by exact_mod_cast low
  have hhigh : (t : ℚ) + 1 ≤ 2 ^ 53 := by exact_mod_cast high
  rcases roundBinary64_cases hx hg with ⟨below, hround⟩ | within | ⟨above, hround⟩
  · exact iff_of_false (by nlinarith) (by nlinarith)
  · rw [within, mul_lt_mul_iff_left₀ hpos, Int.cast_lt, lt_roundHalfEven_iff even, lt_div_iff₀ hpos]
  · exact iff_of_true (by nlinarith) (by nlinarith)

theorem next_le_roundBinary64 (hx : 0 ≤ x) (hg : -1074 ≤ g) (low : 2 ^ 52 ≤ t) (high : t < 2 ^ 53)
    (h : t * 2 ^ g < roundBinary64 x) : (t + 1) * 2 ^ g ≤ roundBinary64 x := by
  have hpos := two_zpow_pos g
  have hlow : (2 : ℚ) ^ 52 ≤ t := by exact_mod_cast low
  have hhigh : (t : ℚ) + 1 ≤ 2 ^ 53 := by exact_mod_cast high
  rcases roundBinary64_cases hx hg with ⟨below, hround⟩ | within | ⟨above, hround⟩
  · nlinarith
  · rw [within] at h ⊢
    have hnext : t + 1 ≤ roundHalfEven (x / 2 ^ g) := by
      exact_mod_cast (mul_lt_mul_iff_left₀ hpos).mp h
    exact mul_le_mul_of_nonneg_right (by exact_mod_cast hnext) hpos.le
  · nlinarith

/-! ## Integers near powers of two -/

theorem zpow_natCast_sub (k j : Nat) : (2 : ℚ) ^ ((k : ℤ) - j) = 2 ^ k / 2 ^ j := by
  rw [zpow_sub₀ (by norm_num), zpow_natCast, zpow_natCast]

/-- A power of two is reached from the midpoint below it on. -/
theorem pow_le_roundBinary64_iff (hx : 0 ≤ x) (k : Nat) :
    2 ^ k ≤ roundBinary64 x ↔ 2 ^ k - 2 ^ k / 2 ^ 54 ≤ x := by
  have h := le_roundBinary64_iff (t := 2 ^ 53) (g := k - (53 : Nat)) hx (by omega) (by decide)
    (by norm_num) (le_refl _)
  have hreach : ((2 ^ 53 : ℤ) : ℚ) * (2 ^ k / 2 ^ 53) = 2 ^ k := by
    push_cast
    ring
  have hmid : (((2 ^ 53 : ℤ) : ℚ) - 1 / 2) * (2 ^ k / 2 ^ 53) = 2 ^ k - 2 ^ k / 2 ^ 54 := by
    push_cast
    ring
  rwa [zpow_natCast_sub, hreach, hmid] at h

theorem succ_pow_le_roundBinary64_iff (hx : 0 ≤ x) {k : Nat} (hk : k < 52) :
    2 ^ k + 1 ≤ roundBinary64 x ↔ 2 ^ k + 1 - 2 ^ k / 2 ^ 53 ≤ x := by
  obtain ⟨j, hj⟩ := Nat.exists_eq_add_of_lt hk
  have hsplit : (2 : ℤ) ^ 52 = 2 ^ k * 2 ^ (j + 1) := by
    rw [← pow_add]
    congr 1
  have hone : (1 : ℤ) ≤ 2 ^ k := one_le_pow₀ (by norm_num)
  have hunit : (0 : ℤ) < 2 ^ (j + 1) := by positivity
  have heven : Even (((2 : ℤ) ^ k + 1) * 2 ^ (j + 1)) :=
    Even.mul_left ((Int.even_pow' (Nat.succ_ne_zero j)).mpr even_two) _
  have h := le_roundBinary64_iff (t := (2 ^ k + 1) * 2 ^ (j + 1))
    (g := k - (52 : Nat)) hx (by omega)
    heven (by nlinarith) (by nlinarith)
  have hcast : (2 : ℚ) ^ 52 = 2 ^ k * 2 ^ (j + 1) := by exact_mod_cast hsplit
  have hk0 : (2 : ℚ) ^ k ≠ 0 := by positivity
  have hj0 : (2 : ℚ) ^ (j + 1) ≠ 0 := by positivity
  have hinv : (2 : ℚ) ^ k / 2 ^ 52 = (2 ^ (j + 1))⁻¹ := by
    rw [hcast]
    field_simp
  have hreach : (((2 ^ k + 1) * 2 ^ (j + 1) : ℤ) : ℚ) * (2 ^ k / 2 ^ 52) = 2 ^ k + 1 := by
    rw [hinv]
    push_cast
    field_simp
  have hmid : ((((2 ^ k + 1) * 2 ^ (j + 1) : ℤ) : ℚ) - 1 / 2) * (2 ^ k / 2 ^ 52) =
      2 ^ k + 1 - 2 ^ k / 2 ^ 53 := by
    rw [sub_mul, hreach]
    ring
  rwa [zpow_natCast_sub, hreach, hmid] at h

/-- Behind a large power of two the integers are passed behind the midpoint above it. -/
theorem succ_pow_le_roundBinary64_iff_lt (hx : 0 ≤ x) {k : Nat} (hk : 52 ≤ k) :
    2 ^ k + 1 ≤ roundBinary64 x ↔ 2 ^ k + 2 ^ k / 2 ^ 53 < x := by
  have hreach : ((2 ^ 52 : ℤ) : ℚ) * (2 ^ k / 2 ^ 52) = 2 ^ k := by
    push_cast
    ring
  have hmid : (((2 ^ 52 : ℤ) : ℚ) + 1 / 2) * (2 ^ k / 2 ^ 52) = 2 ^ k + 2 ^ k / 2 ^ 53 := by
    push_cast
    ring
  have h := lt_roundBinary64_iff (t := 2 ^ 52) (g := k - (52 : Nat)) hx (by omega) (by decide)
    (le_refl _) (by norm_num)
  rw [zpow_natCast_sub, hreach, hmid] at h
  rw [← h]
  constructor
  · intro hle
    linarith
  · intro hlt
    have hnext :=
      next_le_roundBinary64 (t := 2 ^ 52) (g := k - (52 : Nat)) hx (by omega) (le_refl _)
      (by norm_num) (by rwa [zpow_natCast_sub, hreach])
    rw [zpow_natCast_sub, add_mul, hreach, one_mul] at hnext
    have hunit : (1 : ℚ) ≤ 2 ^ k / 2 ^ 52 := by
      rw [le_div_iff₀ (by positivity), one_mul]
      exact pow_le_pow_right₀ (by norm_num) hk
    linarith

end Format

end Elisa.Lib
