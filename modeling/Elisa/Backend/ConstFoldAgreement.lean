import Mathlib.Data.Int.ModEq
import Mathlib.Tactic.Linarith
import Elisa.Backend.ConstFold

/-!
# Where folding agrees with the emitted code

The folder computes the exact integer value of an expression, as far as that fits 64 bits
(`foldConstExpr_exact`), the emitted code computes at the types of the operands.  They agree while
no operation that is sensitive to the high bits of its operands (comparisons, divisions, right
shifts, widening casts) meets a value its type cannot hold, and no value is cast to a floating-point
type (`Faithful`).
-/

namespace Elisa.Backend

open Option

/-! ## Checked arithmetic is exact -/

namespace BackendConstArithmetic

@[simp] theorem toInt_i64Max : i64Max.toInt = 9223372036854775807 := by decide

@[simp] theorem toInt_i64Min : i64Min.toInt = -9223372036854775808 := by decide

theorem toInt_bounds (x : Int64) :
    -9223372036854775808 ≤ x.toInt ∧ x.toInt < 9223372036854775808 := by
  have lower := x.le_toInt
  have upper := x.toInt_lt
  constructor <;> omega

theorem bmod_word {v : Int} (lower : -9223372036854775808 ≤ v) (upper : v < 9223372036854775808) :
    v.bmod (2 ^ 64) = v :=
  Int.bmod_eq_of_le (by norm_num; omega) (by norm_num; omega)

theorem toInt_ne_zero {x : Int64} (h : x ≠ 0) : x.toInt ≠ 0 := by
  intro zero
  exact h (Int64.toInt_inj.mp zero)

variable {left right : Int64}

theorem toInt_add_of_safe (safe : addIsSafe left right = true) :
    (left + right).toInt = left.toInt + right.toInt := by
  have boundsL := toInt_bounds left
  have boundsR := toInt_bounds right
  simp only [addIsSafe, Int64.lt_iff_toInt_lt, Int64.toInt_sub, toInt_i64Max, toInt_i64Min,
    Int64.toInt_zero] at safe
  rw [Int64.toInt_add]
  split at safe
  · cases safe
  rename_i h1
  split at safe
  · cases safe
  rename_i h2
  apply bmod_word
  · by_contra low
    apply h2
    rw [bmod_word (by omega) (by omega)]
    omega
  · by_contra high
    apply h1
    rw [bmod_word (by omega) (by omega)]
    omega

theorem toInt_sub_of_safe (safe : subtractIsSafe left right = true) :
    (left - right).toInt = left.toInt - right.toInt := by
  have boundsL := toInt_bounds left
  have boundsR := toInt_bounds right
  simp only [subtractIsSafe, Int64.lt_iff_toInt_lt, Int64.toInt_add, toInt_i64Max, toInt_i64Min,
    Int64.toInt_zero] at safe
  rw [Int64.toInt_sub]
  split at safe
  · cases safe
  rename_i h1
  split at safe
  · cases safe
  rename_i h2
  apply bmod_word
  · by_contra low
    apply h1
    rw [bmod_word (by omega) (by omega)]
    omega
  · by_contra high
    apply h2
    rw [bmod_word (by omega) (by omega)]
    omega

/-- A quotient of two words, other than the smallest one by `-1`. -/
theorem toInt_div_of_ne (h : left ≠ i64Min ∨ right ≠ -1) :
    (left / right).toInt = left.toInt.tdiv right.toInt := by
  cases h with
  | inl hl => exact Int64.toInt_div_of_ne_left _ _ hl
  | inr hr => exact Int64.toInt_div_of_ne_right _ _ hr

theorem toInt_i64Max_div (x : Int64) :
    (i64Max / x).toInt = (9223372036854775807 : Int).tdiv x.toInt := by
  rw [toInt_div_of_ne (Or.inl (by decide)), toInt_i64Max]

theorem toInt_i64Min_div {x : Int64} (h : 0 < x) :
    (i64Min / x).toInt = -((9223372036854775808 : Int) / x.toInt) := by
  have positive : 0 < x.toInt := by simpa [Int64.lt_iff_toInt_lt] using h
  have ne : x ≠ -1 := by
    rintro rfl
    exact absurd h (by decide)
  rw [toInt_div_of_ne (Or.inr ne), toInt_i64Min, Int.neg_tdiv,
    Int.tdiv_eq_ediv_of_nonneg (by decide)]

/-- The product of two words is a word when the quotient test accepts it.  The
signs of the factors decide which quotient bounds which factor. -/
theorem product_bounds_of_safe (safe : multiplyIsSafe left right = true) :
    -9223372036854775808 ≤ left.toInt * right.toInt ∧
      left.toInt * right.toInt < 9223372036854775808 := by
  unfold multiplyIsSafe at safe
  split at safe
  next zero =>
    rcases zero with rfl | rfl <;> simp
  rename_i nonzero
  have hl : left.toInt ≠ 0 := toInt_ne_zero (fun h => nonzero (Or.inl h))
  have hr : right.toInt ≠ 0 := toInt_ne_zero (fun h => nonzero (Or.inr h))
  split at safe
  next posL =>
    have posL' : 0 < left.toInt := by simpa [Int64.lt_iff_toInt_lt] using posL
    split at safe
    next posR =>
      have posR' : 0 < right.toInt := by simpa [Int64.lt_iff_toInt_lt] using posR
      split at safe
      · cases safe
      rename_i h
      rw [Int64.lt_iff_toInt_lt, toInt_i64Max_div,
        Int.tdiv_eq_ediv_of_nonneg (by decide), not_lt, Int.le_ediv_iff_mul_le posR'] at h
      have := Int.mul_pos posL' posR'
      constructor <;> omega
    rename_i negR
    have negR' : right.toInt < 0 := by
      rw [Int64.lt_iff_toInt_lt, Int64.toInt_zero] at negR
      omega
    split at safe
    · cases safe
    rename_i h
    rw [Int64.lt_iff_toInt_lt, toInt_i64Min_div posL, not_lt] at h
    have bound : -right.toInt * left.toInt ≤ 9223372036854775808 :=
      (Int.le_ediv_iff_mul_le posL').mp (by omega)
    have := Int.mul_pos posL' (by omega : 0 < -right.toInt)
    constructor <;> linarith
  rename_i negL
  have negL' : left.toInt < 0 := by
    rw [Int64.lt_iff_toInt_lt, Int64.toInt_zero] at negL
    omega
  split at safe
  next posR =>
    have posR' : 0 < right.toInt := by simpa [Int64.lt_iff_toInt_lt] using posR
    split at safe
    · cases safe
    rename_i h
    rw [Int64.lt_iff_toInt_lt, toInt_i64Min_div posR, not_lt] at h
    have bound : -left.toInt * right.toInt ≤ 9223372036854775808 :=
      (Int.le_ediv_iff_mul_le posR').mp (by omega)
    have := Int.mul_pos (by omega : 0 < -left.toInt) posR'
    constructor <;> linarith
  rename_i negR
  have negR' : 0 < -right.toInt := by
    rw [Int64.lt_iff_toInt_lt, Int64.toInt_zero] at negR
    omega
  split at safe
  · cases safe
  rename_i h
  have quotient : (9223372036854775807 : Int).tdiv right.toInt =
      -(9223372036854775807 / -right.toInt) := by
    rw [← Int.tdiv_eq_ediv_of_nonneg (by decide), Int.tdiv_neg, neg_neg]
  rw [Int64.lt_iff_toInt_lt, toInt_i64Max_div, quotient, not_lt] at h
  have bound : -left.toInt * -right.toInt ≤ 9223372036854775807 :=
    (Int.le_ediv_iff_mul_le negR').mp (by omega)
  have := Int.mul_pos (by omega : 0 < -left.toInt) negR'
  constructor <;> linarith

theorem toInt_mul_of_safe (safe : multiplyIsSafe left right = true) :
    (left * right).toInt = left.toInt * right.toInt := by
  obtain ⟨lower, upper⟩ := product_bounds_of_safe safe
  rw [Int64.toInt_mul, bmod_word lower upper]

theorem toInt_div_of_safe (safe : divisionIsSafe left right = true) :
    (left / right).toInt = left.toInt.tdiv right.toInt := by
  simp only [divisionIsSafe, decide_eq_true_eq] at safe
  exact toInt_div_of_ne safe.2

theorem toInt_neg_of_safe {value : Int64} (safe : negationIsSafe value = true) :
    (0 - value).toInt = -value.toInt := by
  have bounds := toInt_bounds value
  unfold negationIsSafe at safe
  split at safe
  · cases safe
  rename_i h
  have ne : value.toInt ≠ -9223372036854775808 := by
    intro eq
    exact h (Int64.toInt_inj.mp (by rw [eq, toInt_i64Min]))
  rw [Int64.toInt_sub, Int64.toInt_zero, bmod_word (by omega) (by omega)]
  omega

theorem toInt_not (value : Int64) : (~~~value).toInt = -value.toInt - 1 := by
  have bounds := toInt_bounds value
  rw [Int64.toInt_not, bmod_word (by omega) (by omega)]

theorem shiftCount_bounds {count : Int64} (safe : shiftCountIsSafe count = true) :
    0 ≤ count.toInt ∧ count.toInt < 64 := by
  simpa [shiftCountIsSafe, Int64.le_iff_toInt_le, Int64.lt_iff_toInt_lt, i64ShiftWidth] using safe

theorem smod_of_safe {count : Int64} (safe : shiftCountIsSafe count = true) :
    (count.toBitVec.smod 64).toNat = count.toInt.toNat := by
  obtain ⟨lower, upper⟩ := shiftCount_bounds safe
  have eq : (count.toBitVec.smod 64).toInt = count.toInt := by
    rw [BitVec.toInt_smod]
    exact (Int.fmod_eq_emod_of_nonneg _ (by decide)).trans (Int.emod_eq_of_lt lower upper)
  have small : 2 * (count.toBitVec.smod 64).toNat < 2 ^ 64 := by
    by_contra big
    rw [BitVec.toInt_eq_toNat_cond, if_neg big] at eq
    have := (count.toBitVec.smod 64).isLt
    omega
  rw [BitVec.toInt_eq_toNat_cond, if_pos small] at eq
  omega

end BackendConstArithmetic

/-! ## The exact value -/

open BackendConstArithmetic

def wordBitwise (f : BitVec 64 → BitVec 64 → BitVec 64) (left right : Int) : Int :=
  (f (BitVec.ofInt 64 left) (BitVec.ofInt 64 right)).toInt

/-- What an operator means on integers.  Patterns and shifts are those of a
64-bit word; sums, products and quotients are not bounded. -/
def exactBinary (operator : TokenKind) (left right : Int) : Int :=
  match operator with
  | .eqEq => bit (left = right)
  | .bangEq => bit (left ≠ right)
  | .lt => bit (left < right)
  | .gt => bit (right < left)
  | .ltEq => bit (left ≤ right)
  | .gtEq => bit (right ≤ left)
  | .and => bit (left ≠ 0 ∧ right ≠ 0)
  | .or => bit (left ≠ 0 ∨ right ≠ 0)
  | .plus => left + right
  | .minus => left - right
  | .star => left * right
  | .slash => left.tdiv right
  | .percent => left.tmod right
  | .caret => wordBitwise (· ^^^ ·) left right
  | .pipe => wordBitwise (· ||| ·) left right
  | .ampersand => wordBitwise (· &&& ·) left right
  | .lShift => (left * 2 ^ right.toNat).bmod (2 ^ 64)
  | .rShift => left >>> right.toNat
  | _ => 0

/-- The integer an expression denotes when no type is taken into account. -/
def exactValue (env : ConstEnv) : ConstExpr → Int
  | .intLit value => value.toInt
  | .boolLit value => bit (value = true)
  | .charLit code => code.toNat
  | .ident name => ((env none name).map fun row => row.value.toInt).getD 0
  | .scope module name => ((env (some module) name).map fun row => row.value.toInt).getD 0
  | .paren inner => exactValue env inner
  | .unary .minus operand => -exactValue env operand
  | .unary .plus operand => exactValue env operand
  | .unary .tilde operand => -exactValue env operand - 1
  | .unary _ operand => bit (exactValue env operand = 0)
  | .cast object _ | .floatCast object => exactValue env object
  | .binary left operator right =>
    exactBinary operator (exactValue env left) (exactValue env right)
  | .other => 0

@[simp] theorem toInt_flag (p : Prop) [Decidable p] : (flag p).toInt = bit p := by
  unfold flag bit
  split <;> decide

theorem bit_congr {p q : Prop} [Decidable p] [Decidable q] (h : p ↔ q) : bit p = bit q := by
  unfold bit
  simp only [h]

variable {x : Int64}

theorem toInt_eq_zero_iff : x.toInt = 0 ↔ x = 0 := by
  rw [← Int64.toInt_zero, Int64.toInt_inj]

variable {left right : Int64}

theorem toInt_shiftLeft_of_safe (safe : shiftCountIsSafe right = true) :
    (left <<< right).toInt = (left.toInt * 2 ^ right.toInt.toNat).bmod (2 ^ 64) := by
  change (left <<< right).toBitVec.toInt = _
  rw [Int64.toBitVec_shiftLeft]
  change (left.toBitVec <<< (right.toBitVec.smod 64).toNat).toInt = _
  rw [smod_of_safe safe, BitVec.toInt_shiftLeft, Nat.shiftLeft_eq, Int.natCast_mul,
    ← Int.bmod_mul_bmod, ← BitVec.toInt_eq_toNat_bmod, Int.natCast_pow]
  rfl

theorem toInt_shiftRight_of_safe (safe : shiftCountIsSafe right = true) :
    (left >>> right).toInt = left.toInt >>> right.toInt.toNat := by
  change (left >>> right).toBitVec.toInt = _
  rw [Int64.toBitVec_shiftRight, BitVec.sshiftRight', BitVec.toInt_sshiftRight, smod_of_safe safe]
  rfl

variable {v : Int64} {operator : TokenKind}

theorem foldConstBinaryValues_exact (h : foldConstBinaryValues left operator right = some v) :
    exactBinary operator left.toInt right.toInt = v.toInt := by
  cases operator with
  | eqEq | bangEq | lt | gt | ltEq | gtEq | and | or =>
    simp only [foldConstBinaryValues, Option.some.injEq] at h
    subst h
    rw [toInt_flag]
    apply bit_congr
    simp only [Int64.toInt_inj, Int64.lt_iff_toInt_lt, Int64.le_iff_toInt_le, ne_eq,
      toInt_eq_zero_iff]
  | plus =>
    obtain ⟨safe, ⟨⟩⟩ := ite_none_right_eq_some.mp h
    exact (toInt_add_of_safe safe).symm
  | minus =>
    obtain ⟨safe, ⟨⟩⟩ := ite_none_right_eq_some.mp h
    exact (toInt_sub_of_safe safe).symm
  | star =>
    obtain ⟨safe, ⟨⟩⟩ := ite_none_right_eq_some.mp h
    exact (toInt_mul_of_safe safe).symm
  | slash =>
    obtain ⟨safe, ⟨⟩⟩ := ite_none_right_eq_some.mp h
    exact (toInt_div_of_safe safe).symm
  | percent =>
    obtain ⟨-, ⟨⟩⟩ := ite_none_right_eq_some.mp h
    exact (Int64.toInt_mod left right).symm
  | lShift =>
    obtain ⟨safe, ⟨⟩⟩ := ite_none_right_eq_some.mp h
    exact (toInt_shiftLeft_of_safe safe).symm
  | rShift =>
    obtain ⟨safe, ⟨⟩⟩ := ite_none_right_eq_some.mp h
    exact (toInt_shiftRight_of_safe safe).symm
  | caret | pipe | ampersand =>
    obtain rfl := Option.some.inj h
    simp only [exactBinary, wordBitwise, BitVec.ofInt_int64ToInt]
    rfl
  | not | tilde | other => cases h

theorem toInt_charCode (code : UInt8) : code.toUInt64.toInt64.toInt = (code.toNat : Int) := by
  have small := code.toNat_lt
  change code.toUInt64.toBitVec.toInt = _
  have word : code.toUInt64.toBitVec.toNat = code.toNat := by simp
  rw [BitVec.toInt_eq_toNat_of_lt (by rw [word]; omega), word]

theorem foldConstRow_exact {row : Option ConstRow} (h : foldConstRow row = some v) :
    (row.map fun r => r.value.toInt).getD 0 = v.toInt := by
  cases row with
  | none => cases h
  | some r =>
    obtain ⟨-, ⟨⟩⟩ := ite_none_right_eq_some.mp h
    rfl

variable {env : ConstEnv}

theorem foldConstExpr_exact {e : ConstExpr} (h : foldConstExpr env e = some v) :
    exactValue env e = v.toInt := by
  induction e generalizing v with
  | intLit value =>
    obtain rfl := Option.some.inj h
    rfl
  | boolLit value =>
    obtain rfl := Option.some.inj h
    exact (toInt_flag _).symm
  | charLit code =>
    obtain rfl := Option.some.inj h
    exact (toInt_charCode code).symm
  | ident name => exact foldConstRow_exact h
  | scope module name => exact foldConstRow_exact h
  | paren inner ih => exact ih h
  | unary operator operand ih =>
    obtain ⟨x, hx, h⟩ := bind_eq_some_iff.mp h
    have exact := ih hx
    cases operator with
    | minus =>
      obtain ⟨safe, ⟨⟩⟩ := ite_none_right_eq_some.mp h
      rw [exactValue, exact, toInt_neg_of_safe safe]
    | plus =>
      obtain rfl := Option.some.inj h
      exact exact
    | tilde =>
      obtain rfl := Option.some.inj h
      rw [exactValue, exact, toInt_not]
    | _ => cases h
  | cast object type ih => exact ih h
  | floatCast object ih => exact ih h
  | binary left operator right ihl ihr =>
    obtain ⟨x, hx, h⟩ := bind_eq_some_iff.mp h
    obtain ⟨y, hy, h⟩ := bind_eq_some_iff.mp h
    rw [exactValue, ihl hx, ihr hy]
    exact foldConstBinaryValues_exact h
  | other => cases h

/-! ## Values modulo a type's width -/

namespace ScalarType

/-- The type keeps the value. -/
def Fits (T : ScalarType) (v : Int) : Prop := T.wrap v = v

instance (T : ScalarType) (v : Int) : Decidable (T.Fits v) :=
  inferInstanceAs (Decidable (_ = _))

theorem bits_le (T : ScalarType) : T.bits ≤ 64 := by
  rcases T with (_ | _ | _ | _) | (_ | _ | _ | _) | _ <;> decide

theorem wrap_congr (T : ScalarType) (v : Int) : T.wrap v ≡ v [ZMOD (2 ^ T.bits : Nat)] := by
  cases T with
  | signed w => exact Int.bmod_emod
  | unsigned w => exact Int.mod_modEq v _
  | bool => exact Int.mod_modEq v 2

/-- Two values wrap to the same one when they agree modulo the width. -/
theorem wrap_eq_of_congr {T : ScalarType} {a b : Int} (h : a ≡ b [ZMOD (2 ^ T.bits : Nat)]) :
    T.wrap a = T.wrap b := by
  cases T with
  | signed w =>
    have h : a % ((2 ^ w.bits : Nat) : Int) = b % ((2 ^ w.bits : Nat) : Int) := h
    simp only [wrap]
    rw [← Int.emod_bmod a, h, Int.emod_bmod]
  | unsigned w => exact h
  | bool => exact h

@[simp] theorem wrap_wrap (T : ScalarType) (v : Int) : T.wrap (T.wrap v) = T.wrap v :=
  wrap_eq_of_congr (T.wrap_congr v)

theorem two_pow_dvd {m n : Nat} (h : m ≤ n) : ((2 ^ m : Nat) : Int) ∣ ((2 ^ n : Nat) : Int) :=
  Int.natCast_dvd_natCast.mpr (Nat.pow_dvd_pow 2 h)

theorem wrap_wrap_of_le {S T : ScalarType} (h : T.bits ≤ S.bits) (v : Int) :
    T.wrap (S.wrap v) = T.wrap v :=
  wrap_eq_of_congr ((S.wrap_congr v).of_dvd (two_pow_dvd h))

theorem wrap_bmod_word (T : ScalarType) (v : Int) : T.wrap (v.bmod (2 ^ 64)) = T.wrap v :=
  wrap_wrap_of_le (S := signed .w64) T.bits_le v

theorem fits_bit (T : ScalarType) (p : Prop) [Decidable p] : T.Fits (bit p) := by
  unfold Fits bit
  split <;> rcases T with (_ | _ | _ | _) | (_ | _ | _ | _) | _ <;> decide

theorem fits_signed_iff {w : Width} {v : Int} :
    (signed w).Fits v ↔ v.bmod (2 ^ (signed w).bits) = v :=
  Iff.rfl

theorem read_of_ne_bool {T : ScalarType} (h : T ≠ bool) (v : Int) : T.read v = v := by
  cases T with
  | bool => exact absurd rfl h
  | _ => rfl

theorem read_congr (T : ScalarType) (v : Int) : T.read v ≡ v [ZMOD (2 ^ T.bits : Nat)] := by
  cases T with
  | bool => exact Int.bmod_emod
  | _ => exact Int.ModEq.refl v

theorem read_wrap_congr (T : ScalarType) (v : Int) :
    T.read (T.wrap v) ≡ v [ZMOD (2 ^ T.bits : Nat)] :=
  (T.read_congr _).trans (T.wrap_congr v)

theorem read_inj_of_fits {T : ScalarType} {a b : Int} (ha : T.Fits a) (hb : T.Fits b) :
    T.read a = T.read b ↔ a = b := by
  constructor
  · intro h
    have congr : a ≡ b [ZMOD (2 ^ T.bits : Nat)] :=
      (T.read_congr a).symm.trans (by rw [h]; exact T.read_congr b)
    rw [← ha, ← hb]
    exact wrap_eq_of_congr congr
  · intro h
    rw [h]

end ScalarType

/-! ## Bit patterns -/

variable {n : Nat}

theorem ofInt_congr {a b : Int} (h : a ≡ b [ZMOD (2 ^ n : Nat)]) :
    BitVec.ofInt n a = BitVec.ofInt n b := by
  apply BitVec.eq_of_toNat_eq
  rw [BitVec.toNat_ofInt, BitVec.toNat_ofInt, show a % _ = b % _ from h]

theorem setWidth_word (h : n ≤ 64) (x : BitVec 64) : x.setWidth n = BitVec.ofInt n x.toInt :=
  (BitVec.signExtend_eq_setWidth_of_le x h).symm

theorem setWidth_ofInt_word (h : n ≤ 64) (v : Int) :
    (BitVec.ofInt 64 v).setWidth n = BitVec.ofInt n v := by
  rw [setWidth_word h, BitVec.toInt_ofInt]
  exact ofInt_congr (Int.ModEq.of_dvd (ScalarType.two_pow_dvd h) Int.bmod_emod)

variable {T : ScalarType}

/-- A bitwise operator of the code works on each bit by itself, so that it can
be computed on words and truncated afterwards. -/
theorem wrap_bitwise {T : ScalarType} {f : (n : Nat) → BitVec n → BitVec n → BitVec n}
    (hf : ∀ x y : BitVec 64, (f 64 x y).setWidth T.bits =
      f T.bits (x.setWidth T.bits) (y.setWidth T.bits)) (x y : Int) :
    T.wrap (f T.bits (BitVec.ofInt T.bits (T.read (T.wrap x)))
      (BitVec.ofInt T.bits (T.read (T.wrap y)))).toInt = T.wrap (wordBitwise (f 64) x y) := by
  rw [ofInt_congr (T.read_wrap_congr x), ofInt_congr (T.read_wrap_congr y),
    ← setWidth_ofInt_word T.bits_le x, ← setWidth_ofInt_word T.bits_le y, ← hf,
    setWidth_word T.bits_le, BitVec.toInt_ofInt]
  exact ScalarType.wrap_eq_of_congr Int.bmod_emod

/-! ## Where the two computations agree -/

/-- A value of type `S` can be brought to `T`: a `bool` needs 0 or 1, a type
that is not wider needs nothing, and a wider one needs the value of `S` to be
the exact one. -/
def Converts (S T : ScalarType) (v : Int) : Prop :=
  if T = .bool then v = 0 ∨ v = 1 else (S ≠ .bool ∧ T.bits ≤ S.bits) ∨ S.Fits v

instance (S T : ScalarType) (v : Int) : Decidable (Converts S T v) :=
  inferInstanceAs (Decidable (ite _ _ _))

/-- A sum, difference or product: unsigned ones may wrap, signed ones must not
trap, and `bool` has none. -/
def ArithmeticFaithful (T : ScalarType) (result : Int) : Prop :=
  match T with
  | .unsigned _ => True
  | .signed w => (ScalarType.signed w).Fits result
  | .bool => False

instance (T : ScalarType) (result : Int) : Decidable (ArithmeticFaithful T result) :=
  match T with
  | .unsigned _ => inferInstanceAs (Decidable True)
  | .signed w => inferInstanceAs (Decidable ((ScalarType.signed w).Fits result))
  | .bool => inferInstanceAs (Decidable False)

/-- An operator at type `T` computes from the operands of exact values `x` and
`y` what folding computes. -/
def OperatorFaithful (T : ScalarType) (operator : TokenKind) (x y : Int) : Prop :=
  match operator with
  | .eqEq | .bangEq => T.Fits x ∧ T.Fits y
  | .lt | .gt | .ltEq | .gtEq => T ≠ .bool ∧ T.Fits x ∧ T.Fits y
  | .plus => ArithmeticFaithful T (T.wrap x + T.wrap y)
  | .minus => ArithmeticFaithful T (T.wrap x - T.wrap y)
  | .star => ArithmeticFaithful T (T.wrap x * T.wrap y)
  | .slash | .percent => T ≠ .bool ∧ T.Fits x ∧ T.Fits y ∧ T.Fits (x.tdiv y)
  | .lShift => T ≠ .bool ∧ y < T.bits
  | .rShift => T ≠ .bool ∧ y < T.bits ∧ T.Fits x
  | _ => True

mutual

/-- No part of the expression that is evaluated loses bits that an operator
around it looks at, none is of a floating-point type, and none traps.  The type is the one the
context expects. -/
def Faithful (env : ConstEnv) (expected : ScalarType) : ConstExpr → Prop
  | .intLit value => expected = .bool → value = 0 ∨ value = 1
  | .boolLit _ | .charLit _ | .ident _ | .scope _ _ | .other => True
  | .paren inner => Faithful env expected inner
  | .floatCast _ => False
  | .unary _ operand =>
    resolveType env operand expected ≠ .bool ∧
      Faithful env (resolveType env operand expected) operand
  | .cast object type =>
    Faithful env (.signed .w64) object ∧
      Converts (resolveType env object (.signed .w64)) type (exactValue env object)
  | .binary left operator right =>
    if operator = .and ∨ operator = .or then
      resolveType env left .bool = .bool ∧ resolveType env right .bool = .bool ∧
      right.isFloat = false ∧
      (Faithful env .bool left ∧ (exactValue env left = 0 ∨ exactValue env left = 1) ∨
        TruthFaithful env left) ∧
      -- The right operand is only evaluated where the left one does not decide.
      ((operator = .and ↔ exactValue env left ≠ 0) →
        Faithful env .bool right ∧ (exactValue env right = 0 ∨ exactValue env right = 1) ∨
          TruthFaithful env right)
    else
      (operator.isComparison ∨ resolveType env (.binary left operator right) expected =
        operandType env left right expected) ∧
      Faithful env (operandType env left right expected) left ∧
      Faithful env (operandType env left right expected) right ∧
      Converts (resolveType env right (operandType env left right expected))
        (operandType env left right expected) (exactValue env right) ∧
      OperatorFaithful (operandType env left right expected) operator
        (exactValue env left) (exactValue env right)

/-- A conversion to `bool` of a value that is zero at its type only if it is zero: as an operand of
`and` and `or`, it is as true as what is converted. -/
def TruthFaithful (env : ConstEnv) : ConstExpr → Prop
  | .paren inner => TruthFaithful env inner
  | .cast object type =>
    type = .bool ∧ Faithful env (.signed .w64) object ∧
      ((resolveType env object (.signed .w64)).wrap (exactValue env object) = 0 →
        exactValue env object = 0)
  | _ => False

end

/-! ## One step -/

theorem wrap_zero (T : ScalarType) : T.wrap 0 = 0 := T.fits_bit False

theorem wrap_one (T : ScalarType) : T.wrap 1 = 1 := T.fits_bit True

variable {S : ScalarType}

theorem emitConversion_of_converts {v : Int} (h : Converts S T v) :
    emitConversion T (S.wrap v) = T.wrap v := by
  unfold Converts at h
  split at h
  next bool =>
    subst bool
    rcases h with rfl | rfl
    · rw [wrap_zero, wrap_zero]
      rfl
    · rw [wrap_one, wrap_one]
      rfl
  rename_i ne
  have conv : emitConversion T (S.wrap v) = T.wrap (S.wrap v) := by
    cases T with
    | bool => exact absurd rfl ne
    | _ => rfl
  rw [conv]
  rcases h with ⟨-, narrow⟩ | fits
  · exact ScalarType.wrap_wrap_of_le narrow v
  · rw [fits]

variable {y : Int}

theorem emitArithmetic_of_faithful {op : Int → Int → Int} {x : Int}
    (hop : ∀ {n a b c d : Int}, a ≡ b [ZMOD n] → c ≡ d [ZMOD n] → op a c ≡ op b d [ZMOD n])
    (h : ArithmeticFaithful T (op (T.wrap x) (T.wrap y))) :
    emitArithmetic T (op (T.read (T.wrap x)) (T.read (T.wrap y))) = some (T.wrap (op x y)) := by
  have congr := ScalarType.wrap_eq_of_congr (hop (T.wrap_congr x) (T.wrap_congr y))
  cases T with
  | unsigned w => exact congrArg some congr
  | signed w =>
    have fits : (op _ _).bmod _ = _ := ScalarType.fits_signed_iff.mp h
    exact (if_pos fits).trans (congrArg some congr)
  | bool => exact h.elim

theorem emitDivision_of_fits {x result : Int} (ne : T ≠ .bool) (hy : y ≠ 0)
    (quotient : T.Fits (x.tdiv y)) : emitDivision T x y result = some (T.wrap result) := by
  unfold emitDivision
  rw [if_neg hy]
  cases T with
  | unsigned w => rfl
  | signed w => exact if_pos (ScalarType.fits_signed_iff.mp quotient)
  | bool => exact absurd rfl ne

theorem emitShift_of_lt {result : Nat → Int} (nonneg : 0 ≤ y) (lt : y < T.bits) :
    emitShift T (T.wrap y) result = some (T.wrap (result y.toNat)) := by
  have pow : T.bits < 2 ^ T.bits := Nat.lt_two_pow_self
  have count : (T.wrap y % (2 ^ T.bits : Nat)) = y :=
    Eq.trans (T.wrap_congr y) (Int.emod_eq_of_lt nonneg (by omega))
  unfold emitShift
  rw [count, if_pos (by omega)]

theorem wrap_comparison {p q : Prop} [Decidable p] [Decidable q] (h : p ↔ q) :
    some (bit p) = some (ScalarType.bool.wrap (bit q)) := by
  rw [ScalarType.fits_bit .bool q, bit_congr h]

theorem divisor_ne_zero (safe : divisionIsSafe left right = true) : right.toInt ≠ 0 := by
  simp only [divisionIsSafe, decide_eq_true_eq] at safe
  exact toInt_ne_zero safe.1

theorem emitBinary_of_faithful (logical : ¬ (operator = .and ∨ operator = .or))
    (faithful : OperatorFaithful T operator left.toInt right.toInt)
    (fold : foldConstBinaryValues left operator right = some v) :
    emitBinary T operator (T.wrap left.toInt) (T.wrap right.toInt) =
      some ((if operator.isComparison then ScalarType.bool else T).wrap v.toInt) := by
  rw [← foldConstBinaryValues_exact fold]
  cases operator with
  | plus => exact emitArithmetic_of_faithful Int.ModEq.add faithful
  | minus => exact emitArithmetic_of_faithful Int.ModEq.sub faithful
  | star => exact emitArithmetic_of_faithful Int.ModEq.mul faithful
  | ampersand =>
    exact congrArg some (wrap_bitwise (f := fun _ x y => x &&& y)
      (fun _ _ => BitVec.setWidth_and) _ _)
  | pipe =>
    exact congrArg some (wrap_bitwise (f := fun _ x y => x ||| y)
      (fun _ _ => BitVec.setWidth_or) _ _)
  | caret =>
    exact congrArg some (wrap_bitwise (f := fun _ x y => x ^^^ y)
      (fun _ _ => BitVec.setWidth_xor) _ _)
  | eqEq =>
    obtain ⟨fitsL, fitsR⟩ := faithful
    rw [fitsL, fitsR]
    exact wrap_comparison (ScalarType.read_inj_of_fits fitsL fitsR)
  | bangEq =>
    obtain ⟨fitsL, fitsR⟩ := faithful
    rw [fitsL, fitsR]
    exact wrap_comparison (not_congr (ScalarType.read_inj_of_fits fitsL fitsR))
  | lt | gt | ltEq | gtEq =>
    obtain ⟨ne, fitsL, fitsR⟩ := faithful
    rw [fitsL, fitsR]
    exact wrap_comparison (by rw [T.read_of_ne_bool ne, T.read_of_ne_bool ne])
  | slash =>
    obtain ⟨ne, fitsL, fitsR, quotient⟩ := faithful
    obtain ⟨safe, -⟩ := ite_none_right_eq_some.mp fold
    rw [fitsL, fitsR]
    simp only [emitBinary, T.read_of_ne_bool ne]
    exact emitDivision_of_fits ne (divisor_ne_zero safe) quotient
  | percent =>
    obtain ⟨ne, fitsL, fitsR, quotient⟩ := faithful
    obtain ⟨safe, -⟩ := ite_none_right_eq_some.mp fold
    rw [fitsL, fitsR]
    simp only [emitBinary, T.read_of_ne_bool ne]
    exact emitDivision_of_fits ne (divisor_ne_zero safe) quotient
  | lShift =>
    obtain ⟨ne, lt⟩ := faithful
    obtain ⟨safe, -⟩ := ite_none_right_eq_some.mp fold
    simp only [emitBinary, T.read_of_ne_bool ne]
    rw [emitShift_of_lt (shiftCount_bounds safe).1 lt]
    change _ = some (T.wrap (Int.bmod _ _))
    rw [T.wrap_bmod_word]
    exact congrArg some
      (ScalarType.wrap_eq_of_congr ((T.wrap_congr _).mul_right _))
  | rShift =>
    obtain ⟨ne, lt, fitsL⟩ := faithful
    obtain ⟨safe, -⟩ := ite_none_right_eq_some.mp fold
    simp only [emitBinary, T.read_of_ne_bool ne]
    rw [emitShift_of_lt (shiftCount_bounds safe).1 lt, fitsL]
    rfl
  | and => exact absurd (Or.inl rfl) logical
  | or => exact absurd (Or.inr rfl) logical
  | not | tilde | other => cases fold

/-! ## Whole expressions -/

theorem resolveType_idem (env : ConstEnv) (e : ConstExpr) (expected : ScalarType) :
    resolveType env e (resolveType env e expected) = resolveType env e expected := by
  unfold resolveType
  cases expressionType env e <;> rfl

theorem resolveType_left (env : ConstEnv) (left right : ConstExpr) (expected : ScalarType) :
    resolveType env left (operandType env left right expected) =
      operandType env left right expected := by
  unfold resolveType operandType
  cases expressionType env left <;> rfl

theorem fits_word (x : Int64) : (ScalarType.signed .w64).Fits x.toInt :=
  bmod_word (toInt_bounds x).1 (toInt_bounds x).2

theorem wrap_fits_word (h : S ≠ .unsigned .w64) (v : Int) :
    (ScalarType.signed .w64).Fits (S.wrap v) := by
  apply bmod_word
  · cases S with
    | signed w =>
      have lower := @Int.le_bmod v (2 ^ w.bits) (Nat.two_pow_pos _)
      cases w <;> simp only [ScalarType.wrap, Width.bits] at * <;> omega
    | unsigned w => cases w <;> simp only [ScalarType.wrap, Width.bits] <;> omega
    | bool =>
      simp only [ScalarType.wrap]
      omega
  · cases S with
    | signed w =>
      have upper := @Int.bmod_lt v (2 ^ w.bits) (Nat.two_pow_pos _)
      cases w <;> simp only [ScalarType.wrap, Width.bits] at * <;> omega
    | unsigned w =>
      cases w with
      | w64 => exact absurd rfl h
      | _ =>
        simp only [ScalarType.wrap, Width.bits]
        omega
    | bool =>
      simp only [ScalarType.wrap]
      omega

variable {expected : ScalarType}

theorem emitConstRow_of_fold {row : Option ConstRow} (fold : foldConstRow row = some v) :
    emitConstRow row = some (((row.map ConstRow.type).getD expected).wrap v.toInt) := by
  cases row with
  | none => cases fold
  | some r =>
    obtain ⟨resolved, ⟨⟩⟩ := ite_none_right_eq_some.mp fold
    exact if_pos resolved

theorem emit_intLit {value : Int64} (faithful : expected = .bool → value = 0 ∨ value = 1) :
    emitConversion expected value.toInt = expected.wrap value.toInt := by
  have converts : Converts (.signed .w64) expected value.toInt := by
    unfold Converts
    split
    next h =>
      rcases faithful h with rfl | rfl
      · exact Or.inl rfl
      · exact Or.inr rfl
    next => exact Or.inr (fits_word value)
  have conversion := emitConversion_of_converts converts
  rwa [fits_word value] at conversion

theorem isFloat_of_faithful {e : ConstExpr} (faithful : Faithful env expected e) :
    e.isFloat = false := by
  induction e generalizing expected with
  | paren inner ih => exact ih faithful
  | floatCast object => exact faithful.elim
  | unary operator operand ih =>
    rw [ConstExpr.isFloat, ih faithful.2, Bool.and_false]
  | binary left operator right ihl ihr =>
    by_cases logical : operator = .and ∨ operator = .or
    · rcases logical with rfl | rfl <;> simp [ConstExpr.isFloat]
    · rw [Faithful, if_neg logical] at faithful
      obtain ⟨-, faithfulL, faithfulR, -⟩ := faithful
      simp [ConstExpr.isFloat, ihl faithfulL, ihr faithfulR]
  | _ => rfl

theorem isFloat_of_truthFaithful {e : ConstExpr} (faithful : TruthFaithful env e) :
    e.isFloat = false := by
  induction e with
  | paren inner ih => exact ih faithful
  | cast => rfl
  | _ => exact faithful.elim

/-- An operand of `and` or `or` whose truth is kept. -/
def OperandFaithful (env : ConstEnv) (e : ConstExpr) : Prop :=
  Faithful env .bool e ∧ (exactValue env e = 0 ∨ exactValue env e = 1) ∨ TruthFaithful env e

theorem isFloat_of_operandFaithful {e : ConstExpr} (faithful : OperandFaithful env e) :
    e.isFloat = false :=
  faithful.elim (fun faithful => isFloat_of_faithful faithful.1) isFloat_of_truthFaithful

/-- The short-circuit operators evaluate the right operand only where it
decides, and agree with the folder, which evaluates both. -/
theorem emit_logical {env : ConstEnv} {floats : FloatCode} {left right : ConstExpr}
    {operator : TokenKind} {x y v : Int64} {expected : ScalarType}
    (logical : operator = .and ∨ operator = .or)
    (faithful : Faithful env expected (.binary left operator right))
    (emitL : emitExpression env floats .bool left = some (bit (x ≠ 0)))
    (emitR : OperandFaithful env right →
      emitExpression env floats .bool right = some (bit (y ≠ 0)))
    (exactL : exactValue env left = x.toInt)
    (fold : foldConstBinaryValues x operator y = some v) :
    emitExpression env floats expected (.binary left operator right) =
      some (ScalarType.bool.wrap v.toInt) := by
  rw [Faithful, if_pos logical] at faithful
  obtain ⟨boolL, boolR, plainR, faithfulL, decides⟩ := faithful
  have plainL := isFloat_of_operandFaithful faithfulL
  rw [exactL, Ne, toInt_eq_zero_iff] at decides
  rw [emitExpression, plainL, plainR, Bool.or_self, if_neg Bool.false_ne_true, if_pos logical,
    if_pos ⟨boolL, boolR⟩, emitL, Option.bind_eq_bind, Option.bind_some]
  rcases logical with rfl | rfl
  · obtain rfl := Option.some.inj fold
    rw [toInt_flag, show ScalarType.bool.wrap (bit _) = _ from ScalarType.fits_bit .bool _]
    by_cases zero : x = 0
    · simp [zero, bit]
    · rw [emitR (decides (by simp [zero]))]
      simp [zero, bit]
  · obtain rfl := Option.some.inj fold
    rw [toInt_flag, show ScalarType.bool.wrap (bit _) = _ from ScalarType.fits_bit .bool _]
    by_cases zero : x = 0
    · rw [emitR (decides (by simp [zero]))]
      simp [zero, bit]
    · simp [zero, bit]

theorem emitUnary_of_fold (fold : foldConstUnaryValue operator x = some v) :
    emitUnary T operator (T.wrap x.toInt) = some (T.wrap v.toInt) := by
  cases operator with
  | minus =>
    obtain ⟨safe, ⟨⟩⟩ := ite_none_right_eq_some.mp fold
    rw [toInt_neg_of_safe safe]
    exact congrArg some (ScalarType.wrap_eq_of_congr (T.wrap_congr _).neg)
  | plus =>
    obtain rfl := Option.some.inj fold
    rfl
  | tilde =>
    obtain rfl := Option.some.inj fold
    rw [toInt_not]
    exact congrArg some (ScalarType.wrap_eq_of_congr ((T.wrap_congr _).neg.sub_right 1))
  | _ => cases fold

theorem wrap_bool {x : Int64} (value : x.toInt = 0 ∨ x.toInt = 1) :
    ScalarType.bool.wrap x.toInt = bit (x ≠ 0) := by
  rw [bit_congr (not_congr (@toInt_eq_zero_iff x).symm)]
  rcases value with zero | one
  · simp [zero, wrap_zero, bit]
  · simp [one, wrap_one, bit]

variable {floats : FloatCode}

/-- On a faithful expression the folded value, truncated to the type of the
expression, is the value the emitted code computes; and a conversion to `bool` that keeps the truth
is as true as the folded value. -/
theorem emitExpression_of_faithful {e : ConstExpr} (fold : foldConstExpr env e = some v) :
    (∀ expected, Faithful env expected e →
      emitExpression env floats expected e = some ((resolveType env e expected).wrap v.toInt)) ∧
    (TruthFaithful env e → emitExpression env floats .bool e = some (bit (v ≠ 0))) := by
  induction e generalizing v with
  | intLit value =>
    obtain rfl := Option.some.inj fold
    exact ⟨fun _ faithful => congrArg some (emit_intLit faithful), False.elim⟩
  | boolLit value =>
    obtain rfl := Option.some.inj fold
    refine ⟨fun _ _ => ?_, False.elim⟩
    rw [toInt_flag]
    exact congrArg some (ScalarType.fits_bit .bool (value = true)).symm
  | charLit code =>
    obtain rfl := Option.some.inj fold
    refine ⟨fun _ _ => ?_, False.elim⟩
    change some _ = some ((ScalarType.signed .w64).wrap _)
    rw [fits_word, toInt_charCode]
  | ident name | scope module name => exact ⟨fun _ _ => emitConstRow_of_fold fold, False.elim⟩
  | paren inner ih => exact ih fold
  | floatCast object => exact ⟨fun _ => False.elim, False.elim⟩
  | unary operator operand ih =>
    obtain ⟨x, foldX, fold⟩ := bind_eq_some_iff.mp fold
    refine ⟨fun expected faithful => ?_, False.elim⟩
    obtain ⟨ne, faithful⟩ := faithful
    have emitX := (ih foldX).1 _ faithful
    rw [resolveType_idem] at emitX
    have notNot : operator ≠ .not := by
      rintro rfl
      cases fold
    have type : resolveType env (.unary operator operand) expected =
        resolveType env operand expected := by
      simp only [resolveType, expressionType, if_neg notNot]
    rw [emitExpression, isFloat_of_faithful faithful, if_neg Bool.false_ne_true, if_neg notNot,
      if_neg ne, emitX, type]
    exact emitUnary_of_fold fold
  | cast object type ih =>
    have exactV : exactValue env object = v.toInt := foldConstExpr_exact fold
    constructor
    · intro expected faithful
      obtain ⟨faithful, converts⟩ := faithful
      rw [exactV] at converts
      rw [emitExpression, isFloat_of_faithful faithful, if_neg Bool.false_ne_true,
        (ih fold).1 _ faithful]
      exact congrArg some (emitConversion_of_converts converts)
    · rintro ⟨rfl, faithful, keeps⟩
      rw [exactV] at keeps
      rw [emitExpression, isFloat_of_faithful faithful, if_neg Bool.false_ne_true,
        (ih fold).1 _ faithful, Option.bind_eq_bind, Option.bind_some]
      refine congrArg some ?_
      by_cases zero : v.toInt = 0
      · rw [zero, wrap_zero, toInt_eq_zero_iff.mp zero]
        rfl
      · simp [emitConversion, bit, mt keeps zero, mt toInt_eq_zero_iff.mpr zero]
  | binary left operator right ihl ihr =>
    obtain ⟨x, foldX, fold⟩ := bind_eq_some_iff.mp fold
    obtain ⟨y, foldY, fold⟩ := bind_eq_some_iff.mp fold
    have exactX := foldConstExpr_exact foldX
    have exactY := foldConstExpr_exact foldY
    refine ⟨fun expected faithful => ?_, False.elim⟩
    by_cases logical : operator = .and ∨ operator = .or
    · have type : resolveType env (.binary left operator right) expected = .bool := by
        simp only [resolveType, expressionType, if_pos (Or.inr logical), getD_some]
      have parts := faithful
      rw [Faithful, if_pos logical] at parts
      obtain ⟨boolL, boolR, -, faithfulL, -⟩ := parts
      rw [type]
      refine emit_logical logical faithful ?_ ?_ exactX fold
      · rcases faithfulL with ⟨faithfulL, value⟩ | truthful
        · rw [(ihl foldX).1 _ faithfulL, boolL, wrap_bool (exactX ▸ value)]
        · exact (ihl foldX).2 truthful
      · rintro (⟨faithfulR, value⟩ | truthful)
        · rw [(ihr foldY).1 _ faithfulR, boolR, wrap_bool (exactY ▸ value)]
        · exact (ihr foldY).2 truthful
    · rw [Faithful, if_neg logical] at faithful
      obtain ⟨type, faithfulL, faithfulR, converts, operation⟩ := faithful
      rw [exactX, exactY] at operation
      rw [exactY] at converts
      have result : resolveType env (.binary left operator right) expected =
          if operator.isComparison then .bool else operandType env left right expected := by
        cases comparison : operator.isComparison with
        | true => simp [resolveType, expressionType, comparison]
        | false => simpa [comparison] using type
      rw [result, emitExpression, isFloat_of_faithful faithfulL, isFloat_of_faithful faithfulR,
        Bool.or_self, if_neg Bool.false_ne_true, if_neg logical, if_pos type]
      dsimp only
      rw [(ihl foldX).1 _ faithfulL, (ihr foldY).1 _ faithfulR, resolveType_left]
      change emitBinary _ _ _ (emitConversion _ _) = _
      rw [emitConversion_of_converts converts]
      exact emitBinary_of_faithful logical operation fold
  | other => cases fold

theorem converts_of_emitConversion
    (h : emitConversion (.signed .w64) (S.wrap v.toInt) = (ScalarType.signed .w64).wrap v.toInt) :
    Converts S (.signed .w64) v.toInt := by
  unfold Converts
  rw [if_neg (by decide)]
  by_cases word : S = .unsigned .w64
  · exact Or.inl ⟨by simp [word], by simp [word, ScalarType.bits]⟩
  · apply Or.inr
    have keeps : (ScalarType.signed .w64).Fits (S.wrap v.toInt) := wrap_fits_word word v.toInt
    exact keeps.symm.trans (h.trans (fits_word v))

/-- Folding agrees with the emitted code on every faithful expression; and one whose exact value its
type does not hold is one cast away from an expression on which the two differ. -/
theorem foldConstExpr_agrees (env : ConstEnv) (floats : FloatCode) :
    (∀ (e : ConstExpr) (expected : ScalarType) (v : Int64), Faithful env expected e →
      foldConstExpr env e = some v →
      emitExpression env floats expected e = some ((resolveType env e expected).wrap v.toInt)) ∧
    (∀ (e : ConstExpr) (expected : ScalarType) (v : Int64), Faithful env (.signed .w64) e →
      foldConstExpr env e = some v →
      (emitExpression env floats expected (.cast e (.signed .w64)) =
          some ((ScalarType.signed .w64).wrap v.toInt) ↔
        Converts (resolveType env e (.signed .w64)) (.signed .w64) v.toInt)) := by
  constructor
  · intro e expected v faithful fold
    exact (emitExpression_of_faithful fold).1 expected faithful
  · intro e expected v faithful fold
    have emit := (@emitExpression_of_faithful v env floats e fold).1 _ faithful
    rw [emitExpression, isFloat_of_faithful faithful, if_neg Bool.false_ne_true, emit]
    constructor
    · intro h
      exact converts_of_emitConversion (Option.some.inj h)
    · intro converts
      exact congrArg some (emitConversion_of_converts converts)

def noConsts : ConstEnv := fun _ _ => none

/-- The literal `v.u8()`. -/
def byteLit (v : Int64) : ConstExpr := .cast (.intLit v) (.unsigned .w8)

theorem faithful_byteLit (expected : ScalarType) (v : Int64) :
    Faithful noConsts expected (byteLit v) := by
  constructor
  · intro h
    cases h
  · have word : resolveType noConsts (.intLit v) (.signed .w64) ≠ .bool := by
      intro h
      cases h
    exact Or.inl ⟨word, (by decide : 8 ≤ 64)⟩

/-- The low bits of a byte sum that wraps around: `(200.u8() + 100.u8()) & 15.u8()`. -/
def maskedByteSum : ConstExpr :=
  .binary (.paren (.binary (byteLit 200) .plus (byteLit 100))) .ampersand (byteLit 15)

theorem faithful_maskedByteSum : Faithful noConsts (.unsigned .w8) maskedByteSum := by
  have sum : Faithful noConsts (.unsigned .w8) (.binary (byteLit 200) .plus (byteLit 100)) :=
    ⟨Or.inr rfl, faithful_byteLit _ _, faithful_byteLit _ _, Or.inl (by decide), trivial⟩
  exact ⟨Or.inr rfl, sum, faithful_byteLit _ _, Or.inl (by decide), trivial⟩

theorem foldConstExpr_agrees_maskedByteSum :
    emitExpression noConsts (fun _ _ => none) (.unsigned .w8) maskedByteSum = some 12 :=
  (foldConstExpr_agrees noConsts _).1 maskedByteSum (.unsigned .w8) 12 faithful_maskedByteSum
    (by decide)

/-- `(255.u8() + 1.u8()) == 0` is false to the folder, which compares 256 with 0,
and true at run time. -/
theorem byte_sum_comparison_differs :
    ¬ ∀ (env : ConstEnv) (floats : FloatCode) (e : ConstExpr) (expected : ScalarType) (v : Int64),
      foldConstExpr env e = some v →
      emitExpression env floats expected e = some ((resolveType env e expected).wrap v.toInt) := by
  intro agrees
  have run := agrees noConsts (fun _ _ => none)
    (.binary (.paren (.binary (byteLit 255) .plus (byteLit 1))) .eqEq (.intLit 0)) .bool 0
    (by decide)
  exact absurd run (by decide)

end Elisa.Backend
