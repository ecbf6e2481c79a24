import Mathlib.Tactic.Ring
import Elisa.Lib.Outcome

/-!
# Little-endian numbers in byte arrays

`put n v` is the `n` low bytes of `v`, least significant first; `read bytes start n` reads `n` bytes
back, checking every index.  Both are described by `value`: writing then reading is `value_put`,
reading then writing `put_value`, and a read in range is the value of the bytes there (`read_eq`).
-/

namespace Elisa.LittleEndian

open Outcome List

/-- The number a byte list denotes, least significant byte first. -/
def value : List UInt8 → Nat
  | [] => 0
  | b :: bs => b.toNat + 256 * value bs

def put (n v : Nat) : List UInt8 :=
  (range n).map fun shift => UInt8.ofNat ((v >>> (shift * 8)) &&& 255)

def read (bytes : List UInt8) (start n : Nat) : Outcome Nat :=
  (range n).foldlM (fun v shift => do
    let position ← addLength start shift
    let byte ← index bytes position
    return v ||| (byte.toNat <<< (shift * 8))) 0

/-! ## Values -/

theorem value_lt (bs : List UInt8) : value bs < 256 ^ bs.length := by
  induction bs with
  | nil => simp [value]
  | cons b bs ih =>
    have hb : b.toNat < 256 := b.toNat_lt
    rw [value, length_cons, pow_succ]
    omega

theorem value_append (as bs : List UInt8) :
    value (as ++ bs) = value as + 256 ^ as.length * value bs := by
  induction as with
  | nil => simp [value]
  | cons a as ih =>
    rw [cons_append, value, value, ih, length_cons]
    ring

theorem value_or_shiftLeft (bs : List UInt8) (b : UInt8) :
    value bs ||| (b.toNat <<< (bs.length * 8)) = value (bs ++ [b]) := by
  have hlt : value bs < 2 ^ (bs.length * 8) := by
    have := value_lt bs
    rwa [show (256 : Nat) = 2 ^ 8 from rfl, ← pow_mul, Nat.mul_comm 8] at this
  rw [Nat.or_comm, ← Nat.shiftLeft_add_eq_or_of_lt hlt, Nat.shiftLeft_eq, value_append]
  simp only [value, Nat.mul_zero, Nat.add_zero]
  rw [show (256 : Nat) = 2 ^ 8 from rfl, ← pow_mul, Nat.mul_comm 8]
  ring

/-! ## Writing -/

@[simp] theorem length_put (n v : Nat) : (put n v).length = n := by
  simp [put]

theorem put_succ (n v : Nat) : put (n + 1) v = UInt8.ofNat (v % 256) :: put n (v / 256) := by
  have hmask : ∀ w : Nat, w &&& 255 = w % 256 := fun w => Nat.and_two_pow_sub_one_eq_mod w 8
  have hshift : ∀ k : Nat, v >>> ((k + 1) * 8) = (v / 256) >>> (k * 8) := by
    intro k
    rw [Nat.add_mul, Nat.add_comm, Nat.shiftRight_add, Nat.shiftRight_eq_div_pow v]
  simp only [put, range_succ_eq_map, map_cons, map_map, Function.comp_def, hshift,
    Nat.zero_mul, Nat.shiftRight_zero, hmask]

theorem value_put (n : Nat) : ∀ v : Nat, value (put n v) = v % 256 ^ n := by
  induction n with
  | zero =>
    intro v
    simp [put, value, Nat.mod_one]
  | succ n ih =>
    intro v
    have hbyte : (UInt8.ofNat (v % 256)).toNat = v % 256 :=
      Nat.mod_eq_of_lt (Nat.mod_lt v (by omega))
    rw [put_succ, value, ih, hbyte, pow_succ', Nat.mod_mul]

theorem put_value (bs : List UInt8) : put bs.length (value bs) = bs := by
  induction bs with
  | nil => rfl
  | cons b bs ih =>
    have hb : b.toNat < 256 := b.toNat_lt
    rw [length_cons, put_succ, value, Nat.add_mul_mod_self_left, Nat.mod_eq_of_lt hb,
      UInt8.ofNat_toNat, Nat.add_mul_div_left _ _ (by omega), Nat.div_eq_of_lt hb, Nat.zero_add, ih]

/-! ## Reading -/

theorem read_eq {bytes : List UInt8} (hbytes : bytes.length < wordLimit) {start n : Nat}
    (h : start + n ≤ bytes.length) :
    read bytes start n = ok (value ((bytes.drop start).take n)) := by
  induction n with
  | zero => rfl
  | succ n ih =>
    have hlt : start + n < bytes.length := by omega
    have hread := ih (by omega)
    have hlen : ((bytes.drop start).take n).length = n := by
      simp only [length_take, length_drop]
      omega
    have htake : (bytes.drop start).take (n + 1) =
        (bytes.drop start).take n ++ [bytes.get ⟨start + n, hlt⟩] := by
      rw [take_add_one, getElem?_drop, getElem?_eq_getElem hlt]
      rfl
    unfold read at hread ⊢
    rw [range_succ, foldlM_append, hread, htake, ← value_or_shiftLeft, hlen]
    simp only [ok_bind, foldlM_cons, foldlM_nil, addLength_eq (lt_trans hlt hbytes),
      index_eq hlt, pure_eq]

end Elisa.LittleEndian
