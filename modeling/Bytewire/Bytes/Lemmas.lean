import Bytewire.Bytes.Base128
import Bytewire.Bytes.LittleEndian
import Bytewire.Bytes.Unread
import Mathlib.Algebra.Group.Nat.Defs

/-! Bounds on numbers by the bytes and bits they take, as powers. -/
namespace Bytewire

theorem LittleEndian.decode_encode {k n : Nat} : decode (encode k n) = n % 256 ^ k := by
  induction k generalizing n with
  | zero => simp [encode, decode, Nat.mod_one]
  | succ k ih =>
    rw [encode, decode, ih, UInt8.toNat_ofNat', Nat.pow_succ 256, Nat.mul_comm (256 ^ k),
      Nat.mod_mul]

theorem LittleEndian.decode_encode_of_lt {k n : Nat} (h : n < 256 ^ k) :
    decode (encode k n) = n := by
  rw [decode_encode, Nat.mod_eq_of_lt h]

theorem LittleEndian.getElem?_encode {k n i : Nat} (h : i < k) :
    (encode k n)[i]? = some (UInt8.ofNat (n / 256 ^ i)) := by
  induction k generalizing n i with
  | zero => exact absurd h (Nat.not_lt_zero i)
  | succ k ih =>
    cases i with
    | zero => rw [encode, List.getElem?_cons_zero, Nat.pow_zero, Nat.div_one]
    | succ i =>
      rw [encode, List.getElem?_cons_succ, ih (Nat.lt_of_succ_lt_succ h), Nat.div_div_eq_div_mul,
        ← Nat.pow_succ']

/-- A byte is a digit of the number to the base 256. -/
theorem LittleEndian.toNat_of_getElem?_encode {k n i : Nat} {x : UInt8}
    (h : (encode k n)[i]? = some x) : x.toNat = n / 256 ^ i % 256 := by
  have hi : i < k := by
    have hlength := (List.getElem?_eq_some_iff.1 h).1
    rwa [length_encode] at hlength
  rw [getElem?_encode hi] at h
  cases h
  exact UInt8.toNat_ofNat'

theorem LittleEndian.take_encode (k n : Nat) (t : Bytes) :
    Unread.take k (encode k n ++ t) = (.ok (encode k n), t) :=
  Unread.take_append length_encode

theorem LittleEndian.decode_lt (xs : Bytes) : decode xs < 256 ^ xs.length := by
  induction xs with
  | nil => simp [decode]
  | cons x xs ih =>
    have := x.toNat_lt
    simp only [decode, List.length_cons, Nat.pow_succ]
    omega

theorem Base128.bitLength_le_iff_lt_pow {n k : Nat} : bitLength n ≤ k ↔ n < 2 ^ k := by
  rw [bitLength_le_iff, Nat.shiftRight_eq_div_pow, Nat.div_eq_zero_iff_lt (Nat.two_pow_pos k)]

end Bytewire
