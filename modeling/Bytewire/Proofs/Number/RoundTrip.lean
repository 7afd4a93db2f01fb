import Bytewire.Proofs.Read.Forward
import Bytewire.Proofs.Read.Machine
import Bytewire.Write.Machine

/-! A number comes back from its groups, and from no fewer bytes than it has groups. -/
namespace Bytewire

namespace Machine
variable {bits : Nat}

theorem toNat_lowByte (v : BitVec bits) : (lowByte v).toNat = v.toNat % 256 := by
  rw [lowByte, UInt8.toNat_ofBitVec, BitVec.toNat_setWidth]

theorem or_high (x : UInt8) : (x ||| 0x80).toNat = x.toNat % 128 + 128 := by
  have hall : ∀ n < 256, n ||| 128 = n % 128 + 128 := by decide +kernel
  rw [UInt8.toNat_or]
  exact hall x.toNat x.toNat_lt

/-- What is shifted out of a word are the groups of its number. -/
theorem encode_eq (v : BitVec bits) : encode v = Base128.encode v.toNat := by
  fun_induction encode v with
  | case1 v h =>
    have hlow : lowByte v = UInt8.ofNat v.toNat := by
      apply UInt8.toNat_inj.1
      rw [toNat_lowByte, UInt8.toNat_ofNat']
    rw [Base128.encode_of_lt h, hlow]
  | case2 v h ih =>
    have hlow : lowByte v ||| 0x80 = UInt8.ofNat (v.toNat % 128 + 128) := by
      apply UInt8.toNat_inj.1
      rw [or_high, toNat_lowByte, UInt8.toNat_ofNat']
      omega
    rw [Base128.encode_of_le (Nat.le_of_not_lt h), ih, hlow, BitVec.toNat_ushiftRight,
      Nat.shiftRight_eq_div_pow]

theorem size_eq (v : BitVec bits) : size v = some (Base128.size v.toNat) := by
  rw [size, sub_clz]
  rfl

end Machine

namespace Base128
variable {bits n : Nat}

/-- A number is not read from fewer bytes than it is written in. -/
theorem size_le_of_decode {b c : Bytes} (h : decode bits b = (.ok n, c)) : size n ≤ b.length := by
  obtain ⟨d, rfl, hdecode⟩ := decode_used h
  have hle := length_encode_le hdecode
  rw [length_encode] at hle
  rw [List.length_append]
  omega

/-- A word comes back from its groups, whatever follows them, and what follows is left. There are as
many groups as its size says, no more than its width allows, and it is not read from fewer bytes.
The machine writes the same groups, reckons the same size and reads the same number. -/
theorem word_roundTrip (hmin : 8 ≤ bits) (hmax : bits ≤ 64) (v : BitVec bits) (t : Bytes) :
    decode bits (encode v.toNat ++ t) = (.ok v.toNat, t) ∧
    (encode v.toNat).length = size v.toNat ∧ size v.toNat ≤ maxSize bits ∧
    (bits = 32 → size v.toNat ≤ 5) ∧
    (∀ b, b.length < size v.toNat → (decode bits b).1 ≠ .ok v.toNat) ∧
    Machine.encode v = encode v.toNat ∧ Machine.size v = some (size v.toNat) ∧
    Machine.number bits (encode v.toNat ++ t) = some (.ok v.toNat, t) := by
  have hpos : 0 < bits := by omega
  have hbits : bitLength v.toNat ≤ bits := bitLength_le_iff_lt_pow.2 v.isLt
  have hread : decode bits (encode v.toNat ++ t) = (.ok v.toNat, t) := decode_encode hbits t
  have hsize := size_le_maxSize hpos hbits
  refine ⟨hread, length_encode _, hsize, ?_, ?_, Machine.encode_eq v, Machine.size_eq v, ?_⟩
  · rintro rfl
    exact hsize
  · intro b hb hdecode
    have hle := size_le_of_decode (Prod.ext hdecode rfl : decode bits b = (.ok v.toNat, _))
    omega
  · rw [Machine.number_eq_run hpos hmax, Machine.run, hread]

/-- The least word of three groups and the largest word of all. -/
theorem word_roundTrip_limits :
    8 ≤ 16 ∧ 16 ≤ 64 ∧ 8 ≤ 64 ∧ 64 ≤ 64 ∧
      decode 16 (encode 0x4000 ++ [0xaa]) = (.ok 0x4000, [0xaa]) ∧
      Machine.size (0x4000 : BitVec 16) = some (size 0x4000) ∧
      [0x80, 0x80].length < size 0x4000 ∧ (decode 16 [0x80, 0x80]).1 ≠ .ok 0x4000 ∧
      decode 64 (encode maxWord ++ []) = (.ok maxWord, []) ∧ size maxWord ≤ maxSize 64 := by
  have hmin : 8 ≤ 16 := by decide
  have hmax : 16 ≤ 64 := by decide
  have hword : 8 ≤ 64 := by decide
  obtain ⟨hread, -, -, -, hshort, -, hsize, -⟩ :=
    word_roundTrip hmin hmax (0x4000 : BitVec 16) [0xaa]
  obtain ⟨hlargest, -, hle, -⟩ :=
    word_roundTrip hword (Nat.le_refl 64) (BitVec.ofNat 64 maxWord) []
  have hlength : [0x80, 0x80].length < size 0x4000 := by decide
  exact ⟨hmin, hmax, hword, Nat.le_refl 64, hread, hsize, hlength, hshort [0x80, 0x80] hlength,
    hlargest, hle⟩

end Base128
end Bytewire
