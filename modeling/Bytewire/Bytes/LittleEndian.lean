import Bytewire.Bytes.Buffer

/-! Numbers as a fixed count of bytes, least significant byte first. -/
namespace Bytewire.LittleEndian

def encode : Nat → Nat → Bytes
  | 0, _ => []
  | k+1, n => UInt8.ofNat n :: encode k (n / 256)

def decode : Bytes → Nat
  | [] => 0
  | x :: xs => x.toNat + 256 * decode xs

variable {k n : Nat}

@[simp] theorem length_encode : (encode k n).length = k := by
  induction k generalizing n with
  | zero => rfl
  | succ k ih => simp [encode, ih]

theorem encode_decode (xs : Bytes) : encode xs.length (decode xs) = xs := by
  induction xs with
  | nil => rfl
  | cons x xs ih =>
    have hx := x.toNat_lt
    have hd : (x.toNat + 256 * decode xs) / 256 = decode xs := by omega
    simp only [List.length_cons, encode, decode, hd, ih, List.cons.injEq, and_true]
    apply UInt8.toNat_inj.1
    simp only [UInt8.toNat_ofNat']
    omega

end Bytewire.LittleEndian
