import Bytewire.Bytes.Buffer

/-! Text as UTF-8. -/
namespace Bytewire.Text

def encode (s : String) : Bytes := s.toByteArray.data.toList

def decode (b : Bytes) : Except Fault String :=
  match String.fromUTF8? ⟨b.toArray⟩ with
  | some s => .ok s
  | none => .error .invalidText

theorem decode_encode (s : String) : decode (encode s) = .ok s := by
  have h : s.toByteArray.IsValidUTF8 := s.isValidUTF8
  simp [decode, encode, String.fromUTF8?, String.fromUTF8, h]

theorem encode_of_decode {b : Bytes} {s : String} (h : decode b = .ok s) : encode s = b := by
  simp only [decode, String.fromUTF8?] at h
  split at h
  · rename_i t ht
    split at ht
    · cases ht
      cases h
      simp [encode, String.fromUTF8]
    · cases ht
  · cases h

end Bytewire.Text
