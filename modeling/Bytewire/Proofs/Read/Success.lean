import Bytewire.Bytes.Lemmas
import Bytewire.Proofs.Read.Forward

/-! What the success of a reading says about the bytes it has used up. -/
namespace Bytewire
open Session
variable {src : Read.Source} {n k m : Nat} {b d : Bytes} {s : Session} {previous : Option Bytes}

theorem Unread.eq_ok_of_take {c : Bytes} (h : take k b = (.ok d, c)) :
    b = d ++ c ∧ d.length = k := by
  rw [take_eq] at h
  split at h
  · cases h
  · rename_i hle
    cases h
    exact ⟨(List.take_append_drop k b).symm, List.length_take_of_le (Nat.le_of_not_lt hle)⟩

theorem Layout.eq_ok_of_readLength {l : Layout} (hl : l.coding = .compact) {z : Int} {c : Bytes}
    (h : l.readLength b = (.ok z, c)) :
    ∃ k d, z = Int.ofNat k ∧ b = d ++ c ∧ Base128.decode 32 d = (.ok k, []) := by
  simp only [readLength, hl] at h
  obtain ⟨k, t, hk, h⟩ := Attempt.eq_ok_of_bind h
  cases h
  obtain ⟨d, hd, hdecode⟩ := Base128.decode_used hk
  exact ⟨k, d, rfl, hd, hdecode⟩

/-- Bytes taken at a fixed width are the encoding of the number they stand for. -/
theorem LittleEndian.eq_encode_of_take {c : Bytes} (h : Unread.take k b = (.ok d, c)) :
    b = encode k (decode d) ++ c ∧ decode d < 256 ^ k := by
  obtain ⟨hb, hlength⟩ := Unread.eq_ok_of_take h
  rw [← hlength, encode_decode]
  exact ⟨hb, decode_lt d⟩

namespace Read

theorem eq_ok_of_length (hl : src.layout.coding = .compact) (h : length src ⟨n, b⟩ = (.ok k, s)) :
    ∃ d, b = d ++ s.bytes ∧ s.budget = n ∧ Base128.decode 32 d = (.ok k, []) := by
  obtain ⟨z, t, hz, h⟩ := Attempt.eq_ok_of_bind h
  obtain ⟨hread, hbudget⟩ := eq_of_onBytes hz
  obtain ⟨k, d, rfl, hd, hdecode⟩ := Layout.eq_ok_of_readLength hl hread
  split at h
  · cases h
    exact ⟨d, hd, hbudget, hdecode⟩
  · cases h

theorem eq_ok_of_take (h : onBytes (Unread.take k) ⟨n, b⟩ = (.ok d, s)) :
    b = d ++ s.bytes ∧ s.budget = n ∧ d.length = k := by
  obtain ⟨htake, hbudget⟩ := eq_of_onBytes h
  obtain ⟨hb, hlength⟩ := Unread.eq_ok_of_take htake
  exact ⟨hb, hbudget, hlength⟩

theorem eq_ok_of_text (hl : src.layout.coding = .compact) {x : String}
    (h : (Query.run src .text) ⟨n, b⟩ = (.ok x, s)) :
    ∃ d, b = d ++ (Text.encode x ++ s.bytes) ∧ s.budget = n ∧
      Base128.decode 32 d = (.ok (Text.encode x).length, []) := by
  obtain ⟨c, t, hc, hlift⟩ := Attempt.eq_ok_of_bind h
  obtain ⟨k, u, hk, htake⟩ := Attempt.eq_ok_of_bind hc
  obtain ⟨d, hb, hd, hdecode⟩ := eq_ok_of_length hl hk
  obtain ⟨hu, hbudget, hlength⟩ := eq_ok_of_take htake
  obtain ⟨htext, rfl⟩ : Text.decode c = .ok x ∧ t = s := Prod.mk.inj hlift
  rw [Text.encode_of_decode htext, hlength]
  exact ⟨d, by rw [hb, hu], hbudget.trans hd, hdecode⟩

theorem eq_ok_of_word {w : Width} {v : Word w} (h : word w ⟨n, b⟩ = (.ok v, s)) :
    b = LittleEndian.encode w.bytes v.toNat ++ s.bytes ∧ s.budget = n := by
  obtain ⟨d, t, hd, h⟩ := Attempt.eq_ok_of_bind h
  obtain ⟨htake, hbudget⟩ := eq_of_onBytes hd
  obtain ⟨hb, hlt⟩ := LittleEndian.eq_encode_of_take htake
  cases h
  have hw : 256 ^ w.bytes = 2 ^ w.bits := (Nat.pow_mul 2 8 w.bytes).symm
  rw [BitVec.toNat_ofNat, Nat.mod_eq_of_lt (hw ▸ hlt)]
  exact ⟨hb, hbudget⟩

namespace Program
variable {κ ν : Type} {key : Program κ} {value : Program ν}

theorem eq_ok_of_inOrder {u : Unit} {t : Session}
    (h : (inOrder previous d).run src s = (.ok u, t)) :
    t = s ∧ (src.layout.canonical → ∀ p ∈ previous, p < d) := by
  cases previous with
  | none =>
    cases h
    exact ⟨rfl, by simp⟩
  | some p =>
    rw [inOrder, run_ask, Query.run, Attempt.lift] at h
    obtain ⟨hcheck, rfl⟩ := Prod.mk.inj h
    refine ⟨rfl, ?_⟩
    intro hc q hq
    cases hq
    rw [Layout.checkKeys, if_pos hc, Entries.checkIncreasing] at hcheck
    split at hcheck
    · assumption
    · cases hcheck

/-- One entry of those that are read: a key, which is in order where the layout asks for it, a
value, and the entries behind. -/
theorem eq_ok_of_entries_succ {ws : List (κ × ν)}
    (h : (entries key value previous (m + 1)).run src ⟨n, b⟩ = (.ok ws, s)) :
    ∃ k t v u rest d, key.run src ⟨n, b⟩ = (.ok k, t) ∧ value.run src t = (.ok v, u) ∧
      d = b.take (b.length - t.bytes.length) ∧ (src.layout.canonical → ∀ p ∈ previous, p < d) ∧
      (entries key value (some d) m).run src u = (.ok rest, s) ∧ ws = (k, v) :: rest := by
  obtain ⟨⟨k, d⟩, t, hcapture, hafter⟩ := Attempt.eq_ok_of_bind h
  obtain ⟨hk, hd⟩ := eq_ok_of_capture hcapture
  obtain ⟨_, t', horder, hentry⟩ := Attempt.eq_ok_of_bind hafter
  obtain ⟨ht, hlt⟩ := eq_ok_of_inOrder horder
  obtain ⟨v, u, hv, hbehind⟩ := Attempt.eq_ok_of_bind hentry
  obtain ⟨rest, u', hrest, hlast⟩ := Attempt.eq_ok_of_bind hbehind
  cases hlast
  rw [ht] at hv
  exact ⟨k, t, v, u, rest, d, hk, hv, hd, hlt, hrest, rfl⟩

end Program
end Read

end Bytewire
