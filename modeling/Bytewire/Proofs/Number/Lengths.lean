import Bytewire.Proofs.Read.Cursor
import Bytewire.Proofs.Value.Reading
import Bytewire.Proofs.Write.Appending

/-! How large a length may be: for the writer, which refuses those that the compact coding has no
bytes for, and for the reader, which refuses those above the limit. No settings take the limit above
the largest length accepted. -/
namespace Bytewire
open Session

theorem toInt_word_neg_iff {n : Nat} (hn : n ≤ maxWord) :
    (BitVec.ofNat 64 n).toInt < 0 ↔ 2 ^ 63 ≤ n := by
  rw [maxWord] at hn
  rw [BitVec.toInt_neg_iff, BitVec.toNat_ofNat, Nat.mod_eq_of_lt (by omega)]
  omega

namespace Limits
variable {l : Limits}

/-- A word is allowed as a length where it is within the limit, for then it has no sign. -/
theorem allows_word_iff (hl : l.length ≤ maxLength) {n : Nat} (hn : n ≤ maxWord) :
    l.Allows (BitVec.ofNat 64 n).toInt ↔ n ≤ l.length := by
  rw [maxLength] at hl
  by_cases h : n < 2 ^ 63
  · rw [toInt_word h, Allows]
    omega
  · have hneg := (toInt_word_neg_iff hn).2 (Nat.le_of_not_lt h)
    rw [Allows]
    omega

end Limits

/-- A length that could be written is read back within the limit, and refused as a signed word above
it; in both cases its own bytes are used up. -/
theorem Read.length_lengthBytes (src : Read.Source) {n : Nat} {d : Bytes}
    (hl : src.limits.length ≤ maxLength) (hn : n ≤ maxWord)
    (hd : src.layout.lengthBytes n = .ok d) (k : Nat) (t : Bytes) :
    Read.length src ⟨k, d ++ t⟩ =
      (if n ≤ src.limits.length then .ok n
        else .error (.invalidLength (BitVec.ofNat 64 n).toInt), ⟨k, t⟩) := by
  have hread := onBytes_eq (n := k) (Layout.readLength_lengthBytes hn hd t)
  have hallows := Limits.allows_word_iff hl hn
  rw [Read.length, Attempt.bind_ok hread]
  by_cases h : n ≤ src.limits.length
  · have hword : (BitVec.ofNat 64 n).toInt = n := by
      rw [maxLength] at hl
      exact toInt_word (by omega)
    rw [if_pos h, if_pos (hallows.2 h), hword]
    rfl
  · rw [if_neg h, if_neg (mt hallows.1 h)]
    rfl

/-- Lengths in every layout and under every limit that settings can make. The writer refuses a
length above 32 bits under the compact coding and no other, and writes nothing of it. Of what it
writes the reader uses up all, and gives the length back if and only if it is within the limit. Above
it is refused as the signed word that it is, which has a sign from half of the words on. Whatever is
read, no length above the limit comes out. -/
theorem lengths_limited (l : Layout) (xs : List Limits.Setting) {n : Nat} (hn : n ≤ maxWord) :
    let lim := Limits.configured xs
    lim.length ≤ 2 ^ 31 - 1 ∧
    (l.coding = .compact ∧ 2 ^ 32 - 1 < n →
      Write.Emits ((Write.Command.length n).run l) (.error (.lengthOverflow n))) ∧
    (¬ (l.coding = .compact ∧ 2 ^ 32 - 1 < n) → ∃ d,
      Write.Emits ((Write.Command.length n).run l) (.ok d) ∧
      ∀ k t, Read.Query.length.run ⟨l, lim, d ++ t⟩ ⟨k, d ++ t⟩ =
        (if n ≤ lim.length then .ok n else .error (.invalidLength (BitVec.ofNat 64 n).toInt),
          ⟨k, t⟩)) ∧
    ((BitVec.ofNat 64 n).toInt < 0 ↔ 2 ^ 63 ≤ n) ∧
    ∀ b k s t, Read.Query.length.run ⟨l, lim, b⟩ s = (.ok k, t) → k ≤ lim.length := by
  intro lim
  have hlim : lim.length ≤ maxLength := Limits.length_configured_le xs
  have hwrites : Write.Emits ((Write.Command.length n).run l) (l.lengthBytes n) :=
    Write.Emits.length l n
  refine ⟨hlim, ?_, ?_, toInt_word_neg_iff hn, fun b k s t => Read.le_of_length⟩
  · rintro ⟨hcoding, habove⟩
    rwa [Layout.lengthBytes_eq_error_iff.2 ⟨hcoding, habove, rfl⟩] at hwrites
  · intro hfits
    cases hd : l.lengthBytes n with
    | error e =>
      obtain ⟨hcoding, habove, -⟩ := Layout.lengthBytes_eq_error_iff.1 hd
      exact absurd ⟨hcoding, habove⟩ hfits
    | ok d =>
      rw [hd] at hwrites
      exact ⟨d, hwrites, fun k t => Read.length_lengthBytes ⟨l, lim, d ++ t⟩ hlim hn hd k t⟩

/-- Settings of which one is above the largest length accepted. Under them the largest word is
written at a fixed width and refused as minus one, the largest length comes back in both layouts, and
one more than 32 bits hold is not written in groups. -/
theorem lengths_limited_words :
    let lim := Limits.configured [.length 5, .depth 0, .length maxWord]
    maxWord ≤ maxWord ∧ maxLength ≤ maxWord ∧ 0x100000000 ≤ maxWord ∧
      (∃ d, Write.Emits ((Write.Command.length maxWord).run ⟨.fixed, false⟩) (.ok d) ∧
        ∀ k t, Read.Query.length.run ⟨⟨.fixed, false⟩, lim, d ++ t⟩ ⟨k, d ++ t⟩ =
          (.error (.invalidLength (-1)), ⟨k, t⟩)) ∧
      (∃ d, Write.Emits ((Write.Command.length maxLength).run ⟨.compact, true⟩) (.ok d) ∧
        ∀ k t, Read.Query.length.run ⟨⟨.compact, true⟩, lim, d ++ t⟩ ⟨k, d ++ t⟩ =
          (.ok maxLength, ⟨k, t⟩)) ∧
      Write.Emits ((Write.Command.length 0x100000000).run ⟨.compact, true⟩)
        (.error (.lengthOverflow 0x100000000)) := by
  intro lim
  have hlargest : maxWord ≤ maxWord := Nat.le_refl _
  have haccepted : maxLength ≤ maxWord := by decide
  have htoolarge : 0x100000000 ≤ maxWord := by decide
  have hlim : lim.length = maxLength := by decide
  obtain ⟨-, -, hfixed, -⟩ :=
    lengths_limited ⟨.fixed, false⟩ [.length 5, .depth 0, .length maxWord] hlargest
  obtain ⟨-, -, hcompact, -⟩ :=
    lengths_limited ⟨.compact, true⟩ [.length 5, .depth 0, .length maxWord] haccepted
  obtain ⟨-, hoverflow, -⟩ :=
    lengths_limited ⟨.compact, true⟩ [.length 5, .depth 0, .length maxWord] htoolarge
  obtain ⟨d, hword, hrefused⟩ := hfixed (by decide)
  obtain ⟨e, hlength, hread⟩ := hcompact (by decide)
  refine ⟨hlargest, haccepted, htoolarge, ⟨d, hword, ?_⟩, ⟨e, hlength, ?_⟩,
    hoverflow (by decide)⟩
  · intro k t
    have hsigned : (BitVec.ofNat 64 maxWord).toInt = -1 := by decide
    have habove : ¬ maxWord ≤ lim.length := by decide
    rw [hrefused k t, if_neg habove, hsigned]
  · intro k t
    rw [hread k t, if_pos (Nat.le_of_eq hlim.symm)]

end Bytewire
