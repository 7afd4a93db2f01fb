import Bytewire.Proofs.Value.Reading
import Bytewire.Proofs.Write.Appending
import Mathlib.Algebra.Ring.Int.Defs

/-! Integers in 128 bits. With a sign or without one, as a word or as an integer of any size, they are
the same 16 bytes of two's complement, so that what is read with a sign and what is read without one
agree modulo `2 ^ 128`. -/
namespace Bytewire
open Session
variable {l : Layout} {d : Bytes} {z : Int}

theorem toNat_eq_toInt_emod {bits : Nat} (v : BitVec bits) :
    (v.toNat : Int) = v.toInt % 2 ^ bits := by
  have hmod : (v.toNat : Int).bmod (2 ^ bits) % 2 ^ bits = v.toNat % 2 ^ bits := by
    exact_mod_cast Int.bmod_emod
  have hlt : (v.toNat : Int) < 2 ^ bits := by exact_mod_cast v.isLt
  rw [BitVec.toInt_eq_toNat_bmod, hmod, Int.emod_eq_of_lt (Int.natCast_nonneg _) hlt]

/-- Two's complement in 16 bytes, the lowest first: byte `i` is digit `i` of the number modulo
`2 ^ 128` to the base 256. -/
structure Represents (d : Bytes) (z : Int) : Prop where
  length : d.length = 16
  byte : ∀ i x, d[i]? = some x → (x.toNat : Int) = z % 2 ^ 128 / 256 ^ i % 256

/-- What every reader makes of the bytes, whatever follows them: `u` without a sign and `z` with one,
as a word and as an integer of any size. -/
structure ReadAs (d : Bytes) (u : Nat) (z : Int) : Prop where
  natural : ∀ src k t, Read.Query.natural.run src ⟨k, d ++ t⟩ = (.ok u, ⟨k, t⟩)
  uint : ∃ v : Word .w128, v.toNat = u ∧
    ∀ src k t, (Read.Query.uint .w128).run src ⟨k, d ++ t⟩ = (.ok v, ⟨k, t⟩)
  integer : ∀ src k t, Read.Query.integer.run src ⟨k, d ++ t⟩ = (.ok z, ⟨k, t⟩)
  int : ∃ v : Word .w128, v.toInt = z ∧
    ∀ src k t, (Read.Query.int .w128).run src ⟨k, d ++ t⟩ = (.ok v, ⟨k, t⟩)

def stored (v : Word .w128) : Bytes := LittleEndian.encode Width.w128.bytes v.toNat

theorem represents_stored {v : Word .w128} (h : (v.toNat : Int) = z % 2 ^ 128) :
    Represents (stored v) z where
  length := LittleEndian.length_encode
  byte i x hx := by
    rw [LittleEndian.toNat_of_getElem?_encode hx, ← h, Int.natCast_emod, Int.natCast_ediv,
      Int.natCast_pow]
    rfl

theorem readAs_stored (v : Word .w128) : ReadAs (stored v) v.toNat v.toInt where
  natural _ _ t := Attempt.bind_ok (Read.word_encode .w128 v t) _
  uint := ⟨v, rfl, fun _ _ t => Read.word_encode .w128 v t⟩
  integer _ _ t := Attempt.bind_ok (Read.word_encode .w128 v t) _
  int := ⟨v, rfl, fun _ _ t => Read.word_encode .w128 v t⟩

theorem exists_stored (h : d.length = 16) : ∃ v, d = stored v := by
  have hlt : LittleEndian.decode d < 2 ^ Width.w128.bits := by
    have hd := LittleEndian.decode_lt d
    rwa [h, show 256 ^ 16 = 2 ^ Width.w128.bits from (Nat.pow_mul 2 8 16).symm] at hd
  refine ⟨BitVec.ofNat _ (LittleEndian.decode d), ?_⟩
  have hencode := LittleEndian.encode_decode d
  rw [h] at hencode
  rw [stored, BitVec.toNat_ofNat, Nat.mod_eq_of_lt hlt]
  exact hencode.symm

theorem integer_in_range_iff :
    (-maxInteger - 1 ≤ z ∧ z ≤ maxInteger) ↔ -2 ^ 127 ≤ z ∧ z < 2 ^ 127 := by
  rw [maxInteger]
  omega

theorem natural_in_range_iff {n : Nat} : n ≤ maxNatural ↔ n < 2 ^ 128 := by
  rw [maxNatural]
  omega

/-- An integer that some word is, with a sign, is written as that word. -/
theorem emits_integer (l : Layout) (v : Word .w128) :
    Write.Emits ((Write.Command.integer v.toInt).run l) (.ok (stored v)) := by
  rw [Write.Command.run, if_pos (integer_in_range_iff.2 ⟨v.le_toInt, v.toInt_lt⟩),
    BitVec.ofInt_toInt]
  exact Write.Emits.word v

/-- A natural number that some word is, without a sign, is written as that word. -/
theorem emits_natural (l : Layout) (v : Word .w128) :
    Write.Emits ((Write.Command.natural v.toNat).run l) (.ok (stored v)) := by
  rw [Write.Command.run, if_pos (natural_in_range_iff.2 v.isLt), BitVec.ofNat_toNat,
    BitVec.setWidth_eq]
  exact Write.Emits.word v

/-- Integers in every layout. One that fits 128 bits with a sign, and a natural number that fits them
without, is written as its word would be, in two's complement, and any other is refused and nothing
written. Read with a sign and without one, the same bytes are numbers that agree modulo `2 ^ 128`,
the one with a sign being the integer that was written, and the one without the natural number. -/
theorem integers_agree (l : Layout) :
    (∀ z : Int,
      (-2 ^ 127 ≤ z ∧ z < 2 ^ 127 → ∃ d, ∃ v : Word .w128, Represents d z ∧ v.toInt = z ∧
        Write.Emits ((Write.Command.integer z).run l) (.ok d) ∧
        Write.Emits ((Write.Command.int .w128 v).run l) (.ok d) ∧
        ReadAs d (z % 2 ^ 128).toNat z) ∧
      (¬ (-2 ^ 127 ≤ z ∧ z < 2 ^ 127) →
        Write.Emits ((Write.Command.integer z).run l) (.error (.outOfRange true)))) ∧
    (∀ n : Nat,
      (n < 2 ^ 128 → ∃ d, ∃ v : Word .w128, Represents d n ∧ v.toNat = n ∧
        Write.Emits ((Write.Command.natural n).run l) (.ok d) ∧
        Write.Emits ((Write.Command.uint .w128 v).run l) (.ok d) ∧ ∃ z, ReadAs d n z) ∧
      (¬ n < 2 ^ 128 →
        Write.Emits ((Write.Command.natural n).run l) (.error (.outOfRange false)))) ∧
    ∀ d : Bytes, d.length = 16 → ∃ u z, Represents d z ∧ ReadAs d u z ∧
      -2 ^ 127 ≤ z ∧ z < 2 ^ 127 ∧ (u : Int) = z % 2 ^ 128 := by
  refine ⟨fun z => ⟨fun hz => ?_, fun hz => ?_⟩, fun n => ⟨fun hn => ?_, fun hn => ?_⟩,
    fun d hd => ?_⟩
  · obtain ⟨v, rfl⟩ : ∃ v : Word .w128, v.toInt = z :=
      ⟨BitVec.ofInt _ z, BitVec.toInt_ofInt_eq_self (by decide) hz.1 hz.2⟩
    have hv : (v.toNat : Int) = v.toInt % 2 ^ 128 := toNat_eq_toInt_emod v
    refine ⟨stored v, v, represents_stored hv, rfl, emits_integer l v, Write.Emits.word v, ?_⟩
    rw [← hv, Int.toNat_natCast]
    exact readAs_stored v
  · rw [Write.Command.run, if_neg (mt integer_in_range_iff.1 hz)]
    exact Write.Emits.fail _
  · obtain ⟨v, rfl⟩ : ∃ v : Word .w128, v.toNat = n := by
      refine ⟨BitVec.ofNat _ n, ?_⟩
      rw [BitVec.toNat_ofNat]
      exact Nat.mod_eq_of_lt hn
    have hv : (v.toNat : Int) = v.toNat % 2 ^ 128 := by omega
    exact ⟨stored v, v, represents_stored hv, rfl, emits_natural l v, Write.Emits.word v, _,
      readAs_stored v⟩
  · rw [Write.Command.run, if_neg (mt natural_in_range_iff.1 hn)]
    exact Write.Emits.fail _
  · obtain ⟨v, rfl⟩ := exists_stored hd
    have hv : (v.toNat : Int) = v.toInt % 2 ^ 128 := toNat_eq_toInt_emod v
    exact ⟨_, _, represents_stored hv, readAs_stored v, v.le_toInt, v.toInt_lt, hv⟩

/-- The least integer of 128 bits, and the numbers just above the largest ones. -/
theorem integers_agree_limits :
    let l : Layout := ⟨.compact, true⟩
    (∃ d, Represents d (-2 ^ 127) ∧
      Write.Emits ((Write.Command.integer (-2 ^ 127)).run l) (.ok d) ∧
      ReadAs d (2 ^ 127) (-2 ^ 127)) ∧
    Write.Emits ((Write.Command.integer (2 ^ 127)).run l) (.error (.outOfRange true)) ∧
    Write.Emits ((Write.Command.natural (2 ^ 128)).run l) (.error (.outOfRange false)) := by
  intro l
  obtain ⟨hintegers, hnaturals, -⟩ := integers_agree l
  obtain ⟨d, -, hd, -, hwritten, -, hread⟩ := (hintegers (-2 ^ 127)).1 (by decide)
  have hmod : ((-2 ^ 127 : Int) % 2 ^ 128).toNat = 2 ^ 127 := by decide
  rw [hmod] at hread
  exact ⟨⟨d, hd, hwritten, hread⟩, (hintegers (2 ^ 127)).2 (by decide),
    (hnaturals (2 ^ 128)).2 (by decide)⟩

end Bytewire
