import Bytewire.Proofs.Read.Forward
import Bytewire.Proofs.Read.Machine
import Mathlib.Algebra.BigOperators.Fin
import Mathlib.Tactic.Ring

/-! Which byte strings are numbers in base 128, and of what width. What reading comes to depends on
the first byte without a continuation bit: whether it comes soon enough, and whether the groups up
to it stand for a number of the width. -/
namespace Bytewire.Base128

def value (d : Bytes) : Nat := ∑ i : Fin d.length, d[i].toNat % 128 * 2 ^ (7 * i.val)

def groups? (b : Bytes) : Option Nat := (b.findIdx? fun x => x.toNat < 128).map (· + 1)

section
variable {x : UInt8} {xs b : Bytes} {n room : Nat}

theorem value_nil : value [] = 0 := rfl

theorem value_cons (x : UInt8) (xs : Bytes) :
    value (x :: xs) = x.toNat % 128 + 128 * value xs := by
  have hshift (i : Fin xs.length) : xs[i].toNat % 128 * 2 ^ (7 * (i.val + 1)) =
      128 * (xs[i].toNat % 128 * 2 ^ (7 * i.val)) := by ring
  simp only [value, List.length_cons, Fin.sum_univ_succ, Finset.mul_sum, ← hshift]
  simp

theorem value_singleton (h : x.toNat < 128) : value [x] = x.toNat := by
  rw [value_cons, value_nil, Nat.mod_eq_of_lt h]
  rfl

theorem value_lt (d : Bytes) : value d < 2 ^ (7 * d.length) := by
  induction d with
  | nil => simp [value_nil]
  | cons x xs ih =>
    have hlow := Nat.mod_lt x.toNat (show 0 < 128 by decide)
    rw [value_cons, List.length_cons, Nat.mul_add, Nat.pow_add]
    omega

theorem groups?_cons_of_lt (h : x.toNat < 128) : groups? (x :: xs) = some 1 := by
  simp [groups?, List.findIdx?_cons, h]

theorem groups?_cons_of_le (h : 128 ≤ x.toNat) : groups? (x :: xs) = (groups? xs).map (· + 1) := by
  rw [groups?, groups?, List.findIdx?_cons, if_neg (by simpa using h)]

theorem groups?_eq_none_iff : groups? b = none ↔ ∀ x ∈ b, 128 ≤ x.toNat := by
  simp [groups?, List.findIdx?_eq_none_iff]

theorem of_groups?_eq_some (h : groups? b = some n) :
    0 < n ∧ n ≤ b.length ∧ ∀ x ∈ b.take (n - 1), 128 ≤ x.toNat := by
  obtain ⟨i, hi, rfl⟩ := Option.map_eq_some_iff.1 h
  obtain ⟨hlt, -, hbefore⟩ := List.findIdx?_eq_some_iff_getElem.1 hi
  refine ⟨Nat.succ_pos i, hlt, ?_⟩
  intro x hx
  obtain ⟨j, hj, rfl⟩ := List.mem_take_iff_getElem.1 hx
  have hj' : j < i := by omega
  simpa using hbefore j hj'

theorem maxSize_of_le (hpos : 0 < room) (h : room ≤ 7) : maxSize room = 1 := by
  rw [maxSize]
  omega

theorem maxSize_of_lt (h : 7 < room) : maxSize room = maxSize (room - 7) + 1 := by
  rw [maxSize, maxSize]
  omega

theorem value_cons_lt_iff (h : 7 < room) :
    value (x :: xs) < 2 ^ room ↔ value xs < 2 ^ (room - 7) := by
  have hpow : 2 ^ room = 128 * 2 ^ (room - 7) := by
    rw [show 128 = 2 ^ 7 from rfl, ← Nat.pow_add, show 7 + (room - 7) = room by omega]
  rw [value_cons, hpow]
  omega

theorem decode_cons_of_lt (hx : x.toNat < 128) (h : x.toNat < 2 ^ room) :
    decode room (x :: xs) = (.ok x.toNat, xs) := by
  have hbits := bitLength_le_iff_lt_pow.2 h
  rw [decode, if_neg (by omega), if_pos hx]

theorem decode_cons_of_room_le (hroom : room ≤ 7) (h : 2 ^ room ≤ x.toNat) :
    decode room (x :: xs) = (.error .numberOverflow, xs) := by
  have hbits : ¬ bitLength x.toNat ≤ room := fun hb =>
    Nat.not_lt_of_le h (bitLength_le_iff_lt_pow.1 hb)
  rw [decode, if_pos (by omega)]

theorem decode_cons_of_le (hroom : 7 < room) (hx : 128 ≤ x.toNat) :
    decode room (x :: xs) = ((decode (room - 7) xs).1.map fun m => x.toNat % 128 + 128 * m,
      (decode (room - 7) xs).2) := by
  rw [decode, if_neg (by omega), if_neg (by omega)]
  rcases decode (room - 7) xs with ⟨_ | m, c⟩ <;> rfl

end

structure Accepted (bits : Nat) (b : Bytes) (n : Nat) : Prop where
  ends : groups? b = some n
  length_le : n ≤ maxSize bits
  lt : value (b.take n) < 2 ^ bits

/-- As many bytes are there as a number of the width may take, and they are a number too large for
it or go on beyond it. -/
def Overflowing (bits : Nat) (b : Bytes) : Prop :=
  groups? b = some (maxSize bits) ∧ 2 ^ bits ≤ value (b.take (maxSize bits)) ∨
    maxSize bits ≤ b.length ∧ ∀ x ∈ b.take (maxSize bits), 128 ≤ x.toNat

def Unfinished (bits : Nat) (b : Bytes) : Prop :=
  b.length < maxSize bits ∧ ∀ x ∈ b, 128 ≤ x.toNat

section
variable {bits n : Nat} {x : UInt8} {xs b : Bytes}

theorem Accepted.of_cons (hx : 128 ≤ x.toNat) (h : Accepted bits (x :: xs) n) :
    ∃ m, n = m + 1 ∧ 7 < bits ∧ Accepted (bits - 7) xs m := by
  obtain ⟨hends, hlength, hlt⟩ := h
  rw [groups?_cons_of_le hx] at hends
  obtain ⟨m, hm, rfl⟩ := Option.map_eq_some_iff.1 hends
  have hpos := (of_groups?_eq_some hm).1
  have hroom : 7 < bits := by
    rw [maxSize] at hlength
    omega
  rw [maxSize_of_lt hroom] at hlength
  exact ⟨m, rfl, hroom, hm, Nat.le_of_succ_le_succ hlength, (value_cons_lt_iff hroom).1 hlt⟩

theorem Accepted.decode_eq (h : Accepted bits b n) :
    decode bits b = (.ok (value (b.take n)), b.drop n) := by
  induction b generalizing bits n with
  | nil => cases h.ends
  | cons x xs ih =>
    by_cases hx : x.toNat < 128
    · obtain ⟨hends, -, hlt⟩ := h
      rw [groups?_cons_of_lt hx] at hends
      cases hends
      rw [List.take_succ_cons, List.take_zero, value_singleton hx] at hlt ⊢
      exact decode_cons_of_lt hx hlt
    · have hx : 128 ≤ x.toNat := Nat.le_of_not_lt hx
      obtain ⟨m, rfl, hroom, hrest⟩ := h.of_cons hx
      rw [decode_cons_of_le hroom hx, ih hrest, List.take_succ_cons, value_cons]
      rfl

theorem Overflowing.of_cons (hroom : 7 < bits) (h : Overflowing bits (x :: xs)) :
    128 ≤ x.toNat ∧ Overflowing (bits - 7) xs := by
  rw [Overflowing, maxSize_of_lt hroom] at h
  rcases h with ⟨hends, hle⟩ | ⟨hlength, hall⟩
  · have hx : 128 ≤ x.toNat := by
      refine Nat.le_of_not_lt fun hx => ?_
      rw [groups?_cons_of_lt hx, Option.some.injEq, maxSize] at hends
      omega
    rw [groups?_cons_of_le hx] at hends
    obtain ⟨m, hm, heq⟩ := Option.map_eq_some_iff.1 hends
    obtain rfl : m = maxSize (bits - 7) := Nat.succ.inj heq
    refine ⟨hx, .inl ⟨hm, Nat.le_of_not_lt fun hlt => ?_⟩⟩
    exact Nat.not_lt_of_le hle ((value_cons_lt_iff hroom).2 hlt)
  · rw [List.take_succ_cons, List.forall_mem_cons] at hall
    exact ⟨hall.1, .inr ⟨Nat.le_of_succ_le_succ hlength, hall.2⟩⟩

theorem Overflowing.le_of_cons (hpos : 0 < bits) (hroom : bits ≤ 7)
    (h : Overflowing bits (x :: xs)) : 2 ^ bits ≤ x.toNat := by
  rw [Overflowing, maxSize_of_le hpos hroom] at h
  rcases h with ⟨-, hle⟩ | ⟨-, hall⟩
  · rw [List.take_succ_cons, List.take_zero, value_cons, value_nil] at hle
    omega
  · have hpow : 2 ^ bits ≤ 2 ^ 7 := Nat.pow_le_pow_right (by decide) hroom
    have hx := hall x List.mem_cons_self
    omega

theorem Overflowing.decode_eq (hpos : 0 < bits) (h : Overflowing bits b) :
    decode bits b = (.error .numberOverflow, b.drop (maxSize bits)) := by
  induction b generalizing bits with
  | nil =>
    rcases h with ⟨hends, -⟩ | ⟨hlength, -⟩
    · cases hends
    · rw [maxSize, List.length_nil] at hlength
      omega
  | cons x xs ih =>
    by_cases hroom : bits ≤ 7
    · rw [decode_cons_of_room_le hroom (h.le_of_cons hpos hroom), maxSize_of_le hpos hroom]
      rfl
    · have hroom : 7 < bits := Nat.lt_of_not_le hroom
      obtain ⟨hx, hrest⟩ := h.of_cons hroom
      rw [decode_cons_of_le hroom hx, ih (by omega) hrest, maxSize_of_lt hroom]
      rfl

theorem Unfinished.of_cons (h : Unfinished bits (x :: xs)) :
    128 ≤ x.toNat ∧ 7 < bits ∧ Unfinished (bits - 7) xs := by
  obtain ⟨hlength, hall⟩ := h
  rw [List.length_cons] at hlength
  have hroom : 7 < bits := by
    rw [maxSize] at hlength
    omega
  rw [maxSize_of_lt hroom] at hlength
  rw [List.forall_mem_cons] at hall
  exact ⟨hall.1, hroom, Nat.lt_of_succ_lt_succ hlength, hall.2⟩

theorem Unfinished.decode_eq (h : Unfinished bits b) :
    decode bits b = (.error .endOfInput, []) := by
  induction b generalizing bits with
  | nil => rfl
  | cons x xs ih =>
    obtain ⟨hx, hroom, hrest⟩ := h.of_cons
    rw [decode_cons_of_le hroom hx, ih hrest]
    rfl

/-- Fewer groups than a number of the width may take never stand for one too large. -/
theorem value_take_lt (hg : groups? b = some n) (h : n < maxSize bits) :
    value (b.take n) < 2 ^ bits := by
  have hlength : (b.take n).length = n := List.length_take_of_le (of_groups?_eq_some hg).2.1
  have hbits : 7 * n ≤ bits := by
    rw [maxSize] at h
    omega
  have hlt := value_lt (b.take n)
  rw [hlength] at hlt
  exact Nat.lt_of_lt_of_le hlt (Nat.pow_le_pow_right (by decide) hbits)

theorem accepted_or (bits : Nat) (b : Bytes) :
    (∃ n, Accepted bits b n) ∨ Overflowing bits b ∨ Unfinished bits b := by
  cases hg : groups? b with
  | none =>
    have hall := groups?_eq_none_iff.1 hg
    by_cases hlength : b.length < maxSize bits
    · exact .inr (.inr ⟨hlength, hall⟩)
    · exact .inr (.inl (.inr ⟨Nat.le_of_not_lt hlength,
        fun x hx => hall x (List.mem_of_mem_take hx)⟩))
  | some n =>
    obtain ⟨hpos, hlength, hbefore⟩ := of_groups?_eq_some hg
    rcases Nat.lt_trichotomy n (maxSize bits) with hn | rfl | hn
    · exact .inl ⟨n, hg, Nat.le_of_lt hn, value_take_lt hg hn⟩
    · by_cases hlt : value (b.take (maxSize bits)) < 2 ^ bits
      · exact .inl ⟨_, hg, Nat.le_refl _, hlt⟩
      · exact .inr (.inl (.inl ⟨hg, Nat.le_of_not_lt hlt⟩))
    · refine .inr (.inl (.inr ⟨by omega, ?_⟩))
      intro x hx
      exact hbefore x (List.take_subset_take_left b (by omega) hx)

theorem Overflowing.maxSize_le (h : Overflowing bits b) : maxSize bits ≤ b.length := by
  rcases h with ⟨hends, -⟩ | ⟨hlength, -⟩
  · exact (of_groups?_eq_some hends).2.1
  · exact hlength

/-- The bytes of a number are those that it is written in, unless a group of zero is behind. -/
theorem Accepted.eq_encode_iff (h : Accepted bits b n) :
    b.take n = encode (value (b.take n)) ↔ n = 1 ∨ b[n - 1]? ≠ some 0 := by
  obtain ⟨hpos, hle, -⟩ := of_groups?_eq_some h.ends
  obtain ⟨d, hd, hdecode⟩ := decode_used h.decode_eq
  obtain rfl : b.take n = d := List.append_cancel_right ((List.take_append_drop n b).trans hd)
  have hlast : (b.take n).getLast? = b[n - 1]? := by
    rw [List.getLast?_take, if_neg (by omega), List.getElem?_eq_getElem (by omega)]
    rfl
  rw [eq_encode_iff_shortest hdecode, Shortest, hlast, List.length_take_of_le hle]
  tauto

end

/-- Reading a number of the width. If the first byte without a continuation bit is among the bytes
that the width allows and the groups up to it stand for a number of the width, that number is read
and those bytes are taken; they are what the number is written in if and only if there is one of
them or the last is not zero. If the first such byte is the last that the width allows and the
number is too large, or none of them is such a byte, the number overflows and all of them are taken.
If the input is over before, all of it is taken. There is no other case, and the machine, which
checks every shift and difference, reads the same. -/
theorem decode_language {bits : Nat} (hpos : 0 < bits) (hle : bits ≤ 64) (b : Bytes) :
    Machine.number bits b = some (decode bits b) ∧
    (∀ n, Accepted bits b n →
      decode bits b = (.ok (value (b.take n)), b.drop n) ∧ n ≤ b.length ∧
        (b.take n = encode (value (b.take n)) ↔ n = 1 ∨ b[n - 1]? ≠ some 0)) ∧
    (Overflowing bits b →
      decode bits b = (.error .numberOverflow, b.drop (maxSize bits)) ∧
        maxSize bits ≤ b.length) ∧
    (Unfinished bits b → decode bits b = (.error .endOfInput, [])) ∧
    ((∃ n, Accepted bits b n) ∨ Overflowing bits b ∨ Unfinished bits b) := by
  refine ⟨?_, ?_, ?_, Unfinished.decode_eq, accepted_or bits b⟩
  · rw [Machine.number_eq_run hpos hle]
    rfl
  · intro n h
    exact ⟨h.decode_eq, (of_groups?_eq_some h.ends).2.1, h.eq_encode_iff⟩
  · intro h
    exact ⟨h.decode_eq hpos, h.maxSize_le⟩

/-- Of eight bits: one with a group of zero behind, one with a bit too many, and one cut off. -/
theorem decode_language_padded :
    0 < 8 ∧ 8 ≤ 64 ∧
      Accepted 8 [0x81, 0x00, 0xaa] 2 ∧ decode 8 [0x81, 0x00, 0xaa] = (.ok 1, [0xaa]) ∧
      [0x81, 0x00] ≠ encode 1 ∧
      Overflowing 8 [0xac, 0x02, 0xaa] ∧
      decode 8 [0xac, 0x02, 0xaa] = (.error .numberOverflow, [0xaa]) ∧
      Unfinished 8 [0xff] ∧ decode 8 [0xff] = (.error .endOfInput, []) ∧
      Machine.number 8 [0xff] = some (.error .endOfInput, []) := by
  have hone : value [0x81, 0x00] = 1 := by simp [value_cons, value_nil]
  have hlarge : value [0xac, 0x02] = 300 := by simp [value_cons, value_nil]
  have haccepted : Accepted 8 [0x81, 0x00, 0xaa] 2 := by
    refine ⟨by decide, by decide, ?_⟩
    change value [0x81, 0x00] < 2 ^ 8
    rw [hone]
    decide
  have hoverflowing : Overflowing 8 [0xac, 0x02, 0xaa] := by
    refine .inl ⟨by decide, ?_⟩
    change 2 ^ 8 ≤ value [0xac, 0x02]
    rw [hlarge]
    decide
  have hunfinished : Unfinished 8 [0xff] := ⟨by decide, by simp⟩
  have hpos : 0 < 8 := by decide
  have hle : 8 ≤ 64 := by decide
  obtain ⟨-, hread, -⟩ := decode_language hpos hle [0x81, 0x00, 0xaa]
  obtain ⟨-, -, hrefuse, -⟩ := decode_language hpos hle [0xac, 0x02, 0xaa]
  obtain ⟨hmachine, -, -, hend, -⟩ := decode_language hpos hle [0xff]
  obtain ⟨hdecode, -, hcanonical⟩ := hread 2 haccepted
  have htake : ([0x81, 0x00, 0xaa] : Bytes).take 2 = [0x81, 0x00] := rfl
  rw [htake, hone] at hdecode hcanonical
  have hlonger : [0x81, 0x00] ≠ encode 1 := by
    intro heq
    exact absurd (hcanonical.1 heq) (by decide)
  rw [hend hunfinished] at hmachine
  exact ⟨hpos, hle, haccepted, hdecode, hlonger, hoverflowing, (hrefuse hoverflowing).1,
    hunfinished, hend hunfinished, hmachine⟩

end Bytewire.Base128
