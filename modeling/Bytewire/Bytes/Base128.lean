import Bytewire.Bytes.Buffer

/-! Numbers in groups of seven bits, lowest group first; the high bit of a byte says that another
group follows. Reading takes any number of zero groups that still fits the width. -/
namespace Bytewire.Base128

def encode (n : Nat) : Bytes :=
  if n < 128 then [UInt8.ofNat n] else UInt8.ofNat (n % 128 + 128) :: encode (n / 128)

def bitLength (n : Nat) : Nat := if n = 0 then 0 else n.log2 + 1

def size (n : Nat) : Nat := max 1 ((bitLength n + 6) / 7)

def maxSize (bits : Nat) : Nat := (bits + 6) / 7

/-- Reads a number of at most `room` bits. A byte with bits beyond the room is an overflow, and the
continuation bit counts as such where seven bits or fewer are left. -/
def decode (room : Nat) : Attempt Bytes Nat
  | [] => (.error .endOfInput, [])
  | x :: xs =>
    if room ≤ 7 ∧ room < bitLength x.toNat then (.error .numberOverflow, xs)
    else if x.toNat < 128 then (.ok x.toNat, xs)
    else
      match decode (room - 7) xs with
      | (.ok n, ys) => (.ok (x.toNat % 128 + 128 * n), ys)
      | (.error e, ys) => (.error e, ys)

theorem encode_of_lt {n : Nat} (h : n < 128) : encode n = [UInt8.ofNat n] := by
  rw [encode, if_pos h]

theorem encode_of_le {n : Nat} (h : 128 ≤ n) :
    encode n = UInt8.ofNat (n % 128 + 128) :: encode (n / 128) := by
  rw [encode, if_neg (by omega)]

theorem bitLength_le_iff {n k : Nat} : bitLength n ≤ k ↔ n >>> k = 0 := by
  rw [Nat.shiftRight_eq_div_pow, Nat.div_eq_zero_iff_lt (Nat.two_pow_pos k)]
  by_cases h : n = 0
  · have := Nat.two_pow_pos k
    rw [bitLength, if_pos h]
    omega
  · rw [bitLength, if_neg h, Nat.succ_le_iff, Nat.log2_lt h]

theorem bitLength_le_seven {n : Nat} : bitLength n ≤ 7 ↔ n < 128 := by
  rw [bitLength_le_iff, Nat.shiftRight_eq_div_pow]
  omega

theorem bitLength_div (n : Nat) : bitLength (n / 128) = bitLength n - 7 := by
  have h (k : Nat) : bitLength (n / 128) ≤ k ↔ bitLength n - 7 ≤ k := by
    rw [bitLength_le_iff, show n / 128 = n >>> 7 from (Nat.shiftRight_eq_div_pow n 7).symm,
      ← Nat.shiftRight_add, ← bitLength_le_iff]
    omega
  exact Nat.le_antisymm ((h _).2 (Nat.le_refl _)) ((h _).1 (Nat.le_refl _))

theorem length_encode (n : Nat) : (encode n).length = size n := by
  induction n using Nat.strongRecOn with
  | ind n ih =>
    by_cases h : n < 128
    · have hb := bitLength_le_seven.2 h
      rw [encode_of_lt h, size, List.length_singleton]
      omega
    · have hb : ¬ bitLength n ≤ 7 := fun hb => h (bitLength_le_seven.1 hb)
      rw [encode_of_le (by omega), List.length_cons, ih _ (by omega), size, size, bitLength_div]
      omega

theorem size_le_maxSize {bits n : Nat} (hb : 0 < bits) (h : bitLength n ≤ bits) :
    size n ≤ maxSize bits := by
  rw [size, maxSize]
  omega

/-- A number that fits the width is read back, and what follows it is left. -/
theorem decode_encode {room n : Nat} (h : bitLength n ≤ room) (t : Bytes) :
    decode room (encode n ++ t) = (.ok n, t) := by
  induction n using Nat.strongRecOn generalizing room with
  | ind n ih =>
    by_cases hn : n < 128
    · have hx : (UInt8.ofNat n).toNat = n := by simp; omega
      rw [encode_of_lt hn]
      simp only [List.singleton_append, decode, hx, hn, if_true]
      rw [if_neg (by omega)]
    · have hx : (UInt8.ofNat (n % 128 + 128)).toNat = n % 128 + 128 := by simp; omega
      have hb : ¬ bitLength n ≤ 7 := fun hb => hn (bitLength_le_seven.1 hb)
      have hdiv : bitLength (n / 128) ≤ room - 7 := by rw [bitLength_div]; omega
      rw [encode_of_le (by omega), List.cons_append, decode]
      simp only [hx]
      rw [if_neg (by omega), if_neg (by omega), ih (n / 128) (by omega) hdiv]
      simp only [Prod.mk.injEq, Except.ok.injEq, and_true]
      omega

/-- A byte that is read is the last one and fits the room, or starts a number of seven bits more. -/
theorem eq_ok_of_decode_cons {room n : Nat} {x : UInt8} {xs c : Bytes}
    (h : decode room (x :: xs) = (.ok n, c)) :
    (x.toNat < 128 ∧ bitLength x.toNat ≤ room ∧ n = x.toNat ∧ xs = c) ∨
      (128 ≤ x.toNat ∧ 7 < room ∧
        ∃ m, decode (room - 7) xs = (.ok m, c) ∧ n = x.toNat % 128 + 128 * m) := by
  rw [decode] at h
  split at h
  · cases h
  · rename_i hroom
    split at h
    · rename_i hx
      have hb := bitLength_le_seven.2 hx
      cases h
      exact .inl ⟨hx, by omega, rfl, rfl⟩
    · rename_i hx
      have hb : ¬ bitLength x.toNat ≤ 7 := fun hb => hx (bitLength_le_seven.1 hb)
      cases hxs : decode (room - 7) xs with
      | mk r ys =>
        rw [hxs] at h
        cases r with
        | error e => cases h
        | ok m =>
          cases h
          exact .inr ⟨by omega, by omega, m, rfl, rfl⟩

theorem bitLength_le_of_decode {room n : Nat} {b c : Bytes} (h : decode room b = (.ok n, c)) :
    bitLength n ≤ room := by
  induction b generalizing room n with
  | nil => cases h
  | cons x xs ih =>
    rcases eq_ok_of_decode_cons h with ⟨_, hb, rfl, _⟩ | ⟨_, hroom, m, hxs, rfl⟩
    · exact hb
    · have hm := ih hxs
      have hdiv := bitLength_div (x.toNat % 128 + 128 * m)
      rw [show (x.toNat % 128 + 128 * m) / 128 = m by omega] at hdiv
      omega

def Shortest (d : Bytes) : Prop := d.getLast? = some 0 → d.length = 1

instance : DecidablePred Shortest :=
  fun d => inferInstanceAs (Decidable (d.getLast? = some 0 → d.length = 1))

theorem shortest_cons_iff {x : UInt8} {xs : Bytes} (h : xs ≠ []) :
    Shortest (x :: xs) ↔ xs.getLast? ≠ some 0 := by
  cases xs with
  | nil => exact absurd rfl h
  | cons y ys => simp [Shortest, List.getLast?_cons_cons]

theorem encode_of_group {x : UInt8} (hx : 128 ≤ x.toNat) {m : Nat} (hm : m ≠ 0) :
    encode (x.toNat % 128 + 128 * m) = x :: encode m := by
  have hlt := x.toNat_lt
  rw [encode_of_le (by omega), show (x.toNat % 128 + 128 * m) / 128 = m by omega,
    show (x.toNat % 128 + 128 * m) % 128 + 128 = x.toNat by omega, UInt8.ofNat_toNat]

/-- A number is read from the groups of its encoding, or from more groups with a zero at the end. -/
theorem shortest_or_longer {room n : Nat} {d : Bytes} (h : decode room d = (.ok n, [])) :
    (Shortest d ∧ d = encode n) ∨ (¬ Shortest d ∧ (encode n).length < d.length) := by
  induction d generalizing room n with
  | nil => cases h
  | cons x xs ih =>
    rcases eq_ok_of_decode_cons h with ⟨hx, _, rfl, rfl⟩ | ⟨hx, _, m, hxs, rfl⟩
    · rw [encode_of_lt hx]
      exact .inl ⟨fun _ => rfl, by rw [UInt8.ofNat_toNat]⟩
    · have hne : xs ≠ [] := by
        rintro rfl
        cases hxs
      rw [shortest_cons_iff hne]
      by_cases hm : m = 0
      · -- the groups behind are zero, and the first one would do
        subst hm
        right
        rw [encode_of_lt (by omega)]
        refine ⟨?_, Nat.succ_lt_succ (List.length_pos_iff.2 hne)⟩
        intro hlast
        rcases ih hxs with ⟨_, rfl⟩ | ⟨hlonger, _⟩
        · exact hlast (by rw [encode_of_lt (by decide)]; rfl)
        · exact hlonger fun h => absurd h hlast
      · rw [encode_of_group hx hm]
        rcases ih hxs with ⟨hshortest, hd⟩ | ⟨hlonger, hlt⟩
        · refine .inl ⟨?_, by rw [← hd]⟩
          intro hlast
          obtain ⟨y, rfl⟩ := List.length_eq_one_iff.1 (hshortest hlast)
          obtain rfl : y = 0 := by simpa using hlast
          rcases eq_ok_of_decode_cons hxs with ⟨_, _, rfl, _⟩ | ⟨h128, _⟩
          · exact hm rfl
          · exact absurd h128 (by decide)
        · refine .inr ⟨?_, Nat.succ_lt_succ hlt⟩
          intro hlast
          exact hlonger fun h => absurd h hlast

section
variable {room n : Nat} {d : Bytes}

theorem eq_encode_of_shortest (h : decode room d = (.ok n, [])) (hs : Shortest d) :
    d = encode n := by
  cases shortest_or_longer h with
  | inl hd => exact hd.2
  | inr hd => exact absurd hs hd.1

theorem length_encode_lt (h : decode room d = (.ok n, [])) (hs : ¬ Shortest d) :
    (encode n).length < d.length := by
  cases shortest_or_longer h with
  | inl hd => exact absurd hd.1 hs
  | inr hd => exact hd.2

theorem eq_encode_iff_shortest (h : decode room d = (.ok n, [])) : d = encode n ↔ Shortest d := by
  refine ⟨?_, eq_encode_of_shortest h⟩
  intro hd
  refine Decidable.byContradiction fun hs => ?_
  have hlt := length_encode_lt h hs
  rw [← hd] at hlt
  exact Nat.lt_irrefl _ hlt

theorem length_encode_le (h : decode room d = (.ok n, [])) : (encode n).length ≤ d.length := by
  by_cases hs : Shortest d
  · exact Nat.le_of_eq (congrArg List.length (eq_encode_of_shortest h hs).symm)
  · exact Nat.le_of_lt (length_encode_lt h hs)

end
end Bytewire.Base128
