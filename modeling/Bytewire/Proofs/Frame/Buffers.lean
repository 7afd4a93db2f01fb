import Bytewire.Proofs.Frame.Extent

/-! Frames packed into a given buffer and unpacked into one. Whatever the buffer holds, the result
is that of packing or unpacking into a new place, and it lies over the front; a buffer that is too
short is refused and left alone, and one that is longer keeps the bytes behind. -/
namespace Bytewire.Frame

structure KeptFrom (n : Nat) (before after : Bytes) : Prop where
  length : after.length = before.length
  behind : after.drop n = before.drop n

namespace KeptFrom
variable {n : Nat} {b u : Bytes}

theorem refl (n : Nat) (b : Bytes) : KeptFrom n b b := ⟨rfl, rfl⟩

theorem append_drop (hu : u.length = n) (hn : n ≤ b.length) : KeptFrom n b (u ++ b.drop n) where
  length := by
    rw [List.length_append, List.length_drop]
    omega
  behind := by rw [← hu, List.drop_left]

end KeptFrom

section
variable {p f out : Bytes}

theorem packInto_of_lt (hp : p ≠ []) (h : out.length < capacity p.length) :
    packInto p out = (.error (.bufferTooSmall (capacity p.length) out.length), out) := by
  rw [packInto, Attempt.bind_ok (Attempt.get_run out), if_neg hp, if_pos h]
  rfl

/-- An empty payload goes into every buffer. -/
theorem packInto_of_room (h : ¬ (p ≠ [] ∧ out.length < capacity p.length)) :
    packInto p out = (.ok (pack p).length, pack p ++ out.drop (pack p).length) := by
  rw [packInto, Attempt.bind_ok (Attempt.get_run out)]
  by_cases hp : p = []
  · subst hp
    rw [if_pos rfl, pack_nil]
    rfl
  · have hle : ¬ out.length < capacity p.length := fun hlt => h ⟨hp, hlt⟩
    rw [if_neg hp, if_neg hle, packFront_eq (Nat.le_of_not_lt hle), pack_eq]

theorem length_pack_le_of_room (h : ¬ (p ≠ [] ∧ out.length < capacity p.length)) :
    (pack p).length ≤ out.length := by
  by_cases hp : p = []
  · rw [hp, pack_nil]
    exact Nat.zero_le _
  · have hle : ¬ out.length < capacity p.length := fun hlt => h ⟨hp, hlt⟩
    exact Nat.le_trans (length_pack_le_capacity p) (Nat.le_of_not_lt hle)

theorem length_expand_le (f : Bytes) : (expand f).1.length ≤ f.length := by
  by_cases hf : f = []
  · simp [hf, expand_nil]
  · exact Nat.le_of_lt (length_expand_lt hf)

theorem length_unpackHere (f : Bytes) : (unpackHere f).2.length = f.length := by
  by_cases hf : f = [] ∨ Closed f
  · have hle := length_expand_le f
    rw [unpackHere_eq_expand hf, List.length_append, List.length_drop]
    omega
  · rw [not_or] at hf
    rw [unpackHere_of_not_closed hf.1 hf.2]

/-- The length told in place is that of the payload, which lies over the front. -/
theorem unpackHere_eq_unpack (f : Bytes) :
    (unpackHere f).1 = (unpack f).map List.length ∧
      ∀ p, unpack f = .ok p → p <+: (unpackHere f).2 := by
  have hlength := length_unpackHere f
  have hend {n : Nat} (h : (unpackHere f).1 = .ok n) : n ≤ f.length := by
    have hle := length_expand_le f
    rw [eq_of_unpackHere h]
    omega
  rw [unpack]
  cases hf : unpackHere f with
  | mk r b =>
    rw [hf] at hlength hend
    cases r with
    | error e => exact ⟨rfl, by simp⟩
    | ok n =>
      have hn : n ≤ b.length := Nat.le_trans (hend rfl) (Nat.le_of_eq hlength.symm)
      refine ⟨by simp [Except.map, hn], ?_⟩
      rintro p ⟨⟩
      exact List.take_prefix n b

theorem length_unpack_le (h : unpack f = .ok p) : p.length ≤ f.length := by
  rw [← length_unpackHere f]
  exact ((unpackHere_eq_unpack f).2 p h).length_le

theorem exists_unpackHere (h : unpack f = .ok p) :
    ∃ b, unpackHere f = (.ok p.length, b) ∧ b.take p.length = p := by
  obtain ⟨hlength, hfront⟩ := unpackHere_eq_unpack f
  rw [h] at hlength
  exact ⟨_, Prod.ext hlength rfl, (List.prefix_iff_eq_take.1 (hfront p h)).symm⟩

theorem unpackInto_of_lt (h : out.length < f.length) :
    unpackInto f out = (.error (.bufferTooSmall f.length out.length), out) := if_pos h

theorem unpackInto_of_le (h : f.length ≤ out.length) :
    unpackInto f out = ((unpackHere f).1, (unpackHere f).2 ++ out.drop f.length) :=
  if_neg (Nat.not_lt_of_le h)

end

/-- What packing into a buffer comes to: a refusal that says how much room is asked for and leaves
the buffer, or the frame over the front and all behind it kept. -/
structure PacksInto (p out : Bytes) : Prop where
  refused_iff : (∃ needed available,
    (packInto p out).1 = .error (.bufferTooSmall needed available)) ↔
      p ≠ [] ∧ out.length < capacity p.length
  refused : p ≠ [] ∧ out.length < capacity p.length →
    packInto p out = (.error (.bufferTooSmall (capacity p.length) out.length), out)
  packed : ¬ (p ≠ [] ∧ out.length < capacity p.length) →
    (packInto p out).1 = .ok (pack p).length ∧ pack p <+: (packInto p out).2 ∧
      KeptFrom (pack p).length out (packInto p out).2

/-- What unpacking into a buffer comes to: a refusal that leaves the buffer, or the same payload or
the same fault as without a buffer; behind the length of the frame the buffer is always kept. -/
structure UnpacksInto (f out : Bytes) : Prop where
  refused_iff : (∃ needed available,
    (unpackInto f out).1 = .error (.bufferTooSmall needed available)) ↔ out.length < f.length
  refused : out.length < f.length →
    unpackInto f out = (.error (.bufferTooSmall f.length out.length), out)
  unpacked : f.length ≤ out.length →
    (unpackInto f out).1 = (unpack f).map List.length ∧
      ∀ p, unpack f = .ok p → p <+: (unpackInto f out).2
  kept : KeptFrom f.length out (unpackInto f out).2

theorem packsInto (p out : Bytes) : PacksInto p out where
  refused_iff := by
    constructor
    · rintro ⟨needed, available, herror⟩
      refine Classical.byContradiction fun h => ?_
      rw [packInto_of_room h] at herror
      cases herror
    · rintro ⟨hp, h⟩
      exact ⟨_, _, by rw [packInto_of_lt hp h]⟩
  refused h := packInto_of_lt h.1 h.2
  packed h := by
    rw [packInto_of_room h]
    exact ⟨rfl, List.prefix_append _ _, .append_drop rfl (length_pack_le_of_room h)⟩

theorem unpacksInto (f out : Bytes) : UnpacksInto f out where
  refused_iff := by
    constructor
    · rintro ⟨needed, available, herror⟩
      refine Nat.lt_of_not_le fun hle => ?_
      rw [unpackInto_of_le hle] at herror
      cases eq_truncatedFrame_of_unpackHere herror
    · intro h
      exact ⟨_, _, by rw [unpackInto_of_lt h]⟩
  refused := unpackInto_of_lt
  unpacked h := by
    obtain ⟨hlength, hfront⟩ := unpackHere_eq_unpack f
    rw [unpackInto_of_le h]
    exact ⟨hlength, fun p hp => (hfront p hp).trans (List.prefix_append _ _)⟩
  kept := by
    by_cases h : out.length < f.length
    · rw [unpackInto_of_lt h]
      exact .refl _ _
    · have hle := Nat.le_of_not_lt h
      rw [unpackInto_of_le hle]
      exact .append_drop (length_unpackHere f) hle

/-- Into every buffer, whatever it holds, the same is packed and unpacked as into a new place. -/
theorem buffers_agree (d out : Bytes) : PacksInto d out ∧ UnpacksInto d out :=
  ⟨packsInto d out, unpacksInto d out⟩

/-- Bytes that are a frame and can be packed, and a buffer that is dirty and too long for both. -/
theorem buffers_agree_dirty :
    let d : Bytes := [2, 17, 0]
    let out : Bytes := List.replicate 7 9
    ¬ (d ≠ [] ∧ out.length < capacity d.length) ∧ d.length ≤ out.length ∧
      (packInto d out).1 = .ok (pack d).length ∧ pack d <+: (packInto d out).2 ∧
      KeptFrom (pack d).length out (packInto d out).2 ∧
      (unpackInto d out).1 = (unpack d).map List.length ∧
      KeptFrom d.length out (unpackInto d out).2 ∧
      packInto d [9] = (.error (.bufferTooSmall 5 1), [9]) ∧
      unpackInto d [9] = (.error (.bufferTooSmall 3 1), [9]) := by
  intro d out
  obtain ⟨hpacks, hunpacks⟩ := buffers_agree d out
  obtain ⟨hshort, hcut⟩ := buffers_agree d [9]
  have hroom : ¬ (d ≠ [] ∧ out.length < capacity d.length) := by decide
  have hle : d.length ≤ out.length := by decide
  have hneeded : capacity d.length = 5 := by decide
  have hrefused := hshort.refused (by decide)
  rw [hneeded] at hrefused
  obtain ⟨hlength, hfront, hkept⟩ := hpacks.packed hroom
  exact ⟨hroom, hle, hlength, hfront, hkept, (hunpacks.unpacked hle).1, hunpacks.kept,
    hrefused, hcut.refused (by decide)⟩

end Bytewire.Frame
