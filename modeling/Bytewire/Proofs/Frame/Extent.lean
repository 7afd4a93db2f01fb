import Bytewire.Proofs.Frame.Segments
import Mathlib.Algebra.Ring.Nat

/-! How long frames are. A part of a payload between zeros takes its bytes, a code, and another code
for each full block in it. No payload takes more codes than one that is a single part, and packing
in a buffer with room for that stays inside it from the first byte to the last. -/
namespace Bytewire.Frame

theorem length_segmentBytes (s : Bytes) :
    (segmentBytes s).length = s.length + 1 + s.length / maxRun := by
  fun_induction segmentBytes s with
  | case1 s hfull ih =>
    rw [List.length_cons, List.length_append, List.length_take_of_le hfull, ih, List.length_drop]
    rw [maxRun] at *
    omega
  | case2 s hfull =>
    rw [List.length_cons, Nat.div_eq_of_lt (Nat.lt_of_not_le hfull)]

theorem length_flatMap_segmentBytes (ss : List Bytes) :
    (ss.flatMap segmentBytes).length =
      (ss.map List.length).sum + ss.length + (ss.map fun s => s.length / maxRun).sum := by
  induction ss with
  | nil => rfl
  | cons s ss ih =>
    simp only [List.flatMap_cons, List.map_cons, List.sum_cons, List.length_append,
      List.length_cons, length_segmentBytes, ih]
    omega

/-- Every zero ends a part, and so does the end of the payload. -/
theorem sum_length_segments (p : Bytes) :
    ((segments p).map List.length).sum + (segments p).length = p.length + 1 := by
  induction p with
  | nil => rfl
  | cons x p ih =>
    obtain ⟨s, ss, hs⟩ := List.exists_cons_of_ne_nil (segments_ne_nil p)
    rw [hs] at ih
    by_cases hx : x = terminator
    · simp [segments, hx, hs] at ih ⊢
      omega
    · simp [segments, hx, hs] at ih ⊢
      omega

theorem sum_length_div_le (ss : List Bytes) :
    (ss.map fun s => s.length / maxRun).sum ≤ (ss.map List.length).sum / maxRun := by
  induction ss with
  | nil => exact Nat.zero_le _
  | cons s ss ih =>
    simp only [List.map_cons, List.sum_cons]
    rw [maxRun] at *
    omega

section
variable {p q out : Bytes}

theorem length_pack (hp : p ≠ []) :
    (pack p).length = p.length + 2 + ((segments p).map fun s => s.length / maxRun).sum := by
  have hparts := sum_length_segments p
  rw [pack_eq_flatMap_segments hp, List.length_append, length_flatMap_segmentBytes,
    List.length_singleton]
  omega

/-- The full blocks of all parts are no more than there would be in one part of all bytes. -/
theorem length_pack_le_capacity (p : Bytes) : (pack p).length ≤ capacity p.length := by
  by_cases hp : p = []
  · subst hp
    rw [pack_nil, List.length_nil]
    exact Nat.zero_le _
  · have hparts := sum_length_segments p
    have hcount := List.length_pos_iff.2 (segments_ne_nil p)
    have hdiv := sum_length_div_le (segments p)
    have hle : ((segments p).map List.length).sum / maxRun ≤ p.length / maxRun :=
      Nat.div_le_div_right (by omega)
    rw [length_pack hp, capacity]
    rw [maxRun] at *
    omega

theorem length_pack_of_notMem (hp : p ≠ []) (h : terminator ∉ p) :
    (pack p).length = capacity p.length := by
  rw [length_pack hp, segments_of_notMem h, capacity]
  rfl

theorem capacityWord_eq {n : Nat} (h : n ≤ 0x7fffffffffffffff) :
    capacityWord n = .ok (capacity n) := by
  have hfit : capacity n ≤ maxWord := by
    rw [capacity, maxWord]
    omega
  rw [capacityWord, if_pos hfit]

end

structure Open.Inside (o : Open) (n : Nat) : Prop where
  slot_lt : o.slot < o.next
  next_lt : o.next < n
  code_lt : o.code < fullCode

theorem Holds.inside {out buffer : Bytes} {s : Filling} {o : Open} {n : Nat}
    (h : Holds out s.closed s.current o buffer) (hn : s.extent < n) : o.Inside n where
  slot_lt := by
    rw [h.next]
    omega
  next_lt := by rwa [h.next_eq_extent]
  code_lt := by
    have hle := s.current.length_le
    have hroom := s.room
    rw [Block.Full] at hroom
    rw [h.code, fullCode]
    rw [maxRun] at *
    omega

/-- After any part of the payload the open block is inside what all of it may take. -/
theorem pushAll_inside {p q out : Bytes} (h : capacity p.length ≤ out.length) (hq : q <+: p) :
    ∃ o b, Open.first.pushAll q out = (.ok o, b) ∧ o.Inside (capacity p.length) := by
  have hle : capacity q.length ≤ capacity p.length := by
    have hlen := hq.length_le
    rw [capacity, capacity]
    omega
  obtain ⟨o, b, hpush, ho⟩ := Holds.of_capacity_le (Nat.le_trans hle h)
  exact ⟨o, b, hpush, ho.inside (Nat.lt_of_lt_of_le (Filling.extent_pushAll_lt_capacity q) hle)⟩

/-- A frame has its only zero at the end, and it is as long as its payload, the first code and the
terminator, with another code for each full block. That is never more than the capacity, and just as
much for a payload without zeros. In a buffer of the capacity no access is out of bounds and no code
is more than a byte. The capacity of every length below `2 ^ 63` is a machine word. -/
theorem pack_extent (p : Bytes) :
    (p ≠ [] →
      Closed (pack p) ∧
      (pack p).length = p.length + 2 + ((segments p).map fun s => s.length / maxRun).sum ∧
      p.length + 2 ≤ (pack p).length ∧ (pack p).length ≤ capacity p.length ∧
      (terminator ∉ p → (pack p).length = capacity p.length)) ∧
    (∀ out, capacity p.length ≤ out.length →
      (∃ b, packFront p out = (.ok (pack p).length, b)) ∧
      ∀ q, q <+: p →
        ∃ o b, Open.first.pushAll q out = (.ok o, b) ∧ o.Inside (capacity p.length)) ∧
    ∀ n, n ≤ 0x7fffffffffffffff → capacityWord n = .ok (capacity n) := by
  refine ⟨?_, ?_, ?_⟩
  · intro hp
    have hlength := length_pack hp
    refine ⟨closed_pack hp, hlength, by omega, length_pack_le_capacity p, ?_⟩
    intro hzeros
    exact length_pack_of_notMem hp hzeros
  · intro out hout
    refine ⟨⟨_, by rw [pack_eq, packFront_eq hout]⟩, ?_⟩
    intro q hq
    exact pushAll_inside hout hq
  · intro n hn
    exact capacityWord_eq hn

/-- Two payloads of 508 bytes: a zero behind the first full block saves the code of a second one.
And one that packs in the least buffer it may have. -/
theorem pack_extent_runs :
    let p : Bytes := List.replicate maxRun 7 ++ terminator :: List.replicate 253 1
    let q : Bytes := List.replicate 508 1
    p ≠ [] ∧ Closed (pack p) ∧ (pack p).length = 511 ∧
      q ≠ [] ∧ terminator ∉ q ∧ (pack q).length = 512 ∧ capacity 508 = 512 ∧
      (∃ b, packFront [17, 0] [9, 9, 9, 9] = (.ok (pack [17, 0]).length, b)) ∧
      (∃ o b, Open.first.pushAll [17] [9, 9, 9, 9] = (.ok o, b) ∧ o.Inside 4) ∧
      capacityWord 0x7fffffffffffffff = .ok (capacity 0x7fffffffffffffff) := by
  intro p q
  have hrun (n : Nat) (x : UInt8) (hx : x ≠ terminator) : terminator ∉ List.replicate n x :=
    fun h => hx (List.eq_of_mem_replicate h).symm
  have hp : p ≠ [] := List.append_ne_nil_of_right_ne_nil _ (List.cons_ne_nil _ _)
  have hq : q ≠ [] := List.cons_ne_nil _ _
  have hzeros : terminator ∉ q := hrun 508 1 (by decide)
  have hparts : segments p = [List.replicate maxRun 7, List.replicate 253 1] := by
    rw [segments_append, segments_of_notMem (hrun maxRun 7 (by decide)),
      segments_of_notMem (hrun 253 1 (by decide))]
    rfl
  obtain ⟨hclosed, hlength, -⟩ := (pack_extent p).1 hp
  obtain ⟨-, -, -, -, hattained⟩ := (pack_extent q).1 hq
  obtain ⟨-, hplaces, hword⟩ := pack_extent [17, 0]
  obtain ⟨hpack, hinside⟩ := hplaces [9, 9, 9, 9] (by decide)
  have hshort : (pack p).length = 511 := by
    rw [hlength, hparts]
    simp only [p, List.length_append, List.length_cons, List.length_replicate, List.map_cons,
      List.map_nil, List.sum_cons, List.sum_nil]
    rfl
  have hlong : (pack q).length = 512 := by
    rw [hattained hzeros, List.length_replicate]
    rfl
  exact ⟨hp, hclosed, hshort, hq, hzeros, hlong, rfl, hpack, hinside [17] ⟨[0], rfl⟩,
    hword _ (by decide)⟩

end Bytewire.Frame
