import Bytewire.Proofs.Frame.RoundTrip

/-! Packing by the parts of a payload. The blocks of a part between zeros depend on that part alone,
so that a frame is put together from its parts one after another. -/
namespace Bytewire.Frame

section
variable {p d : Bytes}

theorem segments_ne_nil (p : Bytes) : segments p ≠ [] := by
  cases p with
  | nil => simp [segments]
  | cons x p =>
    rw [segments]
    split
    · simp
    · split <;> simp

theorem segments_append (p q : Bytes) :
    segments (p ++ terminator :: q) = segments p ++ segments q := by
  induction p with
  | nil => simp [segments]
  | cons x p ih =>
    obtain ⟨s, ss, hs⟩ := List.exists_cons_of_ne_nil (segments_ne_nil p)
    by_cases hx : x = terminator
    · simp [segments, hx, ih]
    · simp [segments, hx, ih, hs]

example : segments [17, 0, 0, 51] = [[17], [], [51]] := by decide

theorem segments_of_notMem (h : terminator ∉ d) : segments d = [d] := by
  induction d with
  | nil => rfl
  | cons x d ih =>
    rw [List.mem_cons, not_or] at h
    simp [segments, Ne.symm h.1, ih h.2]

theorem segmentBytes_of_le (h : maxRun ≤ d.length) :
    segmentBytes d = UInt8.ofNat fullCode :: (d.take maxRun ++ segmentBytes (d.drop maxRun)) := by
  rw [segmentBytes, if_pos h]

theorem segmentBytes_of_lt (h : d.length < maxRun) :
    segmentBytes d = UInt8.ofNat (d.length + 1) :: d := by
  rw [segmentBytes, if_neg (Nat.not_le_of_lt h)]

end

def Block.ofSegment (d : Bytes) (h : d.length ≤ maxRun) (hd : terminator ∉ d) : Block where
  data := d
  length_le := h
  nonzero := by
    rintro x hx rfl
    exact hd hx

namespace Filling
variable {d : Bytes}

def bytes (s : Filling) : Bytes := s.blocks.flatMap Block.bytes

theorem bytes_mk {cs : List Block} {b : Block} (hb : ¬ b.Full) :
    bytes ⟨cs, b, hb⟩ = cs.flatMap Block.bytes ++ b.bytes := by
  simp [bytes, blocks]

theorem push_terminator (s : Filling) : s.push terminator = place s.blocks .empty := by
  rw [push, dif_pos rfl, place_empty]
  rfl

/-- A part without zeros fills block after block with the bytes that come next. -/
theorem bytes_pushAll_of_notMem (cs : List Block) (hd : terminator ∉ d) :
    ((place cs .empty).pushAll d).bytes = cs.flatMap Block.bytes ++ segmentBytes d := by
  -- On the length, since a whole block goes at once.
  induction hn : d.length using Nat.strongRecOn generalizing cs d with
  | ind n ih =>
    by_cases hfull : maxRun ≤ d.length
    · have hlen : (d.take maxRun).length = maxRun := List.length_take_of_le hfull
      have htake : terminator ∉ d.take maxRun := fun h => hd (List.mem_of_mem_take h)
      have hdrop : terminator ∉ d.drop maxRun := fun h => hd (List.mem_of_mem_drop h)
      let b := Block.ofSegment (d.take maxRun) (Nat.le_of_eq hlen) htake
      have hb : b.Full := hlen
      have hbytes : b.bytes = UInt8.ofNat fullCode :: d.take maxRun := by
        rw [Block.bytes, Block.code, show b.data.length = maxRun from hlen]
        rfl
      have hfill : (place cs .empty).pushAll (d.take maxRun) = place (cs ++ [b]) .empty := by
        rw [pushAll_data (b := b) rfl, place, dif_pos hb, place_empty]
        rfl
      have hpos : 0 < maxRun := by decide
      have hshorter : (d.drop maxRun).length < n := by
        rw [List.length_drop]
        omega
      have hrest := ih _ hshorter (cs ++ [b]) hdrop rfl
      rw [← List.take_append_drop maxRun d, pushAll_append, hfill, hrest,
        List.take_append_drop, segmentBytes_of_le hfull]
      simp [hbytes]
    · have hlt : d.length < maxRun := Nat.lt_of_not_le hfull
      let b := Block.ofSegment d (Nat.le_of_lt hlt) hd
      have hb : ¬ b.Full := Nat.ne_of_lt hlt
      rw [pushAll_data (b := b) rfl, place_of_not_full hb, bytes_mk, segmentBytes_of_lt hlt]
      rfl

/-- A zero closes the block of the part before it, and the next part begins another. -/
theorem bytes_pushAll (cs : List Block) (p : Bytes) :
    ((place cs .empty).pushAll p).bytes =
      cs.flatMap Block.bytes ++ (segments p).flatMap segmentBytes := by
  induction hn : p.length using Nat.strongRecOn generalizing cs p with
  | ind n ih =>
    by_cases hp : terminator ∈ p
    · obtain ⟨d, q, rfl, hd⟩ := List.eq_append_cons_of_mem hp
      have hshorter : q.length < n := by
        rw [← hn, List.length_append, List.length_cons]
        omega
      have hpart := bytes_pushAll_of_notMem cs hd
      have hrest := ih _ hshorter ((place cs .empty).pushAll d).blocks q rfl
      rw [bytes] at hpart
      rw [pushAll_append, pushAll, push_terminator, hrest, hpart, segments_append,
        segments_of_notMem hd]
      simp
    · rw [bytes_pushAll_of_notMem cs hp, segments_of_notMem hp, List.flatMap_singleton]

end Filling

theorem pack_eq_flatMap_segments {p : Bytes} (hp : p ≠ []) :
    pack p = (segments p).flatMap segmentBytes ++ [terminator] := by
  have hfirst : Filling.first = Filling.place [] .empty := (Filling.place_empty []).symm
  have hbytes := Filling.bytes_pushAll [] p
  rw [← hfirst, List.flatMap_nil, List.nil_append] at hbytes
  rw [pack_eq, frameOf, if_neg hp, ofBlocks, ← hbytes]
  rfl

/-- The frame of a payload is made of the bytes of its parts between zeros, and the terminator.
So the frame of two payloads with a zero between them is the frame of the first, without its
terminator, and behind it the frame of the second. -/
theorem pack_by_segments {p : Bytes} (hp : p ≠ []) :
    pack p = (segments p).flatMap segmentBytes ++ [terminator] ∧
      ∀ q, q ≠ [] → pack (p ++ [terminator] ++ q) = (pack p).dropLast ++ pack q := by
  refine ⟨pack_eq_flatMap_segments hp, ?_⟩
  intro q hq
  have hpq : p ++ [terminator] ++ q ≠ [] := by simp
  rw [pack_eq_flatMap_segments hpq, pack_eq_flatMap_segments hp, pack_eq_flatMap_segments hq,
    List.dropLast_concat, List.append_assoc, List.singleton_append, segments_append,
    List.flatMap_append, List.append_assoc]

/-- A run that fills a block, with a zero behind it and another one before the next byte. -/
theorem pack_by_segments_full :
    let p : Bytes := List.replicate maxRun 1 ++ [terminator]
    p ≠ [] ∧ ([7] : Bytes) ≠ [] ∧
      pack p = (segments p).flatMap segmentBytes ++ [terminator] ∧
      pack (p ++ [terminator] ++ [7]) = (pack p).dropLast ++ pack [7] := by
  intro p
  have hp : p ≠ [] := by simp [p]
  obtain ⟨hpack, happend⟩ := pack_by_segments hp
  exact ⟨hp, by simp, hpack, happend [7] (by simp)⟩

end Bytewire.Frame
