import Bytewire.Proofs.Frame.Acceptance
import Bytewire.Proofs.Frame.Packing

/-! A payload comes back from its frame, and a frame from its payload if it is one that packing
makes: packing closes a block at a zero or when it is full and nowhere else, so that a payload can
fall in no other way into blocks of which the last is not full. -/
namespace Bytewire.Frame

theorem pack_nil : pack [] = [] := by
  rw [pack_eq]
  rfl

theorem closed_pack {p : Bytes} (hp : p ≠ []) : Closed (pack p) := by
  rw [pack_eq, frameOf, if_neg hp]
  exact closed_ofBlocks _

theorem unpack_frameOf (p : Bytes) : unpack (frameOf p) = .ok p := by
  rw [frameOf]
  by_cases hp : p = []
  · subst hp
    rfl
  · rw [if_neg hp, unpack_ofBlocks, text_blocksOf, List.dropLast_concat]

theorem unpack_of_pack (p : Bytes) : unpack (pack p) = .ok p := by rw [pack_eq, unpack_frameOf]

/-- In another place and in its own: the payload, and the length and the bytes of the payload. -/
theorem unpack_pack (p : Bytes) :
    unpack (pack p) = .ok p ∧
      ∃ b, unpackHere (pack p) = (.ok p.length, b) ∧ b.take p.length = p := by
  rw [pack_eq]
  refine ⟨unpack_frameOf p, ?_⟩
  rw [frameOf]
  by_cases hp : p = []
  · subst hp
    exact ⟨[], rfl, rfl⟩
  · rw [if_neg hp]
    have htake : (patch (ofBlocks (blocksOf p)) 0 (p ++ [terminator])).take p.length = p := by
      rw [patch, List.take_zero, List.nil_append, List.append_assoc]
      exact List.take_left
    refine ⟨patch (ofBlocks (blocksOf p)) 0 (p ++ [terminator]), ?_, htake⟩
    rw [unpackHere_ofBlocks, text_blocksOf, List.length_append, List.length_singleton,
      Nat.add_sub_cancel]

namespace Filling
variable {cs : List Block} {b c : Block}

theorem pushAll_append (s : Filling) (xs ys : Bytes) :
    s.pushAll (xs ++ ys) = (s.pushAll xs).pushAll ys := by
  induction xs generalizing s with
  | nil => rfl
  | cons x xs ih => exact ih (s.push x)

theorem place_of_not_full (h : ¬ b.Full) : place cs b = ⟨cs, b, h⟩ := dif_neg h

theorem place_empty (cs : List Block) : place cs .empty = ⟨cs, .empty, Block.not_full_empty⟩ :=
  place_of_not_full Block.not_full_empty

/-- A block in the making is completed by the rest of its bytes. -/
theorem pushAll_data {d : Bytes} (h : b.data = c.data ++ d) :
    (place cs c).pushAll d = place cs b := by
  induction d generalizing c with
  | nil => rw [Block.ext_data (h.trans (List.append_nil _)), pushAll]
  | cons x d ih =>
    have hc : ¬ c.Full := by
      have hle := b.length_le
      rw [h, List.length_append, List.length_cons] at hle
      rw [Block.Full]
      omega
    have hx : x ≠ terminator := b.nonzero x (by simp [h])
    rw [pushAll, place_of_not_full hc, push, dif_neg hx]
    exact ih (by rw [h, Block.data_grow, List.append_assoc, List.singleton_append])

/-- What a block stands for fills the block and begins another behind it. -/
theorem pushAll_text (cs : List Block) (b : Block) :
    (place cs .empty).pushAll b.text = place (cs ++ [b]) .empty := by
  have hdata : (place cs .empty).pushAll b.data = place cs b := pushAll_data rfl
  rw [place_empty (cs ++ [b])]
  by_cases hb : b.Full
  · rw [Block.text, if_pos hb, hdata, place, dif_pos hb]
    rfl
  · rw [Block.text, if_neg hb, pushAll_append, hdata, place_of_not_full hb]
    rfl

theorem pushAll_texts (cs bs : List Block) :
    (place cs .empty).pushAll (bs.flatMap Block.text) = place (cs ++ bs) .empty := by
  induction bs generalizing cs with
  | nil => rw [List.append_nil, List.flatMap_nil, pushAll]
  | cons b bs ih =>
    rw [List.flatMap_cons, pushAll_append, pushAll_text, ih, List.append_assoc,
      List.singleton_append]

end Filling

theorem Block.text_ne_nil (b : Block) : b.text ≠ [] := by
  by_cases hb : b.Full
  · rw [text, if_pos hb]
    intro h
    rw [Full, h] at hb
    exact absurd hb (by decide)
  · simp [text, hb]

section
variable {bs : List Block} {b : Block} {f : Bytes}

/-- A payload falls into the blocks it was put together from. -/
theorem blocksOf_payload (bs : List Block) (hb : ¬ b.Full) :
    blocksOf (payload (bs ++ [b])) = bs ++ [b] := by
  have hfirst : Filling.first = Filling.place [] .empty := (Filling.place_empty []).symm
  have hdata : (Filling.place bs .empty).pushAll b.data = Filling.place bs b :=
    Filling.pushAll_data rfl
  rw [blocksOf, payload_concat, Filling.pushAll_append, hfirst, Filling.pushAll_texts,
    List.nil_append, hdata, Filling.place_of_not_full hb, Filling.blocks]

theorem payload_ne_nil (h : ofBlocks (bs ++ [b]) ≠ [1, 0]) : payload (bs ++ [b]) ≠ [] := by
  intro hnil
  rw [payload_concat, List.append_eq_nil_iff] at hnil
  cases bs with
  | nil =>
    have hb : b = .empty := Block.ext_data hnil.2
    subst hb
    exact h rfl
  | cons c bs =>
    rw [List.flatMap_cons, List.append_eq_nil_iff] at hnil
    exact c.text_ne_nil hnil.1.1

theorem wellPacked_frameOf {p : Bytes} (hp : p ≠ []) : WellPacked (frameOf p) := by
  refine ⟨?_, (Filling.first.pushAll p).closed, (Filling.first.pushAll p).current, if_neg hp,
    (Filling.first.pushAll p).room⟩
  intro h
  have hnil : unpack (frameOf p) = .ok [] := by
    rw [h]
    exact unpack_ofBlocks [.empty]
  rw [unpack_frameOf] at hnil
  cases hnil
  exact hp rfl

theorem WellPacked.exists_frameOf (h : WellPacked f) : ∃ p, p ≠ [] ∧ frameOf p = f := by
  obtain ⟨hne, bs, b, rfl, hb⟩ := h
  refine ⟨payload (bs ++ [b]), payload_ne_nil hne, ?_⟩
  rw [frameOf, if_neg (payload_ne_nil hne), blocksOf_payload bs hb]

end

/-- The frames of payloads that are not empty are the well-packed ones, and each of them unpacks to
a payload that packs to it again. -/
theorem packed_iff_wellPacked (f : Bytes) :
    ((∃ p, p ≠ [] ∧ f = pack p) ↔ WellPacked f) ∧
      ((∃ p, p ≠ [] ∧ unpack f = .ok p ∧ pack p = f) ↔ WellPacked f) := by
  have hpacked : (∃ p, p ≠ [] ∧ f = pack p) → WellPacked f := by
    rintro ⟨p, hp, rfl⟩
    rw [pack_eq]
    exact wellPacked_frameOf hp
  have hunpacked (h : WellPacked f) : ∃ p, p ≠ [] ∧ unpack f = .ok p ∧ pack p = f := by
    obtain ⟨p, hp, rfl⟩ := h.exists_frameOf
    exact ⟨p, hp, unpack_frameOf p, pack_eq p⟩
  refine ⟨⟨hpacked, fun h => ?_⟩, ⟨?_, hunpacked⟩⟩
  · obtain ⟨p, hp, -, hpack⟩ := hunpacked h
    exact ⟨p, hp, hpack.symm⟩
  · rintro ⟨p, hp, -, hpack⟩
    exact hpacked ⟨p, hp, hpack.symm⟩

end Bytewire.Frame
