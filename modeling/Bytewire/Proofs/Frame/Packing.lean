import Bytewire.Bytes.Patch
import Bytewire.Frame.Filling

/-! Packing fills in blocks one pass long and comes back for their codes; what it leaves at the
front of the buffer is the frame of the payload's blocks, and nothing behind the frame changes. -/
namespace Bytewire.Frame
open Buffer

/-- What the buffer holds while a block is open: complete blocks, a byte that waits for its code,
the bytes of the open block, and from the next place on what was there from the beginning. -/
structure Holds (out : Bytes) (cs : List Block) (b : Block) (o : Open) (buffer : Bytes) : Prop where
  slot : o.slot = (cs.flatMap Block.bytes).length
  next : o.next = o.slot + 1 + b.data.length
  code : o.code = b.data.length + 1
  bytes : ∃ z, buffer = cs.flatMap Block.bytes ++ z :: b.data ++ out.drop o.next

namespace Holds
variable {out buffer : Bytes} {cs : List Block} {b : Block} {o : Open}

theorem first (h : out ≠ []) : Holds out [] .empty .first out := by
  obtain ⟨z, zs, rfl⟩ := List.exists_cons_of_ne_nil h
  exact ⟨rfl, rfl, rfl, z, rfl⟩

theorem put_code (h : Holds out cs b o buffer) :
    put o.slot o.code buffer =
      (.ok (), (cs ++ [b]).flatMap Block.bytes ++ out.drop o.next) := by
  obtain ⟨z, hz⟩ := h.bytes
  have hle := b.length_le
  have hcode : o.code < 256 := by
    rw [h.code]
    rw [maxRun] at hle
    omega
  rw [List.append_assoc, List.cons_append] at hz
  have hslot : o.slot < buffer.length := by
    rw [hz, h.slot, List.length_append, List.length_cons]
    omega
  rw [put_eq hcode hslot, hz, h.slot, patch_append_cons, h.code, List.flatMap_append,
    List.flatMap_singleton, List.append_assoc]
  rfl

theorem length_blocks (h : Holds out cs b o buffer) :
    ((cs ++ [b]).flatMap Block.bytes).length = o.next := by
  rw [h.next, h.slot, List.flatMap_append, List.flatMap_singleton, List.length_append,
    Block.bytes, List.length_cons]
  omega

theorem close (h : Holds out cs b o buffer) (hroom : o.next < out.length) :
    ∃ q new, o.close buffer = (.ok q, new) ∧ Holds out (cs ++ [b]) .empty q new := by
  refine ⟨⟨o.next, o.next + 1, 1⟩, (cs ++ [b]).flatMap Block.bytes ++ out.drop o.next, ?_,
    ⟨h.length_blocks.symm, rfl, rfl, out[o.next], ?_⟩⟩
  · rw [Open.close, Attempt.bind_ok h.put_code]
    rfl
  · rw [List.drop_eq_getElem_cons hroom, List.append_assoc]
    rfl

theorem grow (h : Holds out cs b o buffer) {x : UInt8} (hx : x ≠ terminator) (hb : ¬ b.Full)
    (hroom : o.next < out.length) :
    ∃ new, write o.next [x] buffer = (.ok (), new) ∧
      Holds out cs (b.grow x hx hb) ⟨o.slot, o.next + 1, o.code + 1⟩ new := by
  obtain ⟨z, hz⟩ := h.bytes
  have hnext : (cs.flatMap Block.bytes ++ z :: b.data).length = o.next := by
    rw [h.next, h.slot, List.length_append, List.length_cons]
    omega
  have hfit : o.next + [x].length ≤ buffer.length := by
    rw [hz, List.length_append, hnext, List.length_drop, List.length_singleton]
    omega
  refine ⟨patch buffer o.next [x], write_eq hfit, h.slot, ?_, ?_, z, ?_⟩
  · rw [Block.data_grow, List.length_append, List.length_singleton, h.next, Nat.add_assoc]
  · rw [Block.data_grow, List.length_append, List.length_singleton, h.code]
  · rw [hz, patch_append_drop hnext hroom, Block.data_grow]
    simp only [List.append_assoc, List.cons_append, List.nil_append]

theorem finish (h : Holds out cs b o buffer) (hroom : o.next < out.length) :
    (do put o.slot o.code; write o.next [terminator]; return o.next + 1 : Attempt Bytes Nat)
      buffer = (.ok (ofBlocks (cs ++ [b])).length,
        ofBlocks (cs ++ [b]) ++ out.drop (ofBlocks (cs ++ [b])).length) := by
  have hlength : (ofBlocks (cs ++ [b])).length = o.next + 1 := by
    rw [ofBlocks, List.length_append, h.length_blocks, List.length_singleton]
  have hwrite : write o.next [terminator] ((cs ++ [b]).flatMap Block.bytes ++ out.drop o.next) =
      (.ok (), ofBlocks (cs ++ [b]) ++ out.drop (o.next + 1)) := by
    have hfit : o.next + [terminator].length ≤
        ((cs ++ [b]).flatMap Block.bytes ++ out.drop o.next).length := by
      rw [List.length_append, h.length_blocks, List.length_drop, List.length_singleton]
      omega
    rw [write_eq hfit, patch_append_drop h.length_blocks hroom, ofBlocks, List.append_assoc,
      List.singleton_append]
  rw [Attempt.bind_ok h.put_code, Attempt.bind_ok hwrite, Attempt.pure_run, hlength]

theorem next_eq_extent {s : Filling} (h : Holds out s.closed s.current o buffer) :
    o.next = s.extent := by
  rw [h.next, h.slot, Filling.extent]

theorem code_eq_fullCode_iff (h : Holds out cs b o buffer) : o.code = fullCode ↔ b.Full := by
  rw [h.code, Block.Full, maxRun, fullCode]
  omega

/-- A block with one more byte in it is completed if it is full. -/
theorem place (h : Holds out cs b o buffer) (hroom : (Filling.place cs b).extent < out.length) :
    ∃ q new, (if o.code = fullCode then o.close else pure o) buffer = (.ok q, new) ∧
      Holds out (Filling.place cs b).closed (Filling.place cs b).current q new := by
  by_cases hfull : b.Full
  · rw [Filling.place, dif_pos hfull] at hroom ⊢
    have hnext : o.next < out.length := by
      rw [Filling.extent_close] at hroom
      rw [h.next, h.slot]
      omega
    obtain ⟨q, new, hclose, hq⟩ := h.close hnext
    exact ⟨q, new, by rw [if_pos (h.code_eq_fullCode_iff.2 hfull), hclose], hq⟩
  · have hcode : ¬ o.code = fullCode := fun hc => hfull (h.code_eq_fullCode_iff.1 hc)
    rw [Filling.place, dif_neg hfull]
    exact ⟨o, buffer, by rw [if_neg hcode]; rfl, h⟩

theorem push {s : Filling} (h : Holds out s.closed s.current o buffer) (x : UInt8)
    (hroom : (s.push x).extent < out.length) :
    ∃ q new, o.push x buffer = (.ok q, new) ∧
      Holds out (s.push x).closed (s.push x).current q new := by
  have hnext : o.next < out.length := by
    have hlt := s.extent_lt_push x
    rw [h.next_eq_extent]
    omega
  by_cases hx : x = terminator
  · obtain ⟨q, new, hclose, hq⟩ := h.close hnext
    refine ⟨q, new, ?_, ?_⟩
    · rw [Open.push, if_pos hx, hclose]
    · rw [Filling.push, dif_pos hx]
      exact hq
  · obtain ⟨mid, hwrite, hmid⟩ := h.grow hx s.room hnext
    rw [Filling.push, dif_neg hx] at hroom ⊢
    obtain ⟨q, new, hplace, hq⟩ := hmid.place hroom
    refine ⟨q, new, ?_, hq⟩
    rw [Open.push, if_neg hx, Attempt.bind_ok hwrite]
    exact hplace

theorem pushAll {s : Filling} (h : Holds out s.closed s.current o buffer) (xs : Bytes)
    (hroom : (s.pushAll xs).extent < out.length) :
    ∃ q new, o.pushAll xs buffer = (.ok q, new) ∧
      Holds out (s.pushAll xs).closed (s.pushAll xs).current q new := by
  induction xs generalizing s o buffer with
  | nil => exact ⟨o, buffer, rfl, h⟩
  | cons x xs ih =>
    have hle := (s.push x).extent_le_pushAll xs
    rw [Filling.pushAll] at hroom
    obtain ⟨q, mid, hpush, hq⟩ := h.push x (by omega)
    obtain ⟨r, new, hall, hr⟩ := ih hq hroom
    refine ⟨r, new, ?_, hr⟩
    rw [Open.pushAll, Attempt.bind_ok hpush, hall]

end Holds

/-- Each block has a code, and each block that is not full a zero that is not stored. -/
theorem length_blocks (bs : List Block) :
    (bs.flatMap Block.bytes).length =
      (bs.flatMap Block.text).length + bs.countP (fun b => b.Full) := by
  induction bs with
  | nil => rfl
  | cons b bs ih =>
    rw [List.flatMap_cons, List.flatMap_cons, List.length_append, List.length_append, ih,
      List.countP_cons, Block.bytes, List.length_cons, Block.text]
    by_cases hb : b.Full
    · simp only [hb, if_true, decide_true]
      omega
    · simp only [hb, if_false, decide_false, Bool.false_eq_true, List.length_append,
        List.length_singleton]
      omega

theorem maxRun_mul_countP_le (bs : List Block) :
    maxRun * bs.countP (fun b => b.Full) ≤ (bs.flatMap Block.text).length := by
  induction bs with
  | nil => exact Nat.le_refl 0
  | cons b bs ih =>
    rw [List.flatMap_cons, List.length_append, List.countP_cons, Nat.mul_add, Block.text]
    by_cases hb : b.Full
    · have hlen : b.data.length = maxRun := hb
      simp only [hb, if_true, decide_true]
      omega
    · simp only [hb, if_false, decide_false, Bool.false_eq_true]
      omega

/-- The capacity for a payload is room for its blocks and the terminator. -/
theorem Filling.extent_lt_capacity (s : Filling) : s.extent < capacity s.text.length := by
  have hcodes := length_blocks s.closed
  have hfull := maxRun_mul_countP_le s.closed
  rw [extent, capacity, text, List.length_append, hcodes]
  rw [maxRun] at hfull
  omega

theorem Filling.one_lt_extent_pushAll {p : Bytes} (hp : p ≠ []) :
    1 < (first.pushAll p).extent := by
  obtain ⟨x, xs, rfl⟩ := List.exists_cons_of_ne_nil hp
  have hlt : first.extent < (first.push x).extent := extent_lt_push first x
  exact Nat.lt_of_lt_of_le hlt (extent_le_pushAll _ xs)

theorem Filling.extent_pushAll_lt_capacity (p : Bytes) :
    (first.pushAll p).extent < capacity p.length := by
  have htext : (first.pushAll p).text = p := text_pushAll first p
  have hlt := (first.pushAll p).extent_lt_capacity
  rwa [htext] at hlt

theorem Holds.of_capacity_le {p out : Bytes} (h : capacity p.length ≤ out.length) :
    ∃ o b, Open.first.pushAll p out = (.ok o, b) ∧
      Holds out (Filling.first.pushAll p).closed (Filling.first.pushAll p).current o b := by
  have hout : out ≠ [] := by
    rintro rfl
    rw [capacity, List.length_nil] at h
    omega
  have hroom := Filling.extent_pushAll_lt_capacity p
  exact (Holds.first hout).pushAll (s := Filling.first) p (by omega)

/-- Packing puts the frame over the front of the buffer and changes nothing behind it. -/
theorem packFront_eq {p out : Bytes} (h : capacity p.length ≤ out.length) :
    packFront p out = (.ok (frameOf p).length, frameOf p ++ out.drop (frameOf p).length) := by
  obtain ⟨o, b, hpush, ho⟩ := Holds.of_capacity_le h
  have hnext := ho.next_eq_extent
  rw [packFront, Attempt.bind_ok hpush, frameOf]
  by_cases hp : p = []
  · subst hp
    cases hpush
    rfl
  · have hlt := Filling.one_lt_extent_pushAll hp
    have hroom := Filling.extent_pushAll_lt_capacity p
    have hne : o.next ≠ 1 := by omega
    rw [if_neg hne, if_neg hp]
    exact ho.finish (by omega)

theorem pack_eq (p : Bytes) : pack p = frameOf p := by
  have h := packFront_eq (p := p) (Nat.le_of_eq (List.length_replicate (a := 0)).symm)
  rw [pack, h]
  exact List.take_left

example : pack [17, 34, 0, 51] = [3, 17, 34, 2, 51, 0] := by decide

end Bytewire.Frame
