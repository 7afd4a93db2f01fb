import Bytewire.Proofs.Frame.Grammar

/-! What unpacking accepts and what it returns, block by block. Two things are not as the blocks
have it: a code that reaches one byte too far takes the terminator into its run and is let through,
and a frame that ends with a full block comes back without its last byte. -/
namespace Bytewire.Frame

theorem payload_concat (bs : List Block) (b : Block) :
    payload (bs ++ [b]) = bs.flatMap Block.text ++ b.data := by
  induction bs with
  | nil => rfl
  | cons c bs ih =>
    cases bs with
    | nil =>
      rw [List.flatMap_singleton]
      rfl
    | cons d bs =>
      have hpayload : payload (c :: d :: bs ++ [b]) = c.text ++ payload (d :: bs ++ [b]) := rfl
      have htext : (c :: d :: bs).flatMap Block.text = c.text ++ (d :: bs).flatMap Block.text :=
        List.flatMap_cons
      rw [hpayload, ih, htext, List.append_assoc]

theorem unpackHere_ofBlocks (bs : List Block) :
    unpackHere (ofBlocks bs) =
      (.ok ((bs.flatMap Block.text).length - 1), patch (ofBlocks bs) 0 (bs.flatMap Block.text)) := by
  rw [unpackHere_of_closed (closed_ofBlocks bs), expand_ofBlocks]
  rfl

theorem unpack_ofBlocks (bs : List Block) :
    unpack (ofBlocks bs) = .ok (bs.flatMap Block.text).dropLast := by
  rw [unpack_of_closed (closed_ofBlocks bs), expand_ofBlocks]
  rfl

section
variable {f data : Bytes} {bs : List Block} {c : UInt8}

theorem unpack_overrun (hdata : terminator ∉ data) (h : c.toNat = data.length + 2) :
    unpack (bs.flatMap Block.bytes ++ c :: data ++ [terminator]) =
      .ok (bs.flatMap Block.text ++ data) := by
  have hc : terminator ≠ c := by
    rintro rfl
    exact absurd h (by simp [terminator])
  have hg : terminator ∉ bs.flatMap Block.bytes ++ c :: data := by
    rw [List.mem_append, List.mem_cons, not_or, not_or]
    exact ⟨terminator_notMem_blocks bs, hc, hdata⟩
  rw [unpack_of_closed (closed_append hg), List.append_assoc,
    expand_blocks bs (List.append_ne_nil_of_right_ne_nil _ (List.cons_ne_nil _ _)),
    expand_overrun h, ← List.append_assoc, List.dropLast_concat]
  rfl

theorem unpack_framed (h : Framed f) : ∃ p, unpack f = .ok p := by
  rcases h with rfl | ⟨bs, rfl⟩
  · exact ⟨[], rfl⟩
  · exact ⟨_, unpack_ofBlocks bs⟩

theorem unpack_overruns (h : Overruns f) : ∃ p, unpack f = .ok p := by
  obtain ⟨bs, c, data, rfl, hc, hdata⟩ := h
  exact ⟨_, unpack_overrun hdata hc⟩

theorem not_overruns_of_framed (h : Framed f) : ¬ Overruns f := by
  rintro ⟨cs, c, data, heq, hc, -⟩
  rcases h with rfl | ⟨bs, rfl⟩
  · exact absurd heq (by simp)
  · exact blocks_ne_cut (Nat.le_of_eq hc.symm) (List.append_cancel_right heq)

/-- A code that asks for two bytes or more beyond the terminator's place is refused, and so is a
string with a zero that is not at its end or with none there. -/
theorem unpack_otherwise (hf : ¬ Framed f) (ho : ¬ Overruns f) :
    unpack f = .error .truncatedFrame := by
  have hne : f ≠ [] := fun h => hf (.inl h)
  by_cases hclosed : Closed f
  · obtain ⟨g, rfl, hg⟩ := eq_append_of_closed hclosed
    rcases blocks_or_cut hg with ⟨bs, rfl⟩ | ⟨bs, c, data, rfl, hc⟩
    · exact absurd (.inr ⟨bs, rfl⟩) hf
    · have hdata : terminator ∉ data := fun h =>
        hg (List.mem_append_right _ (List.mem_cons_of_mem c h))
      have hlt : data.length + 2 < c.toNat :=
        Nat.lt_of_le_of_ne hc fun h => ho ⟨bs, c, data, rfl, h.symm, hdata⟩
      rw [unpack_of_closed hclosed, List.append_assoc,
        expand_blocks bs (List.append_ne_nil_of_right_ne_nil _ (List.cons_ne_nil _ _)),
        expand_cut hlt]
      rfl
  · exact unpack_of_not_closed hne hclosed

end

/-- Exactly the framed strings and those whose last code takes the terminator unpack, all others
are truncated; so the grammar is followed on a string if and only if its last code does not. -/
theorem unpack_accepts (f : Bytes) :
    ((∃ p, unpack f = .ok p) ↔ Framed f ∨ Overruns f) ∧
      (¬ (Framed f ∨ Overruns f) → unpack f = .error .truncatedFrame) ∧
      ((Framed f → ∃ p, unpack f = .ok p) ∧ (¬ Framed f → unpack f = .error .truncatedFrame) ↔
        ¬ Overruns f) := by
  have hother (h : ¬ (Framed f ∨ Overruns f)) : unpack f = .error .truncatedFrame := by
    rw [not_or] at h
    exact unpack_otherwise h.1 h.2
  refine ⟨⟨?_, fun h => h.elim unpack_framed unpack_overruns⟩, hother, ?_⟩
  · rintro ⟨p, hp⟩
    refine Classical.byContradiction fun h => ?_
    rw [hother h] at hp
    exact absurd hp (by simp)
  · refine ⟨fun h ho => ?_, fun ho => ⟨unpack_framed, fun hf => unpack_otherwise hf ho⟩⟩
    obtain ⟨p, hp⟩ := unpack_overruns ho
    have hfault := h.2 fun hf => not_overruns_of_framed hf ho
    rw [hfault] at hp
    exact absurd hp (by simp)

theorem unpack_two_zero : unpack [2, 0] = .ok [] ∧ ¬ Framed [2, 0] := by
  have ho : Overruns [2, 0] := ⟨[], 2, [], rfl, rfl, List.not_mem_nil⟩
  have hunpack : unpack (([] : List Block).flatMap Block.bytes ++ 2 :: [] ++ [terminator]) =
      .ok (([] : List Block).flatMap Block.text ++ []) := unpack_overrun List.not_mem_nil rfl
  exact ⟨hunpack, fun hf => not_overruns_of_framed hf ho⟩

/-- A frame of one block or more gives what its blocks stand for, but for the last byte of a full
block at the end. -/
theorem unpack_ofBlocks_concat (bs : List Block) (b : Block) :
    unpack (ofBlocks (bs ++ [b])) =
        .ok (if b.Full then (payload (bs ++ [b])).dropLast else payload (bs ++ [b])) ∧
      (unpack (ofBlocks (bs ++ [b])) = .ok (payload (bs ++ [b])) ↔ ¬ b.Full) := by
  have htext : (bs ++ [b]).flatMap Block.text = bs.flatMap Block.text ++ b.text := by
    rw [List.flatMap_append, List.flatMap_singleton]
  rw [unpack_ofBlocks, htext, payload_concat, Block.text]
  by_cases hb : b.Full
  · have hpos : b.data ≠ [] := by
      intro h
      rw [Block.Full, h] at hb
      exact absurd hb (by decide)
    rw [if_pos hb, if_pos hb]
    refine ⟨rfl, fun h => ?_, fun h => absurd hb h⟩
    have hlen := congrArg List.length (Except.ok.inj h)
    have hlong := List.length_pos_iff.2 hpos
    rw [List.length_dropLast, List.length_append] at hlen
    omega
  · rw [if_neg hb, if_neg hb, ← List.append_assoc, List.dropLast_concat]
    exact ⟨rfl, fun _ => hb, fun _ => rfl⟩

def Block.ones : Block where
  data := List.replicate maxRun 1
  length_le := Nat.le_of_eq List.length_replicate
  nonzero := by
    intro x hx
    rw [List.eq_of_mem_replicate hx]
    decide

theorem unpack_ones :
    unpack (ofBlocks [Block.ones]) = .ok (List.replicate 253 1) ∧
      payload [Block.ones] = List.replicate 254 1 := by
  have hfull : Block.ones.Full := List.length_replicate
  have htext : [Block.ones].flatMap Block.text = List.replicate maxRun 1 := by
    rw [List.flatMap_singleton, Block.text, if_pos hfull]
    rfl
  rw [unpack_ofBlocks, htext, List.dropLast_replicate]
  exact ⟨rfl, rfl⟩

end Bytewire.Frame
