import Bytewire.Frame.Receiver
import Bytewire.Proofs.Frame.RoundTrip

/-! Frames that are cut short or run on. The only zero of a frame is its last byte, so no frame
begins another, and what is refused for its zeros is refused before anything moves. -/
namespace Bytewire.Frame

section
variable {f g : Bytes}

theorem refused_of_not_closed (hf : f ≠ []) (h : ¬ Closed f) : Refused f where
  unpack := unpack_of_not_closed hf h
  here := unpackHere_of_not_closed hf h
  into := by
    intro out hout
    rw [unpackInto, if_neg (by omega), unpackHere_of_not_closed hf h]

theorem Closed.eq_of_isPrefix (hf : Closed f) (hg : Closed g) (h : f <+: g) : f = g := by
  obtain ⟨rest, rfl⟩ := h
  have hsplit := first?_append hg []
  rw [List.append_nil, first?_append hf, Option.some.injEq, Prod.mk.injEq] at hsplit
  exact hsplit.1

/-- Less of a frame than all of it, but for nothing at all, is refused. -/
theorem Closed.refused_take (hf : Closed f) {k : Nat} (hk : 0 < k) (hlt : k < f.length) :
    Refused (f.take k) := by
  have hlen : (f.take k).length = k := by simp [Nat.le_of_lt hlt]
  refine refused_of_not_closed ?_ ?_
  · rw [← List.length_pos_iff, hlen]
    exact hk
  · intro hclosed
    rw [hclosed.eq_of_isPrefix hf (List.take_prefix k f)] at hlen
    omega

/-- A frame and anything behind it are refused together. -/
theorem Closed.refused_append (hf : Closed f) {s : Bytes} (hs : s ≠ []) : Refused (f ++ s) := by
  refine refused_of_not_closed (List.append_ne_nil_of_right_ne_nil f hs) ?_
  intro hclosed
  have heq := hf.eq_of_isPrefix hclosed (List.prefix_append f s)
  exact hs (List.self_eq_append_right.1 heq)

end

/-- No beginning of a frame unpacks, however it is unpacked, and no frame does with more behind it;
both are left as they are. -/
theorem pack_neither_cut_nor_extended {p : Bytes} (hp : p ≠ []) :
    (∀ k, 0 < k → k < (pack p).length → Refused ((pack p).take k)) ∧
      ∀ s, s ≠ [] → Refused (pack p ++ s) := by
  refine ⟨fun k hk hlt => ?_, fun s hs => ?_⟩
  · exact (closed_pack hp).refused_take hk hlt
  · exact (closed_pack hp).refused_append hs

/-- A cut inside the second block, and a second terminator. -/
theorem pack_neither_cut_nor_extended_marks :
    [17, 0, 34] ≠ ([] : Bytes) ∧ pack [17, 0, 34] = [2, 17, 2, 34, 0] ∧
      Refused [2, 17, 2] ∧ Refused [2, 17, 2, 34, 0, 0] := by
  have hpack : pack [17, 0, 34] = [2, 17, 2, 34, 0] := by decide
  obtain ⟨hcut, hextended⟩ := pack_neither_cut_nor_extended (p := [17, 0, 34]) (by decide)
  have hshort := hcut 3 (by decide) (by decide)
  have hlong := hextended [0] (by decide)
  rw [hpack] at hshort hlong
  exact ⟨by decide, hpack, hshort, hlong⟩

end Bytewire.Frame
