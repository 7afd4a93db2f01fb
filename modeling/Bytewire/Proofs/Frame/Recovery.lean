import Bytewire.Proofs.Frame.Delivery
import Mathlib.Data.List.Induction

/-! What a receiver makes of a stream that begins with damage. Every string is cut in one way into
frames and a part without an end, and a zero ends the damage whatever it is, so the frames behind
that zero come out as if there had been none. -/
namespace Bytewire.Frame

namespace Cut
variable {s t rest more : Bytes} {fs gs : List Bytes}

theorem append (h : Cut s fs []) (ht : Cut t gs rest) : Cut (s ++ t) (fs ++ gs) rest where
  bytes := by rw [h.bytes, ht.bytes, List.append_nil, List.flatten_append, List.append_assoc]
  closed := by
    intro f hf
    rcases List.mem_append.1 hf with hf | hf
    · exact h.closed f hf
    · exact ht.closed f hf
  waiting := ht.waiting

/-- A zero behind the last part makes a frame of it. -/
theorem finish (h : Cut s fs rest) :
    Cut (s ++ [terminator]) (fs ++ [rest ++ [terminator]]) [] where
  bytes := by simp [h.bytes]
  closed := by
    intro f hf
    rcases List.mem_append.1 hf with hf | hf
    · exact h.closed f hf
    · rw [List.mem_singleton.1 hf]
      exact closed_append h.waiting
  waiting := List.not_mem_nil

theorem unique (h : Cut s fs rest) (h' : Cut s gs more) : fs = gs ∧ rest = more := by
  induction fs generalizing s gs with
  | nil =>
    cases gs with
    | nil => exact ⟨rfl, h.bytes.symm.trans h'.bytes⟩
    | cons g gs =>
      obtain ⟨t, hfirst, -⟩ := h'.first?_cons
      rw [h.first?_nil] at hfirst
      cases hfirst
  | cons f fs ih =>
    obtain ⟨t, hfirst, ht⟩ := h.first?_cons
    cases gs with
    | nil =>
      rw [h'.first?_nil] at hfirst
      cases hfirst
    | cons g gs =>
      obtain ⟨u, hfirst', hu⟩ := h'.first?_cons
      rw [hfirst] at hfirst'
      cases hfirst'
      obtain ⟨rfl, rfl⟩ := ih ht hu
      exact ⟨rfl, rfl⟩

end Cut

/-- As many frames as there are zeros. -/
theorem exists_cut (s : Bytes) : ∃ fs rest, Cut s fs rest ∧ fs.length = s.count terminator := by
  -- From the end, so that each zero completes what stands before it.
  induction s using List.reverseRecOn with
  | nil => exact ⟨[], [], ⟨rfl, by simp, List.not_mem_nil⟩, rfl⟩
  | append_singleton s x ih =>
    obtain ⟨fs, rest, h, hlen⟩ := ih
    by_cases hx : x = terminator
    · subst hx
      exact ⟨_, _, h.finish, by simp [hlen]⟩
    · refine ⟨fs, rest ++ [x], ⟨by rw [h.bytes, List.append_assoc], h.closed, ?_⟩, ?_⟩
      · simpa [h.waiting] using Ne.symm hx
      · simpa [List.count_singleton, hx] using hlen

namespace Receiver
variable {op : Op} {ops : List Op} {s f : Bytes}

theorem step_unpacked? (op : Op) (s : Bytes) :
    (step op s).1.unpacked? = (op.taken? s).map unpack := by
  cases op with
  | push b => rfl
  | pushPacked p => rfl
  | take | unpack => cases hfirst : first? s <;> simp [step, hfirst, Outcome.unpacked?, Op.taken?]

theorem unpackings_run (ops : List Op) (s : Bytes) :
    unpackings (run ops s) = (takings ops s).map unpack := by
  induction ops generalizing s with
  | nil => rfl
  | cons op ops ih =>
    have hrest := ih (step op s).2
    rw [unpackings] at hrest
    rw [run, unpackings, List.filterMap_cons, step_unpacked?, hrest, takings, List.map_append]
    cases op.taken? s <;> rfl

theorem closed_of_taken? (h : f ∈ op.taken? s) : Closed f := by
  cases op with
  | push b => cases h
  | pushPacked p => cases h
  | take | unpack =>
    obtain ⟨x, hx, rfl⟩ := Option.map_eq_some_iff.1 h
    exact (append_of_first? hx).1

theorem closed_of_mem_takings (h : f ∈ takings ops s) : Closed f := by
  induction ops generalizing s with
  | nil => cases h
  | cons op ops ih =>
    rcases List.mem_append.1 h with h | h
    · exact closed_of_taken? (Option.mem_toList.1 h)
    · exact ih h

/-- Behind any bytes and one zero, frames arrive in any pieces and are taken at any time, unpacked
at once or not, and when all is pushed until there is nothing to take. Then the first frames taken,
one more than the bytes have zeros, are exactly the bytes and the zero; the others are those of the
payloads that are not empty, and every one of them unpacks. -/
theorem run_recovers (g : Bytes) (ps : List Bytes) (ops : List Op)
    (h : pushed ops = g ++ [terminator] ++ ps.flatMap pack) :
    ∃ damaged fs : List Bytes,
      let steps := run ops []
      let last := run (.replicate (fs.length + 1) .take) (held [] steps)
      last.map Prod.fst = fs.map (fun f => .frame (some f)) ++ [.frame none] ∧
      held (held [] steps) last = [] ∧
      damaged.length = g.count terminator + 1 ∧ damaged.flatten = g ++ [terminator] ∧
      takings ops [] ++ fs = damaged ++ (ps.filter (· ≠ [])).map pack ∧
      unpackings steps ++ fs.map unpack =
        damaged.map unpack ++ (ps.filter (· ≠ [])).map .ok := by
  obtain ⟨gs, t, hg, hlen⟩ := exists_cut g
  obtain ⟨fs, rest, hheld, -⟩ := exists_cut (held [] (run ops []))
  have htaken : Cut (takings ops []).flatten (takings ops []) [] :=
    ⟨(List.append_nil _).symm, fun f hf => closed_of_mem_takings hf, List.not_mem_nil⟩
  have hsent : Cut (ps.flatMap pack) ((ps.filter (· ≠ [])).map pack) [] := by
    rw [← flatMap_pack_filter]
    exact cut_flatMap_pack (by simp)
  have hall := htaken.append hheld
  rw [takings_conserve, List.nil_append, h] at hall
  obtain ⟨hframes, rfl⟩ := hall.unique (hg.finish.append hsent)
  obtain ⟨houtcomes, hempty⟩ := run_takes hheld
  refine ⟨gs ++ [t ++ [terminator]], fs, houtcomes, hempty, ?_, ?_, hframes, ?_⟩
  · rw [List.length_append, List.length_singleton, hlen]
  · rw [hg.finish.bytes, List.append_nil]
  · rw [unpackings_run, ← List.map_append, hframes, List.map_append, map_unpack_pack]

def damagedPieces : List Op :=
  [.push [5, 9], .take, .push [0, 7, 0, 2, 1], .unpack, .push [1, 0], .take, .unpack,
    .push [2, 7, 0]]

/-- A frame cut short and a stray byte in front of two frames. -/
theorem run_recovers_damagedPieces :
    pushed damagedPieces = [5, 9, 0, 7] ++ [terminator] ++ [[1, 0], [], [7]].flatMap pack ∧
      ∃ damaged fs : List Bytes, damaged.length = 2 ∧
        damaged.flatten = [5, 9, 0, 7, 0] ∧
        unpackings (run damagedPieces []) ++ fs.map unpack =
          damaged.map unpack ++ [.ok [1, 0], .ok [7]] := by
  have hpushed : pushed damagedPieces =
      [5, 9, 0, 7] ++ [terminator] ++ [[1, 0], [], [7]].flatMap pack := by decide
  obtain ⟨damaged, fs, -, -, hlen, hflat, -, hpayloads⟩ := run_recovers _ _ _ hpushed
  exact ⟨hpushed, damaged, fs, hlen, hflat, hpayloads⟩

end Receiver
end Bytewire.Frame
