import Bytewire.Proofs.Read.Forward
import Bytewire.Value.Coding

/-! A local program does with an input what the bytes it uses up make it do: it does the same
whatever follows them, and on fewer bytes it ends for want of input, before any other fault. -/
namespace Bytewire

mutual
theorem Schema.local_read : (s : Schema) → s.read.Local
  | .primitive k => ⟨Read.local_primitive k, fun _ => trivial⟩
  | .tuple parts => ⟨Schema.local_readAll parts, fun _ => trivial⟩
  | .sequence item => ⟨(Schema.local_read item).sequence, fun _ => trivial⟩
  | .listed items => by
    refine ⟨trivial, ?_⟩
    intro n
    dsimp only
    split
    · exact ⟨Schema.local_readAll items, fun _ => trivial⟩
    · trivial
  | .map key value =>
    ⟨(Schema.local_read key).map (Schema.local_read value), fun _ => trivial⟩
theorem Schema.local_readAll : (ss : List Schema) → (Schema.readAll ss).Local
  | [] => trivial
  | s :: ss => ⟨Schema.local_read s, fun _ => ⟨Schema.local_readAll ss, fun _ => trivial⟩⟩
end

namespace Read
variable {α : Type}

/-- The rules of a source matter to a local program, its input as a whole does not. -/
theorem Program.Local.run_congr {p : Program α} (h : p.Local) (l : Layout) (lim : Limits)
    (i j : Bytes) : p.run ⟨l, lim, i⟩ = p.run ⟨l, lim, j⟩ := by
  induction p with
  | done a => rfl
  | ask q =>
    cases q with
    | input => exact h.elim
    | _ => rfl
  | fail e => rfl
  | andThen p k ihp ihk =>
    have hk : (fun a => (k a).run ⟨l, lim, i⟩) = fun a => (k a).run ⟨l, lim, j⟩ :=
      funext fun a => ihk a (h.2 a)
    change p.run ⟨l, lim, i⟩ >>= (fun a => (k a).run ⟨l, lim, i⟩) = _
    rw [ihp h.1, hk]
    rfl
  | container p ih => exact congrArg Session.container (ih h)
  | capture p ih => exact congrArg Session.capture (ih h)

/-- What a local program makes of an input. If it succeeds, it does so on every input with the same
bytes where it read, with the same result and to the same offset, and it runs out of input on every
proper beginning of those bytes. If it fails otherwise than by running out, it fails so with more
bytes behind. -/
theorem run_prefix_law (l : Layout) (lim : Limits) (p : Program α) (hp : p.Local) (i : Bytes) :
    (∀ a s, p.run ⟨l, lim, i⟩ (.start lim i) = (.ok a, s) →
      (∀ j, i.take (offset ⟨l, lim, i⟩ s) <+: j → ∃ t,
        p.run ⟨l, lim, j⟩ (.start lim j) = (.ok a, t) ∧
          offset ⟨l, lim, j⟩ t = offset ⟨l, lim, i⟩ s) ∧
      ∀ j, j <+: i → j.length < offset ⟨l, lim, i⟩ s → ∃ t,
        p.run ⟨l, lim, j⟩ (.start lim j) = (.error .endOfInput, t)) ∧
    (∀ e s, p.run ⟨l, lim, i⟩ (.start lim i) = (.error e, s) → e ≠ .endOfInput →
      ∀ more, ∃ t, p.run ⟨l, lim, i ++ more⟩ (.start lim (i ++ more)) = (.error e, t) ∧
        offset ⟨l, lim, i ++ more⟩ t = offset ⟨l, lim, i⟩ s) := by
  constructor
  · intro a ⟨m, c⟩ h
    obtain ⟨d, rfl, hd⟩ := hp.forward.ok h
    rw [offset_append rfl m, List.take_left]
    constructor
    · rintro j ⟨t, rfl⟩
      refine ⟨⟨m, t⟩, ?_, offset_append rfl m⟩
      rw [hp.run_congr l lim (d ++ t) (d ++ c)]
      exact hd t
    · intro j hj hlt
      rw [hp.run_congr l lim j (d ++ c)]
      exact hp.forward.runs_out h hj hlt
  · intro e ⟨m, c⟩ h he more
    refine ⟨⟨m, c ++ more⟩, ?_, ?_⟩
    · rw [hp.run_congr l lim (i ++ more) i]
      exact hp.forward.error h he more
    · simp only [offset, List.length_append]
      omega

def marks : Program (List (Bytes × UInt32 × Word .w8)) :=
  .map (.ask .bytes) (.choice fun i => if i = 0 then pure 0 else .ask (.uint .w8))

/-- Read whole, cut short in the second key, and with the keys in the wrong order. -/
theorem run_prefix_law_marks :
    marks.Local ∧
      marks.outcome ⟨⟨.compact, true⟩, {}, [2, 1, 97, 0, 1, 98, 1, 6]⟩ =
        .ok [([97], 0, 0), ([98], 1, 6)] ∧
      (∃ t, marks.run ⟨⟨.compact, true⟩, {}, [2, 1, 97, 0, 1]⟩ (.start {} [2, 1, 97, 0, 1]) =
        (.error .endOfInput, t)) ∧
      marks.outcome ⟨⟨.compact, true⟩, {}, [2, 1, 98, 0, 1, 97]⟩ = .error .keysNotIncreasing ∧
      ∀ more, ∃ t, marks.run ⟨⟨.compact, true⟩, {}, [2, 1, 98, 0, 1, 97] ++ more⟩
        (.start {} ([2, 1, 98, 0, 1, 97] ++ more)) = (.error .keysNotIncreasing, t) := by
  have hp : marks.Local := by
    refine .map trivial (.choice ?_)
    intro i
    split
    · trivial
    · trivial
  have hok : marks.run ⟨⟨.compact, true⟩, {}, [2, 1, 97, 0, 1, 98, 1, 6]⟩
      (.start {} [2, 1, 97, 0, 1, 98, 1, 6]) =
      (.ok [([97], 0, 0), ([98], 1, 6)], .start {} []) := by rfl
  have herror : marks.run ⟨⟨.compact, true⟩, {}, [2, 1, 98, 0, 1, 97]⟩
      (.start {} [2, 1, 98, 0, 1, 97]) = (.error .keysNotIncreasing, .start {} []) := by rfl
  have hcut : [2, 1, 97, 0, 1] <+: ([2, 1, 97, 0, 1, 98, 1, 6] : Bytes) := by decide
  refine ⟨hp, congrArg Prod.fst hok, ?_, congrArg Prod.fst herror, ?_⟩
  · exact ((run_prefix_law ⟨.compact, true⟩ {} marks hp _).1 _ _ hok).2 _ hcut (by decide)
  · intro more
    obtain ⟨t, ht, -⟩ :=
      (run_prefix_law ⟨.compact, true⟩ {} marks hp _).2 _ _ herror (by decide) more
    exact ⟨t, ht⟩

end Read
end Bytewire
