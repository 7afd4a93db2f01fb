import Bytewire.Check
import Bytewire.Proofs.Budget.Accounting
import Bytewire.Proofs.Frame.Buffers
import Bytewire.Proofs.Frame.Delivery
import Bytewire.Proofs.Frame.Refusal
import Bytewire.Proofs.Read.Cursor
import Bytewire.Proofs.Value.Uniqueness

/-! The tests on one input come out true on all inputs; those of primitive values do where no text and
no bytes are longer than a reader accepts. -/
namespace Bytewire.Check
open Session

theorem gives_ok {α : Type} [DecidableEq α] (a : α) : gives (.ok a) a = true := decide_eq_true rfl

theorem faults_error {α : Type} (e : Fault) : faults (.error e : Except Fault α) e = true :=
  decide_eq_true rfl

section
open Bytewire.Frame
variable {p f : Bytes} {ps : List Bytes}

theorem unpacking_holds (f : Bytes) : unpacking f = true := by
  rw [unpacking]
  cases h : unpack f with
  | error e => rfl
  | ok p => exact decide_eq_true (length_unpack_le h)

theorem delivers_flatMap_pack (h : ∀ p ∈ ps, p ≠ []) : delivers ps (ps.flatMap pack) = true := by
  induction ps with
  | nil => rfl
  | cons p ps ih =>
    rw [List.forall_mem_cons] at h
    rw [delivers, List.flatMap_cons, first?_append (closed_pack h.1)]
    simp only [unpack_of_pack, gives_ok, Bool.true_and]
    exact ih h.2

theorem stream_holds (ps : List Bytes) : stream ps = true := by
  have hfilter : (ps.filter fun p => !p.isEmpty) = ps.filter (· ≠ []) := by
    refine List.filter_congr ?_
    intro p _
    cases p <;> rfl
  rw [stream, hfilter, ← flatMap_pack_filter]
  exact delivers_flatMap_pack (by simp)

theorem frame_holds (p : Bytes) (cut : Nat) : frame p cut = true := by
  have hle : (pack p).length ≤ capacity p.length := length_pack_le_capacity p
  by_cases hp : p = []
  · subst hp
    simp [frame, pack_nil]
  · have hclosed := closed_pack hp
    obtain ⟨b, hhere, hfront⟩ := exists_unpackHere (unpack_of_pack p)
    -- neither nothing nor all of the frame is cut off
    have hrange : cut % ((pack p).length - 1) < (pack p).length - 1 := by
      have hlength := length_pack hp
      exact Nat.mod_lt _ (by omega)
    have hcut : unpack ((pack p).take ((pack p).length - (cut % ((pack p).length - 1) + 1))) =
        .error .truncatedFrame := (hclosed.refused_take (by omega) (by omega)).unpack
    simp [frame, hle, hp, hclosed.count_terminator, hclosed.1, unpack_of_pack, hhere, hfront, hcut,
      gives_ok, faults_error]

end

section
variable {ps : List Primitive} {j : Bytes}

theorem encodePrimitives_eq (l : Layout) (h : ∀ p ∈ ps, p.counted ≤ maxLength) :
    Write.encodePrimitives l ps = .ok (ps.flatMap (Primitive.image l)) := by
  have hcompact (p : Primitive) (hp : p ∈ ps) : p.counted ≤ Layout.maxCompactLength :=
    Nat.le_trans (h p hp) (by decide)
  rw [Write.encodePrimitives, start, Write.primitives_eq hcompact]
  rfl

theorem run_primitives_image (l : Layout) (h : ∀ p ∈ ps, p.counted ≤ maxLength) :
    (Read.primitives (ps.map Primitive.kind)).run ⟨l, {}, ps.flatMap (Primitive.image l)⟩
      (.start {} (ps.flatMap (Primitive.image l) ++ [])) = (.ok ps, .start {} []) :=
  Read.primitives_image h h []

theorem decodePrimitives_image (l : Layout) (h : ∀ p ∈ ps, p.counted ≤ maxLength) :
    Read.decodePrimitives l (ps.map Primitive.kind) (ps.flatMap (Primitive.image l)) = .ok ps := by
  have hread := run_primitives_image l h
  rw [List.append_nil] at hread
  exact Read.whole_eq_ok_iff.2 ⟨_, hread⟩

theorem decodePrimitives_prefix (l : Layout) (h : ∀ p ∈ ps, p.counted ≤ maxLength)
    (hj : j <+: ps.flatMap (Primitive.image l))
    (hlt : j.length < (ps.flatMap (Primitive.image l)).length) :
    Read.decodePrimitives l (ps.map Primitive.kind) j = .error .endOfInput := by
  have hlocal := Read.local_primitives (ps.map Primitive.kind)
  rw [← List.append_nil (ps.flatMap _)] at hj
  obtain ⟨t, ht⟩ := hlocal.forward.runs_out (run_primitives_image l h) hj hlt
  rw [hlocal.run_congr l {} _ j] at ht
  exact congrArg Prod.fst (Attempt.bind_error ht _)

theorem primitives_holds (l : Layout) (h : ∀ p ∈ ps, p.counted ≤ maxLength) (cut : Nat) :
    primitives l ps cut = true := by
  rw [primitives, encodePrimitives_eq l h]
  dsimp only
  rw [decodePrimitives_image l h, gives_ok, Bool.true_and]
  by_cases hb : ps.flatMap (Primitive.image l) = []
  · rw [hb]
    rfl
  · have hpos := List.length_pos_iff.2 hb
    have hcut : Read.decodePrimitives l (ps.map Primitive.kind)
        (shorten cut (ps.flatMap (Primitive.image l))) = .error .endOfInput := by
      refine decodePrimitives_prefix l h (List.take_prefix _ _) ?_
      rw [shorten, List.length_take]
      omega
    rw [hcut, faults_error, Bool.or_true]

end

section
variable {src : Read.Source} {s t : Session} {depth : Nat}

/-- What is left to open and what is open stay within the limit. -/
theorem budget_step {q : Read.Query} {r : q.Result} (hs : s.budget + depth ≤ src.limits.depth)
    (hq : q = .leave → depth ≠ 0) (h : q.run src s = (.ok r, t)) :
    t.budget + opened depth q ≤ src.limits.depth := by
  have hquiet (henter : q ≠ .enter) (hleave : q ≠ .leave) : t.budget = s.budget := by
    have hbudget := Read.Query.quiet src henter hleave s
    rwa [h] at hbudget
  cases q with
  | enter =>
    rw [Read.Query.run, enter] at h
    split at h
    · cases h
    · rename_i hbudget
      cases h
      dsimp only [opened]
      omega
  | leave =>
    cases h
    have hopen := hq rfl
    have hrestore : s.restore.budget ≤ s.budget + 1 := Nat.min_le_left _ _
    rw [opened]
    omega
  | _ =>
    rw [hquiet (by simp) (by simp)]
    exact hs

theorem queries_hold_from (qs : List Read.Query) (hs : s.budget + depth ≤ src.limits.depth) :
    queries src qs depth s = true := by
  induction qs generalizing depth s with
  | nil => rfl
  | cons q qs ih =>
    by_cases hleave : q = .leave ∧ depth = 0
    · obtain ⟨rfl, rfl⟩ := hleave
      rw [queries]
      exact ih hs
    · have hopen : q = .leave → depth ≠ 0 := fun hq hdepth => hleave ⟨hq, hdepth⟩
      have hlength : (q.run src s).2.bytes.length ≤ s.bytes.length := (q.consumes s).length_le
      rw [queries]
      · split
        · rename_i e t hrun
          rw [hrun] at hlength
          exact decide_eq_true hlength
        · rename_i r t hrun
          rw [hrun] at hlength
          have hbudget := budget_step hs hopen hrun
          have hdepth := Nat.le_trans (Nat.le_add_left _ _) hbudget
          rw [Bool.and_eq_true, Bool.and_eq_true]
          exact ⟨⟨decide_eq_true hlength, decide_eq_true hdepth⟩, ih hbudget⟩
      · exact fun hdepth hq => hleave ⟨hq, hdepth⟩

theorem queries_hold (src : Read.Source) (qs : List Read.Query) :
    queries src qs 0 (.start src.limits src.input) = true :=
  queries_hold_from qs (Nat.le_refl _)

end

end Bytewire.Check
