import Bytewire.Frame.Receiver
import Bytewire.Proofs.Frame.RoundTrip

/-! What a receiver makes of a stream of frames, whatever pieces it arrives in and whenever frames
are taken: the frames come out one by one and in order, and the rest waits in the buffer. -/
namespace Bytewire.Frame

/-- An empty payload leaves no trace in a stream. -/
theorem flatMap_pack_filter (ps : List Bytes) :
    (ps.filter (· ≠ [])).flatMap pack = ps.flatMap pack := by
  induction ps with
  | nil => rfl
  | cons p ps ih =>
    by_cases hp : p = []
    · simpa [hp, pack_nil] using ih
    · simpa [hp] using ih

theorem map_unpack_pack (ps : List Bytes) : (ps.map pack).map unpack = ps.map .ok := by
  simp [unpack_of_pack]

namespace Receiver
variable {ps taken : List Bytes} {s later : Bytes} {op : Op} {ops : List Op}

/-- Nothing is lost or added: what was held and what came in is taken off or still held. -/
theorem step_conserves (op : Op) (s : Bytes) :
    (op.taken? s).toList.flatten ++ (step op s).2 = s ++ op.bytes := by
  cases op with
  | push b => rfl
  | pushPacked p => rfl
  | take | unpack =>
    cases hfirst : first? s with
    | none => simp [step, hfirst, Op.taken?, Op.bytes]
    | some x =>
      obtain ⟨-, hs⟩ := append_of_first? hfirst
      simpa [step, hfirst, Op.taken?, Op.bytes] using hs.symm

theorem takings_conserve (ops : List Op) (s : Bytes) :
    (takings ops s).flatten ++ held s (run ops s) = s ++ pushed ops := by
  induction ops generalizing s with
  | nil => simp [run, takings, held, pushed]
  | cons op ops ih =>
    calc
      (takings (op :: ops) s).flatten ++ held s (run (op :: ops) s)
          = (op.taken? s).toList.flatten ++ ((takings ops (step op s).2).flatten ++
              held (step op s).2 (run ops (step op s).2)) := by
            simp only [run, takings, held_cons, List.flatten_append, List.append_assoc]
      _ = (op.taken? s).toList.flatten ++ (step op s).2 ++ pushed ops := by
            rw [ih, List.append_assoc]
      _ = s ++ pushed (op :: ops) := by
            rw [step_conserves, List.append_assoc, pushed, pushed, List.flatMap_cons]

theorem step_frame? (hop : op ≠ .unpack) : (step op s).1.frame? = op.taken? s := by
  cases op with
  | push b => rfl
  | pushPacked p => rfl
  | take => cases hfirst : first? s <;> simp [step, hfirst, Outcome.frame?, Op.taken?]
  | unpack => exact absurd rfl hop

/-- Where nothing is unpacked at once, every frame taken off is handed out. -/
theorem frames_run (hops : .unpack ∉ ops) : frames (run ops s) = takings ops s := by
  induction ops generalizing s with
  | nil => rfl
  | cons op ops ih =>
    rw [List.mem_cons, not_or] at hops
    rw [run, frames_cons, step_frame? (Ne.symm hops.1), ih hops.2, takings]

theorem run_conserves (hops : .unpack ∉ ops) :
    (frames (run ops s)).flatten ++ held s (run ops s) = s ++ pushed ops := by
  rw [frames_run hops]
  exact takings_conserve ops s

/-- The receiver has handed out the frames of the first payloads, and what it holds together with
what is still to come are the frames of the others. -/
structure Delivering (ps taken : List Bytes) (s later : Bytes) : Prop where
  split : ∃ sent todo, ps = sent ++ todo ∧ taken = sent.map pack ∧ s ++ later = todo.flatMap pack

namespace Delivering

theorem start (ps : List Bytes) : Delivering ps [] [] (ps.flatMap pack) :=
  ⟨[], ps, rfl, rfl, rfl⟩

theorem push {b : Bytes} (h : Delivering ps taken s (b ++ later)) :
    Delivering ps taken (s ++ b) later := by
  obtain ⟨sent, todo, hps, htaken, hs⟩ := h.split
  exact ⟨sent, todo, hps, htaken, by rw [List.append_assoc, hs]⟩

/-- A frame that is complete in the buffer is the frame of the next payload. -/
theorem take {f rest : Bytes} (hne : ∀ p ∈ ps, p ≠ []) (h : Delivering ps taken s later)
    (hfirst : first? s = some (f, rest)) : Delivering ps (taken ++ [f]) rest later := by
  obtain ⟨sent, todo, rfl, rfl, hs⟩ := h.split
  obtain ⟨hf, rfl⟩ := append_of_first? hfirst
  rw [List.append_assoc] at hs
  have hsplit : first? (todo.flatMap pack) = some (f, rest ++ later) := by
    rw [← hs]
    exact first?_append hf _
  cases todo with
  | nil => cases hsplit
  | cons p todo =>
    have hp : p ≠ [] := hne p (by simp)
    rw [List.flatMap_cons, first?_append (closed_pack hp), Option.some.injEq,
      Prod.mk.injEq] at hsplit
    obtain ⟨rfl, hrest⟩ := hsplit
    exact ⟨sent ++ [p], todo, by simp, by simp, hrest.symm⟩

theorem step (hne : ∀ p ∈ ps, p ≠ []) (hop : op ≠ .unpack)
    (h : Delivering ps taken s (op.bytes ++ later)) :
    Delivering ps (taken ++ (step op s).1.frame?.toList) (step op s).2 later := by
  cases op with
  | push b => simpa [Receiver.step, Outcome.frame?, Op.bytes] using h.push
  | pushPacked p => simpa [Receiver.step, Outcome.frame?, Op.bytes] using h.push
  | take =>
    rw [Op.bytes, List.nil_append] at h
    cases hfirst : first? s with
    | none => simpa [step_take_none hfirst, Outcome.frame?] using h
    | some x => simpa [step_take_some hfirst, Outcome.frame?] using h.take hne hfirst
  | unpack => exact absurd rfl hop

theorem run (hne : ∀ p ∈ ps, p ≠ []) (hops : .unpack ∉ ops)
    (h : Delivering ps taken s (pushed ops ++ later)) :
    Delivering ps (taken ++ frames (run ops s)) (held s (run ops s)) later := by
  induction ops generalizing taken s with
  | nil => simpa [Receiver.run, frames, held, pushed] using h
  | cons op ops ih =>
    rw [List.mem_cons, not_or] at hops
    have hbytes : pushed (op :: ops) = op.bytes ++ pushed ops := List.flatMap_cons
    rw [hbytes, List.append_assoc] at h
    have hstep := ih hops.2 (h.step hne (Ne.symm hops.1))
    rwa [Receiver.run, frames_cons, held_cons, ← List.append_assoc]

theorem map_unpack (h : Delivering ps taken s later) :
    taken.map unpack = (ps.take taken.length).map .ok := by
  obtain ⟨sent, todo, rfl, rfl, -⟩ := h.split
  rw [map_unpack_pack, List.length_map, List.take_left]

end Delivering

/-- Taking goes on for as long as there are frames, and then there is nothing to take. -/
theorem run_takes {fs : List Bytes} {rest : Bytes} (h : Cut s fs rest) :
    let steps := run (.replicate (fs.length + 1) .take) s
    steps.map Prod.fst = fs.map (fun f => .frame (some f)) ++ [.frame none] ∧
      held s steps = rest := by
  induction fs generalizing s with
  | nil =>
    have hs : s = rest := h.bytes
    subst hs
    simp [run, step_take_none h.first?_nil, held]
  | cons f fs ih =>
    obtain ⟨t, hfirst, ht⟩ := h.first?_cons
    obtain ⟨houtcomes, hheld⟩ := ih ht
    constructor
    · simpa [List.replicate_succ, run, step_take_some hfirst] using houtcomes
    · simpa [List.replicate_succ, run, step_take_some hfirst, held_cons] using hheld

theorem cut_flatMap_pack {ps : List Bytes} (hne : ∀ p ∈ ps, p ≠ []) :
    Cut (ps.flatMap pack) (ps.map pack) [] where
  bytes := by rw [List.append_nil, List.flatMap_def]
  closed := by
    intro f hf
    obtain ⟨p, hp, rfl⟩ := List.mem_map.1 hf
    exact closed_pack (hne p hp)
  waiting := List.not_mem_nil

/-- While parts of a stream of frames are pushed and frames are taken in any order: what was taken
and what is held is what was pushed; the frames taken are those of the first payloads; and taking
gives nothing, and changes nothing, exactly while no frame is complete. Once all is pushed, taking
until there is nothing gives the frames of all payloads that are not empty and leaves nothing. -/
theorem run_delivers (ps : List Bytes) (ops : List Op) (hops : .unpack ∉ ops)
    (h : pushed ops <+: ps.flatMap pack) :
    (∀ k, let steps := (run ops []).take k
      (frames steps).flatten ++ held [] steps = pushed (ops.take k) ∧
      (frames steps).map unpack =
        ((ps.filter (· ≠ [])).take (frames steps).length).map .ok ∧
      ((step .take (held [] steps)).1 = .frame none ↔ ¬ ∃ f, Closed f ∧ f <+: held [] steps) ∧
      ((step .take (held [] steps)).1 = .frame none →
        (step .take (held [] steps)).2 = held [] steps)) ∧
    (pushed ops = ps.flatMap pack → ∃ fs,
      let steps := run (.replicate (fs.length + 1) .take) (held [] (run ops []))
      steps.map Prod.fst = fs.map (fun f => .frame (some f)) ++ [.frame none] ∧
      held (held [] (run ops [])) steps = [] ∧
      (frames (run ops []) ++ fs).map unpack = (ps.filter (· ≠ [])).map .ok) := by
  have hne : ∀ p ∈ ps.filter (· ≠ []), p ≠ [] := by simp
  rw [← flatMap_pack_filter] at h ⊢
  obtain ⟨later, hlater⟩ := h
  have hstart : Delivering (ps.filter (· ≠ [])) [] [] (pushed ops ++ later) := by
    rw [hlater]
    exact Delivering.start _
  constructor
  · intro k
    have hk : .unpack ∉ ops.take k := fun hk => hops (List.mem_of_mem_take hk)
    have hsplit : pushed ops = pushed (ops.take k) ++ pushed (ops.drop k) := by
      rw [pushed, pushed, pushed, ← List.flatMap_append, List.take_append_drop]
    rw [hsplit, List.append_assoc] at hstart
    have hrun := hstart.run hne hk
    rw [take_run]
    refine ⟨run_conserves hk, hrun.map_unpack, ?_, ?_⟩
    · rw [step_take_fst_eq_none_iff, first?_eq_none_iff]
    · intro hnone
      rw [step_take_none (step_take_fst_eq_none_iff.1 hnone)]
  · intro hall
    have hend : later = [] := by simpa [hall] using hlater
    subst hend
    obtain ⟨sent, todo, hps, htaken, hs⟩ := (hstart.run hne hops).split
    rw [List.append_nil] at hs
    have htodo : ∀ p ∈ todo, p ≠ [] := fun p hp => hne p (by rw [hps]; simp [hp])
    obtain ⟨houtcomes, hheld⟩ := run_takes (cut_flatMap_pack htodo)
    refine ⟨todo.map pack, ?_, ?_, ?_⟩
    · simpa [hs, Function.comp_def] using houtcomes
    · simpa [hs] using hheld
    · rw [List.nil_append] at htaken
      rw [htaken, ← List.map_append, map_unpack_pack, hps]

def pieces : List Op :=
  [.push [2, 1], .take, .push [1], .take, .push [0, 2], .take, .push [7, 0]]

/-- Two frames, one with a zero in its payload, cut in the middle of a block and before a
terminator, with takes in between. -/
theorem run_delivers_pieces :
    .unpack ∉ pieces ∧ pushed pieces = [[1, 0], [], [7]].flatMap pack ∧
      (frames (run pieces [])).flatten ++ held [] (run pieces []) = [2, 1, 1, 0, 2, 7, 0] ∧
      ∃ fs, (run (.replicate (fs.length + 1) .take) (held [] (run pieces []))).map Prod.fst =
          fs.map (fun f => .frame (some f)) ++ [.frame none] ∧
        (frames (run pieces []) ++ fs).map unpack = [.ok [1, 0], .ok [7]] := by
  have hops : .unpack ∉ pieces := by decide
  have hpushed : pushed pieces = [[1, 0], [], [7]].flatMap pack := by decide
  have hbegins : pushed pieces <+: [[1, 0], [], [7]].flatMap pack :=
    ⟨[], by rw [List.append_nil, hpushed]⟩
  obtain ⟨hpoints, hend⟩ := run_delivers [[1, 0], [], [7]] pieces hops hbegins
  obtain ⟨hheld, -⟩ := hpoints pieces.length
  obtain ⟨fs, houtcomes, -, hpayloads⟩ := hend hpushed
  exact ⟨hops, hpushed, hheld, fs, houtcomes, hpayloads⟩

end Receiver
end Bytewire.Frame
