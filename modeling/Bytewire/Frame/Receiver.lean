import Bytewire.Frame.Unpack

/-! Receiving frames: bytes arrive in any pieces, and frames are taken off the front as they become
complete. -/
namespace Bytewire.Frame

def first? : Bytes → Option (Bytes × Bytes)
  | [] => none
  | x :: xs =>
    if x = terminator then some ([x], xs)
    else (first? xs).map fun (f, rest) => (x :: f, rest)

section
variable {f rest s : Bytes}

theorem closed_cons {x : UInt8} (hx : x ≠ terminator) (hf : Closed f) : Closed (x :: f) := by
  obtain ⟨hlast, hinner⟩ := hf
  cases f with
  | nil => cases hlast
  | cons y f =>
    refine ⟨by rwa [List.getLast?_cons_cons], ?_⟩
    rw [List.dropLast_cons_cons, List.mem_cons, not_or]
    exact ⟨Ne.symm hx, hinner⟩

theorem Closed.count_terminator (h : Closed f) : f.count terminator = 1 := by
  obtain ⟨front, rfl⟩ := List.getLast?_eq_some_iff.1 h.1
  have hfront : terminator ∉ front := by simpa using h.2
  rw [List.count_append, List.count_eq_zero.2 hfront, List.count_singleton_self]

/-- Splitting off the first frame is undone by putting it back in front. -/
theorem append_of_first? (h : first? s = some (f, rest)) : Closed f ∧ s = f ++ rest := by
  induction s generalizing f with
  | nil => cases h
  | cons x xs ih =>
    rw [first?] at h
    by_cases hx : x = terminator
    · rw [if_pos hx] at h
      cases h
      exact ⟨⟨by rw [hx]; rfl, List.not_mem_nil⟩, rfl⟩
    · rw [if_neg hx] at h
      obtain ⟨⟨g, r⟩, hg, heq⟩ := Option.map_eq_some_iff.1 h
      cases heq
      obtain ⟨hclosed, rfl⟩ := ih hg
      exact ⟨closed_cons hx hclosed, rfl⟩

theorem first?_append (h : Closed f) (rest : Bytes) : first? (f ++ rest) = some (f, rest) := by
  obtain ⟨hlast, hinner⟩ := h
  induction f with
  | nil => cases hlast
  | cons x f ih =>
    cases f with
    | nil =>
      cases hlast
      rfl
    | cons y f =>
      rw [List.getLast?_cons_cons] at hlast
      rw [List.dropLast_cons_cons, List.mem_cons, not_or] at hinner
      rw [List.cons_append, first?, if_neg (Ne.symm hinner.1), ih hlast hinner.2]
      rfl

structure Cut (s : Bytes) (fs : List Bytes) (rest : Bytes) : Prop where
  bytes : s = fs.flatten ++ rest
  closed : ∀ f ∈ fs, Closed f
  waiting : terminator ∉ rest

theorem first?_of_notMem (h : terminator ∉ s) : first? s = none := by
  induction s with
  | nil => rfl
  | cons x xs ih =>
    rw [List.mem_cons, not_or] at h
    rw [first?, if_neg (Ne.symm h.1), ih h.2]
    rfl

theorem Cut.first?_nil (h : Cut s [] rest) : first? s = none := by
  rw [h.bytes]
  exact first?_of_notMem h.waiting

theorem Cut.first?_cons {fs : List Bytes} (h : Cut s (f :: fs) rest) :
    ∃ t, first? s = some (f, t) ∧ Cut t fs rest := by
  refine ⟨fs.flatten ++ rest, ?_, rfl, fun g hg => h.closed g (by simp [hg]), h.waiting⟩
  rw [h.bytes, List.flatten_cons, List.append_assoc, first?_append (h.closed f (by simp))]

/-- Nothing is split off exactly where no frame is complete. -/
theorem first?_eq_none_iff : first? s = none ↔ ¬ ∃ f, Closed f ∧ f <+: s := by
  constructor
  · rintro h ⟨f, hf, rest, rfl⟩
    rw [first?_append hf] at h
    cases h
  · intro h
    cases hs : first? s with
    | none => rfl
    | some x =>
      obtain ⟨hclosed, heq⟩ := append_of_first? hs
      exact absurd ⟨x.1, hclosed, x.2, heq.symm⟩ h

end

namespace Receiver

inductive Op where
  | push (b : Bytes)
  | pushPacked (p : Bytes)
  | take
  /-- Takes a frame and unpacks it; it is gone even if it does not unpack. -/
  | unpack
deriving DecidableEq, Repr

inductive Outcome where
  | stored
  | frame (f : Option Bytes)
  | payload (r : Option (Except Fault Bytes))

def step : Op → Bytes → Outcome × Bytes
  | .push b, s => (.stored, s ++ b)
  | .pushPacked p, s => (.stored, s ++ pack p)
  | .take, s =>
    match first? s with
    | some (f, rest) => (.frame (some f), rest)
    | none => (.frame none, s)
  | .unpack, s =>
    match first? s with
    | some (f, rest) => (.payload (some (Frame.unpack f)), rest)
    | none => (.payload none, s)

def run : List Op → Bytes → List (Outcome × Bytes)
  | [], _ => []
  | op :: ops, s =>
    let r := step op s
    r :: run ops r.2

def Op.bytes : Op → Bytes
  | push b => b
  | pushPacked p => pack p
  | take | unpack => []

def pushed (ops : List Op) : Bytes := ops.flatMap Op.bytes

def Outcome.frame? : Outcome → Option Bytes
  | frame f => f
  | stored | payload _ => none

def Op.taken? : Op → Bytes → Option Bytes
  | push _, _ | pushPacked _, _ => none
  | take, s | unpack, s => (first? s).map Prod.fst

def takings : List Op → Bytes → List Bytes
  | [], _ => []
  | op :: ops, s => (op.taken? s).toList ++ takings ops (step op s).2

def Outcome.unpacked? : Outcome → Option (Except Fault Bytes)
  | stored => none
  | frame f => f.map Frame.unpack
  | payload r => r

def unpackings (steps : List (Outcome × Bytes)) : List (Except Fault Bytes) :=
  steps.filterMap fun x => x.1.unpacked?

def frames (steps : List (Outcome × Bytes)) : List Bytes := steps.filterMap fun x => x.1.frame?

def held (s : Bytes) (steps : List (Outcome × Bytes)) : Bytes := (steps.map Prod.snd).getLastD s

section
variable {f rest s : Bytes}

theorem held_cons (s : Bytes) (x : Outcome × Bytes) (steps : List (Outcome × Bytes)) :
    held s (x :: steps) = held x.2 steps := List.getLastD_cons

theorem frames_cons (x : Outcome × Bytes) (steps : List (Outcome × Bytes)) :
    frames (x :: steps) = x.1.frame?.toList ++ frames steps := by
  rw [frames, List.filterMap_cons]
  cases x.1.frame? with
  | none => rfl
  | some f => rfl

theorem take_run (k : Nat) (ops : List Op) (s : Bytes) :
    (run ops s).take k = run (ops.take k) s := by
  induction ops generalizing k s with
  | nil =>
    rw [List.take_nil]
    exact List.take_nil
  | cons op ops ih =>
    cases k with
    | zero => rfl
    | succ k =>
      rw [run, List.take_succ_cons, List.take_succ_cons, ih, run]

theorem step_take_some (h : first? s = some (f, rest)) :
    step .take s = (.frame (some f), rest) := by
  rw [step, h]

theorem step_take_none (h : first? s = none) : step .take s = (.frame none, s) := by
  rw [step, h]

theorem step_take_fst_eq_none_iff : (step .take s).1 = .frame none ↔ first? s = none := by
  cases h : first? s with
  | none => simp [step_take_none h]
  | some x => simp [step_take_some h]

end

end Receiver
end Bytewire.Frame
