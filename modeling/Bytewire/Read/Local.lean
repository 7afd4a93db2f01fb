import Bytewire.Read.Primitive

/-! Programs that learn of their input only what they read from its front: they ask neither how
much is left nor for the input as a whole. -/
namespace Bytewire.Read

def Query.Local : Query → Prop
  | .remaining | .input | .finish => False
  | _ => True

def Program.Local : {α : Type} → Program α → Prop
  | _, done _ => True
  | _, ask q => q.Local
  | _, fail _ => True
  | _, andThen p k => p.Local ∧ ∀ a, (k a).Local
  | _, container p => p.Local
  | _, capture p => p.Local

namespace Program.Local
variable {α κ ν : Type}

theorem times {p : Program α} (hp : p.Local) (n : Nat) : (p.times n).Local := by
  induction n with
  | zero => trivial
  | succ n ih => exact ⟨hp, fun _ => ⟨ih, fun _ => trivial⟩⟩

theorem optional {p : Program α} (hp : p.Local) : p.optional.Local := by
  refine ⟨trivial, ?_⟩
  intro present
  cases present with
  | false => trivial
  | true => exact ⟨hp, fun _ => trivial⟩

theorem choice {arm : UInt32 → Program α} (h : ∀ i, (arm i).Local) :
    (Program.choice arm).Local :=
  ⟨trivial, fun i => ⟨h i, fun _ => trivial⟩⟩

theorem sequence {p : Program α} (hp : p.Local) : p.sequence.Local :=
  ⟨trivial, fun n => hp.times n⟩

theorem inOrder (previous : Option Bytes) (current : Bytes) :
    (Program.inOrder previous current).Local := by
  cases previous with
  | none => trivial
  | some k => trivial

theorem entries {key : Program κ} {value : Program ν} (hk : key.Local) (hv : value.Local)
    (previous : Option Bytes) (n : Nat) : (Program.entries key value previous n).Local := by
  induction n generalizing previous with
  | zero => trivial
  | succ n ih =>
    refine ⟨hk, ?_⟩
    intro ⟨k, current⟩
    exact ⟨inOrder previous current, fun _ => ⟨hv, fun _ => ⟨ih (some current), fun _ => trivial⟩⟩⟩

theorem map {key : Program κ} {value : Program ν} (hk : key.Local) (hv : value.Local) :
    (Program.map key value).Local :=
  ⟨trivial, fun n => entries hk hv none n⟩

end Program.Local

theorem local_primitive (k : Kind) : (primitive k).Local := by
  cases k with
  | option =>
    have hword : (Program.ask (.uint .w64)).Local := trivial
    exact ⟨hword.optional, fun _ => trivial⟩
  | _ => exact ⟨trivial, fun _ => trivial⟩

theorem local_primitives (ks : List Kind) : (primitives ks).Local := by
  induction ks with
  | nil => trivial
  | cons k ks ih => exact ⟨local_primitive k, fun _ => ⟨ih, fun _ => trivial⟩⟩

end Bytewire.Read
