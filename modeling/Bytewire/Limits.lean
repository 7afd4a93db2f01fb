import Bytewire.Bytes.Buffer

/-! Bounds on what is accepted: how deep containers nest and how long a sequence may be. -/
namespace Bytewire

def maxLength : Nat := 0x7fffffff

structure Limits where
  depth : Nat := maxWord
  length : Nat := maxLength
deriving DecidableEq, Repr

namespace Limits

def withDepth (n : Nat) (l : Limits) : Limits := { l with depth := n }

def withLength (n : Nat) (l : Limits) : Limits := { l with length := min n maxLength }

structure Valid (l : Limits) : Prop where
  depth_le : l.depth ≤ maxWord
  length_le : l.length ≤ maxLength

theorem valid_default : ({} : Limits).Valid := ⟨Nat.le_refl _, Nat.le_refl _⟩

theorem Valid.withDepth {l : Limits} (h : l.Valid) {n : Nat} (hn : n ≤ maxWord) :
    (l.withDepth n).Valid := ⟨hn, h.length_le⟩

theorem Valid.withLength {l : Limits} (h : l.Valid) (n : Nat) : (l.withLength n).Valid :=
  ⟨h.depth_le, Nat.min_le_right n maxLength⟩

inductive Setting where
  | depth (n : Nat)
  | length (n : Nat)
deriving DecidableEq, Repr

namespace Setting

def value : Setting → Nat
  | .depth n | .length n => n

def apply : Setting → Limits → Limits
  | .depth n => withDepth n
  | .length n => withLength n

end Setting

def configured (xs : List Setting) : Limits := xs.foldl (fun l x => x.apply l) {}

section
variable {xs : List Setting}

/-- What holds without settings and is kept by each of them holds of all that they make. -/
theorem configured_of_forall {P : Limits → Prop} (hdefault : P {})
    (h : ∀ x ∈ xs, ∀ l, P l → P (x.apply l)) : P (configured xs) :=
  List.foldlRecOn xs (fun l x => x.apply l) hdefault fun l hl x hx => h x hx l hl

theorem Valid.apply {l : Limits} (h : l.Valid) {x : Setting} (hx : x.value ≤ maxWord) :
    (x.apply l).Valid := by
  cases x with
  | depth n => exact h.withDepth hx
  | length n => exact h.withLength n

/-- Settings to machine words make no limits that are not valid. -/
theorem valid_configured (h : ∀ x ∈ xs, x.value ≤ maxWord) : (configured xs).Valid :=
  configured_of_forall valid_default fun x hx _ hl => hl.apply (h x hx)

theorem length_configured_le (xs : List Setting) : (configured xs).length ≤ maxLength := by
  refine configured_of_forall (P := fun l => l.length ≤ maxLength) (Nat.le_refl _) ?_
  intro x _ l hl
  cases x with
  | depth n => exact hl
  | length n => exact Nat.min_le_right n maxLength

end

def Allows (l : Limits) (n : Int) : Prop := 0 ≤ n ∧ n ≤ l.length

instance (l : Limits) (n : Int) : Decidable (l.Allows n) :=
  inferInstanceAs (Decidable (0 ≤ n ∧ n ≤ l.length))

end Limits
end Bytewire
