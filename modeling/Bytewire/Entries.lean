import Bytewire.Bytes.Buffer

/-! The entries of a map as they lie one after another in a buffer, each marked by the offset at
which it begins and reaching to the next one. Their order is that of their bytes. -/
namespace Bytewire.Entries

/-- Offsets that cut a buffer into entries worth sorting. Only the order and the last offset are
looked at, which places them all. -/
def Sortable (offsets : List Nat) (length : Nat) : Prop :=
  2 ≤ offsets.length ∧ offsets.Pairwise (· ≤ ·) ∧ ∀ o ∈ offsets.getLast?, o ≤ length

instance (offsets : List Nat) (length : Nat) : Decidable (Sortable offsets length) :=
  inferInstanceAs (Decidable (_ ∧ _ ∧ _))

def spans : List Nat → Nat → List (Nat × Nat)
  | [], _ => []
  | [o], stop => [(o, stop)]
  | o :: p :: os, stop => (o, p) :: spans (p :: os) stop

def cut (offsets : List Nat) (b : Bytes) : Except Fault (List Bytes) :=
  (spans offsets b.length).mapM fun s => slice b s.1 s.2

def sort (offsets : List Nat) (b : Bytes) : Except Fault Bytes :=
  if Sortable offsets b.length then do
    let entries ← cut offsets b
    overwrite b (offsets.headD 0) (entries.mergeSort (fun x y => x ≤ y)).flatten
  else pure b

def checkIncreasing (previous current : Bytes) : Except Fault Unit :=
  if previous < current then .ok () else .error .keysNotIncreasing

end Bytewire.Entries
