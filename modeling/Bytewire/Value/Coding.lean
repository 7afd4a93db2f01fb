import Bytewire.Read.Primitive
import Bytewire.Value.Basic
import Bytewire.Write.Primitive
import Bytewire.Write.Script

/-! Writing values, and reading them by a schema. -/
namespace Bytewire
open Session

mutual
def Value.write (l : Layout) : Value → Attempt Session Unit
  | .primitive p => Write.primitive l p
  | .tuple parts => Value.writeAll l parts
  | .sequence items => container do
    Write.length l items.length
    Value.writeAll l items
  | .map entries => Write.map l (Value.writeEntries l entries)
def Value.writeAll (l : Layout) : List Value → Attempt Session Unit
  | [] => pure ()
  | v :: vs => do v.write l; Value.writeAll l vs
def Value.writeEntries (l : Layout) : List (Value × Value) → List (Attempt Session Unit)
  | [] => []
  | (k, v) :: es => (do k.write l; v.write l) :: Value.writeEntries l es
end

mutual
def Schema.read : Schema → Read.Program Value
  | .primitive k => do return .primitive (← Read.primitive k)
  | .tuple parts => do return .tuple (← Schema.readAll parts)
  | .sequence item => do return .sequence (← Read.Program.sequence item.read)
  | .listed items => .container do
    let n ← .ask .length
    if n = items.length then return .sequence (← Schema.readAll items)
    else .fail (.invalidLength n)
  | .map key value => do return .map (← Read.Program.map key.read value.read)
def Schema.readAll : List Schema → Read.Program (List Value)
  | [] => pure []
  | s :: ss => do
    let v ← s.read
    return v :: (← Schema.readAll ss)
end

theorem Schema.times_read (s : Schema) (n : Nat) :
    Read.Program.times s.read n = Schema.readAll (List.replicate n s) := by
  induction n with
  | zero => rfl
  | succ n ih => rw [Read.Program.times, ih, List.replicate_succ, Schema.readAll]

end Bytewire
