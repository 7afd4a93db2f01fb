import Bytewire.Read.Program

/-! The programs that read primitive values of given kinds. -/
namespace Bytewire.Read
open Program

def primitive : Kind → Program Primitive
  | .unit => do
    ask .unit
    return .unit
  | .bool => do return .bool (← ask .bool)
  | .uint w => do return .uint w (← ask (.uint w))
  | .int w => do return .int w (← ask (.int w))
  | .text => do return .text (← ask .text)
  | .bytes => do return .bytes (← ask .bytes)
  | .option => do return .option (← optional (ask (.uint .w64)))
  | .variant => do return .variant (← ask .variant)

def primitives : List Kind → Program (List Primitive)
  | [] => pure []
  | k :: ks => do
    let p ← primitive k
    return p :: (← primitives ks)

def whole {α : Type} (p : Program α) : Program α := do
  let a ← p
  ask .finish
  return a

def decodePrimitives (l : Layout) (ks : List Kind) (input : Bytes) :
    Except Fault (List Primitive) :=
  (whole (primitives ks)).outcome ⟨l, {}, input⟩

end Bytewire.Read
