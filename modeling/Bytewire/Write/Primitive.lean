import Bytewire.Write.Command

/-! The commands that write a primitive value. -/
namespace Bytewire

namespace Primitive
open Write

def commands : Primitive → List Command
  | unit => [.unit]
  | bool b => [.bool b]
  | uint w v => [.uint w v]
  | int w v => [.int w v]
  | text s => [.text s]
  | bytes b => [.bytes b]
  | option none => [.tag false]
  | option (some v) => [.tag true, .uint .w64 v]
  | variant i => [.variant i]

end Primitive

namespace Write
variable (l : Layout)

def runCommands : List Command → Attempt Session Unit
  | [] => pure ()
  | c :: cs => do c.run l; runCommands cs

def primitive (p : Primitive) : Attempt Session Unit := runCommands l p.commands

def primitives : List Primitive → Attempt Session Unit
  | [] => pure ()
  | p :: ps => do primitive l p; primitives ps

def encodePrimitives (ps : List Primitive) : Except Fault Bytes :=
  match primitives l ps (.start {} []) with
  | (.ok _, s) => .ok s.bytes
  | (.error e, _) => .error e

end Write
end Bytewire
