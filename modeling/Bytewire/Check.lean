import Bytewire.Frame.Receiver
import Bytewire.Read.Primitive
import Bytewire.Write.Primitive

/-! Properties that hold of every input, as tests on one input. -/
namespace Bytewire.Check

def gives {α : Type} [DecidableEq α] (r : Except Fault α) (a : α) : Bool :=
  match r with
  | .ok b => b = a
  | .error _ => false

def faults {α : Type} (r : Except Fault α) (e : Fault) : Bool :=
  match r with
  | .ok _ => false
  | .error d => d = e

def shorten (cut : Nat) (b : Bytes) : Bytes := b.take (b.length - (cut % b.length + 1))

def primitives (l : Layout) (ps : List Primitive) (cut : Nat) : Bool :=
  match Write.encodePrimitives l ps with
  | .error _ => false
  | .ok b =>
    gives (Read.decodePrimitives l (ps.map Primitive.kind) b) ps &&
      (b.isEmpty ||
        faults (Read.decodePrimitives l (ps.map Primitive.kind) (shorten cut b)) .endOfInput)

def opened (depth : Nat) : Read.Query → Nat
  | .enter => depth + 1
  | .leave => depth - 1
  | _ => depth

/-- Queries up to the first that fails only ever use up what is there, and open no more containers
than the limit allows. A query to leave is passed over where nothing is open. -/
def queries (src : Read.Source) : List Read.Query → (depth : Nat) → Session → Bool
  | [], _, _ => true
  | .leave :: qs, 0, s => queries src qs 0 s
  | q :: qs, depth, s =>
    match q.run src s with
    | (.error _, t) => t.bytes.length ≤ s.bytes.length
    | (.ok _, t) =>
      let depth := opened depth q
      t.bytes.length ≤ s.bytes.length && depth ≤ src.limits.depth && queries src qs depth t

def frame (p : Bytes) (cut : Nat) : Bool :=
  let f := Frame.pack p
  f.length ≤ Frame.capacity p.length &&
    if p.isEmpty then f.isEmpty
    else
      f.count Frame.terminator = 1 && f.getLast? = some Frame.terminator &&
        gives (Frame.unpack f) p &&
        (match Frame.unpackHere f with
          | (.ok n, b) => b.take n = p
          | (.error _, _) => false) &&
        faults (Frame.unpack (f.take (f.length - (cut % (f.length - 1) + 1)))) .truncatedFrame

def delivers : List Bytes → Bytes → Bool
  | [], b => b.isEmpty
  | p :: ps, b =>
    match Frame.first? b with
    | some (f, rest) => gives (Frame.unpack f) p && delivers ps rest
    | none => false

def stream (ps : List Bytes) : Bool :=
  delivers (ps.filter fun p => !p.isEmpty) (ps.flatMap Frame.pack)

def unpacking (f : Bytes) : Bool :=
  match Frame.unpack f with
  | .ok p => p.length ≤ f.length
  | .error _ => true

end Bytewire.Check
