import Bytewire.Frame.Pack

/-! Payloads back from frames. Unpacking happens in the buffer that holds the frame: each block's
bytes move down over the codes before them, so what lies behind the payload is left over from the
frame. Every way of unpacking goes through `unpackHere`. -/
namespace Bytewire.Frame
open Buffer

/-- Moves block after block of a frame of `size` bytes from `source` down to `target`, and tells
the length of the payload. The last byte put down is left out of it: it is the zero of the last
block, unless that block is full. -/
def unpackFrom (size source target : Nat) : Attempt Bytes Nat :=
  if source < size then do
    let code ← byteAt source
    let run := code.toNat - 1
    if size < source + code.toNat ∧ code ≠ 1 then
      .fail .truncatedFrame
    else do
      move (source + 1) run target
      if code.toNat ≠ fullCode ∧ source + 1 + run < size then do
        write (target + run) [terminator]
        unpackFrom size (source + 1 + run) (target + run + 1)
      else
        unpackFrom size (source + 1 + run) (target + run)
  else pure (target - 1)
termination_by size - source

def Closed (f : Bytes) : Prop := f.getLast? = some terminator ∧ terminator ∉ f.dropLast

instance (f : Bytes) : Decidable (Closed f) := inferInstanceAs (Decidable (_ ∧ _))

/-- Replaces the frame by its payload and tells the payload's length. A buffer that is no frame is
left as it is; a block that reaches past the end leaves the blocks before it moved. -/
def unpackHere : Attempt Bytes Nat := do
  let f ← .get
  if f = [] then return 0
  if Closed f then unpackFrom f.length 0 0 else .fail .truncatedFrame

def unpack (f : Bytes) : Except Fault Bytes :=
  match unpackHere f with
  | (.ok n, out) => .ok (out.take n)
  | (.error e, _) => .error e

def unpackInto (f : Bytes) : Attempt Bytes Nat := fun out =>
  if out.length < f.length then (.error (.bufferTooSmall f.length out.length), out)
  else
    let r := unpackHere f
    (r.1, r.2 ++ out.drop f.length)

/-- Refused as truncated by every way of unpacking, and before any block has moved: the buffer the
bytes are in stays as it is, and one they are copied to has them over its front. -/
structure Refused (f : Bytes) : Prop where
  unpack : unpack f = .error .truncatedFrame
  here : unpackHere f = (.error .truncatedFrame, f)
  into : ∀ out, f.length ≤ out.length →
    unpackInto f out = (.error .truncatedFrame, f ++ out.drop f.length)

end Bytewire.Frame
