import Bytewire.Bytes.Buffer

/-! Frames: a payload without its zeros, so that a zero can end it. A payload is cut into blocks, a
code byte and then as many bytes as the code says less one. A code below `fullCode` stands for
those bytes and a zero, `fullCode` for those bytes alone. Packing makes one pass and comes back to
fill in each code byte when its block is complete. -/
namespace Bytewire.Frame
open Buffer

def terminator : UInt8 := 0

def fullCode : Nat := 255

def capacity (n : Nat) : Nat := n + 2 + n / 254

def capacityWord (n : Nat) : Except Fault Nat :=
  if capacity n ≤ maxWord then .ok (capacity n) else .error .additionOverflow

structure Open where
  slot : Nat
  next : Nat
  code : Nat
deriving DecidableEq, Repr

def Open.first : Open := ⟨0, 1, 1⟩

def Open.close (o : Open) : Attempt Bytes Open := do
  put o.slot o.code
  return ⟨o.next, o.next + 1, 1⟩

def Open.push (o : Open) (x : UInt8) : Attempt Bytes Open :=
  if x = terminator then o.close
  else do
    write o.next [x]
    let o : Open := ⟨o.slot, o.next + 1, o.code + 1⟩
    if o.code = fullCode then o.close else return o

def Open.pushAll : Open → Bytes → Attempt Bytes Open
  | o, [] => pure o
  | o, x :: xs => do (← o.push x).pushAll xs

def packFront (p : Bytes) : Attempt Bytes Nat := do
  let o ← Open.first.pushAll p
  if o.next = 1 then return 0
  put o.slot o.code
  write o.next [terminator]
  return o.next + 1

def packInto (p : Bytes) : Attempt Bytes Nat := do
  let out ← .get
  if p = [] then return 0
  if out.length < capacity p.length then
    .fail (.bufferTooSmall (capacity p.length) out.length)
  else packFront p

def pack (p : Bytes) : Bytes :=
  match packFront p (List.replicate (capacity p.length) 0) with
  | (.ok n, out) => out.take n
  | (.error _, _) => []

end Bytewire.Frame
