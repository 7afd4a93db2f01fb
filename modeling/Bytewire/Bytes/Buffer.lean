import Bytewire.Attempt

/-! Bytes, and buffers changed in place. Every access names its range and is refused with
`outOfBounds` unless the range lies inside the buffer, so that no position is assumed. -/
namespace Bytewire

abbrev Bytes := List UInt8

def maxWord : Nat := 0xffffffffffffffff

def slice (b : Bytes) (start stop : Nat) : Except Fault Bytes :=
  if start ≤ stop ∧ stop ≤ b.length then .ok ((b.take stop).drop start) else .error .outOfBounds

def overwrite (b : Bytes) (start : Nat) (new : Bytes) : Except Fault Bytes :=
  if start + new.length ≤ b.length then
    .ok (b.take start ++ new ++ b.drop (start + new.length))
  else .error .outOfBounds

namespace Buffer

def byteAt (i : Nat) : Attempt Bytes UInt8 := fun b =>
  match b[i]? with
  | some x => (.ok x, b)
  | none => (.error .outOfBounds, b)

def read (start stop : Nat) : Attempt Bytes Bytes := fun b => (slice b start stop, b)

def write (start : Nat) (new : Bytes) : Attempt Bytes Unit := fun b =>
  match overwrite b start new with
  | .ok c => (.ok (), c)
  | .error e => (.error e, b)

def put (i n : Nat) : Attempt Bytes Unit :=
  if n < 256 then write i [UInt8.ofNat n] else .fail .additionOverflow

def move (source count target : Nat) : Attempt Bytes Unit := do
  write target (← read source (source + count))

end Buffer

variable {b new : Bytes} {start stop : Nat}

theorem slice_eq (h : start ≤ stop) (hs : stop ≤ b.length) :
    slice b start stop = .ok ((b.take stop).drop start) := if_pos ⟨h, hs⟩

theorem overwrite_eq (h : start + new.length ≤ b.length) :
    overwrite b start new = .ok (b.take start ++ new ++ b.drop (start + new.length)) := if_pos h

end Bytewire
