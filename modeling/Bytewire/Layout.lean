import Bytewire.Bytes.Base128
import Bytewire.Bytes.LittleEndian
import Bytewire.Bytes.Unread
import Bytewire.Entries

/-! How a layout writes the numbers that are not values: lengths and variant indices, at a fixed
width or in base 128. A canonical layout also sorts the entries of a map and demands that order
back; the others leave entries alone and accept any order. -/
namespace Bytewire

inductive Coding where
  | fixed
  | compact
deriving DecidableEq, Repr

structure Layout where
  coding : Coding
  canonical : Bool := false
deriving DecidableEq, Repr

namespace Layout

def maxCompactLength : Nat := 0xffffffff

def lengthBytes (l : Layout) (n : Nat) : Except Fault Bytes :=
  match l.coding with
  | .fixed => .ok (LittleEndian.encode 8 n)
  | .compact => if n ≤ maxCompactLength then .ok (Base128.encode n) else .error (.lengthOverflow n)

/-- A length as it stands in the input, which under the fixed coding may be negative. -/
def readLength (l : Layout) : Attempt Bytes Int :=
  match l.coding with
  | .fixed => do return (BitVec.ofNat 64 (LittleEndian.decode (← Unread.take 8))).toInt
  | .compact => do return Int.ofNat (← Base128.decode 32)

def variantBytes (l : Layout) (v : UInt32) : Bytes :=
  match l.coding with
  | .fixed => LittleEndian.encode 4 v.toNat
  | .compact => Base128.encode v.toNat

def readVariant (l : Layout) : Attempt Bytes UInt32 :=
  match l.coding with
  | .fixed => do return UInt32.ofNat (LittleEndian.decode (← Unread.take 4))
  | .compact => do return UInt32.ofNat (← Base128.decode 32)

def sortEntries (l : Layout) (offsets : List Nat) (b : Bytes) : Except Fault Bytes :=
  if l.canonical then Entries.sort offsets b else .ok b

def checkKeys (l : Layout) (previous current : Bytes) : Except Fault Unit :=
  if l.canonical then Entries.checkIncreasing previous current else .ok ()

end Layout
end Bytewire
