import Bytewire.Read.Machine

/-! Writing on a machine of 64-bit words. The groups of a number are shifted out one by one, and how
many there are is reckoned from its leading zeros. Entries are sorted in a copy, in which every end
is a difference of offsets, and put back one by one. -/
namespace Bytewire.Machine
variable {bits : Nat}

def lowByte (v : BitVec bits) : UInt8 := UInt8.ofBitVec (v.setWidth 8)

def encode (v : BitVec bits) : Bytes :=
  if v.toNat < 0x80 then [lowByte v] else (lowByte v ||| 0x80) :: encode (v >>> 7)
termination_by v.toNat
decreasing_by
  rw [BitVec.toNat_ushiftRight, Nat.shiftRight_eq_div_pow]
  omega

def size (v : BitVec bits) : Option Nat :=
  (sub bits v.clz.toNat).map fun used => max 1 ((used + 6) / 7)

def ascending (offsets : List Nat) : Bool := (offsets.zip offsets.tail).all fun (o, p) => o ≤ p

def entry (copy : Bytes) (start : Nat) (span : Nat × Nat) : Option Bytes := do
  piece copy (← sub span.1 start) (← sub span.2 start)

def putBack : Nat → List Bytes → Bytes → Option Bytes
  | _, [], b => some b
  | position, e :: es, b => do
    putBack (position + e.length) es (← (overwrite b position e).toOption)

def sortEntries (offsets : List Nat) (b : Bytes) : Option Bytes :=
  if offsets.length ≤ 1 ∨ ¬ ascending offsets ∨ b.length < offsets.getLastD 0 then some b
  else do
    let start := offsets.headD 0
    let copy ← piece b start b.length
    let entries ← (Entries.spans offsets b.length).mapM (entry copy start)
    putBack start (entries.mergeSort fun x y => x ≤ y) b

end Bytewire.Machine
