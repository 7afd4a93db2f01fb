import Bytewire.Read.Program

/-! Reading on a machine of 64-bit words. It stops where a piece is cut out of bounds, where a
difference falls below zero, where a sum is more than a word, and where a number is shifted by its
width or more; all else it does as a session does. -/
namespace Bytewire

/-- Attempts that have no outcome where the machine stops. -/
def Machine (σ α : Type) : Type := σ → Option (Except Fault α × σ)

namespace Machine
variable {σ α : Type}

instance : Monad (Machine σ) where
  pure a := fun s => some (.ok a, s)
  bind x f := fun s =>
    match x s with
    | some (.ok a, t) => f a t
    | some (.error e, t) => some (.error e, t)
    | none => none

def run (x : Attempt σ α) : Machine σ α := fun s => some (x s)

def need (a : Option α) : Machine σ α := fun s => a.map fun a => (.ok a, s)

def after (x : Machine σ α) (f : σ → σ) : Machine σ α := fun s =>
  (x s).map fun r => (r.1, f r.2)

def piece (b : Bytes) (start stop : Nat) : Option Bytes := (slice b start stop).toOption

def sub (m n : Nat) : Option Nat := if n ≤ m then some (m - n) else none

def add (m n : Nat) : Option Nat := if m + n ≤ maxWord then some (m + n) else none

def shiftLeft {bits : Nat} (v : BitVec bits) (n : Nat) : Option (BitVec bits) :=
  if n < bits then some (v <<< n) else none

def take (n : Nat) : Machine Bytes Bytes := do
  let b ← run .get
  run (.lift (Unread.require n b))
  let front ← need (piece b 0 n)
  let back ← need (piece b n b.length)
  run (.set back)
  pure front

def leadingZeros (x : UInt8) : Nat := x.toBitVec.clz.toNat

def overflows (room : Nat) (x : UInt8) : Option Bool :=
  if room ≤ 7 then (sub 8 (leadingZeros x)).map fun used => decide (room < used) else some false

/-- Adds the groups that follow to those that are read, which have filled `shift` bits. -/
def groups (bits shift : Nat) (acc : BitVec bits) : Machine Bytes (BitVec bits)
  | [] => some (.error .endOfInput, [])
  | x :: xs => do
    if ← overflows (← sub bits shift) x then some (.error .numberOverflow, xs)
    else
      let group ← shiftLeft (BitVec.ofNat bits (x &&& 0x7f).toNat) shift
      if x &&& 0x80 = 0 then some (.ok (acc ||| group), xs)
      else groups bits (← add shift 7) (acc ||| group) xs

def number (bits : Nat) : Machine Bytes Nat := do return (← groups bits 0 0).toNat

def readLength (l : Layout) : Machine Bytes Int :=
  match l.coding with
  | .fixed => do return (BitVec.ofNat 64 (LittleEndian.decode (← take 8))).toInt
  | .compact => do return Int.ofNat (← number 32)

def readVariant (l : Layout) : Machine Bytes UInt32 :=
  match l.coding with
  | .fixed => do return UInt32.ofNat (LittleEndian.decode (← take 4))
  | .compact => do return UInt32.ofNat (← number 32)

def onBytes (x : Machine Bytes α) : Machine Session α := fun s =>
  (x s.bytes).map fun r => (r.1, { s with bytes := r.2 })

def enter : Machine Session Unit := do
  let s ← run .get
  if s.budget = 0 then run (.fail .depthExceeded)
  else run (.set { s with budget := ← need (sub s.budget 1) })

def container (body : Machine Session α) : Machine Session α := do
  enter
  body.after Session.restore

def word (w : Width) : Machine Session (Word w) := do
  return BitVec.ofNat w.bits (LittleEndian.decode (← onBytes (take w.bytes)))

def flag : Machine Session Bool := do
  let b ← word .w8
  if b.toNat = 0 then pure false
  else if b.toNat = 1 then pure true
  else run (.fail (.invalidBool (UInt8.ofNat b.toNat)))

section
variable (src : Read.Source)

def length : Machine Session Nat := do
  let n ← onBytes (readLength src.layout)
  if src.limits.Allows n then pure n.toNat else run (.fail (.invalidLength n))

def counted : Machine Session Bytes := do
  onBytes (take (← length src))

def offset : Machine Session Nat := do
  let s ← run .get
  need (sub src.input.length s.bytes.length)

def capture (x : Machine Session α) : Machine Session (α × Bytes) := do
  let start ← offset src
  let a ← x
  return (a, ← need (piece src.input start (← offset src)))

end
end Machine

namespace Read
variable (src : Source)

def Query.machine : (q : Query) → Machine Session q.Result
  | .bool | .tag => Machine.flag
  | .uint w | .int w => Machine.word w
  | .natural => do return (← Machine.word .w128).toNat
  | .integer => do return (← Machine.word .w128).toInt
  | .text => do Machine.run (.lift (Text.decode (← Machine.counted src)))
  | .bytes => Machine.counted src
  | .length => Machine.length src
  | .variant => Machine.onBytes (Machine.readVariant src.layout)
  | .enter => Machine.enter
  | q => Machine.run (q.run src)

def Program.machine : {α : Type} → Program α → Machine Session α
  | _, done a => pure a
  | _, ask q => q.machine src
  | _, fail e => Machine.run (.fail e)
  | _, andThen p k => do (k (← p.machine)).machine
  | _, container p => Machine.container p.machine
  | _, capture p => Machine.capture src p.machine

end Read
end Bytewire
