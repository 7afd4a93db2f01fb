import Bytewire.Bytes.Text
import Bytewire.Layout
import Bytewire.Primitive
import Bytewire.Session

/-! What a writer is told to do, one command at a time. A `natural` or an `integer` may be of any size;
it is stored in 128 bits if it fits them, without a sign or with one. -/
namespace Bytewire.Write
open Session

inductive Command where
  | unit
  | bool (b : Bool)
  | tag (present : Bool)
  | uint (w : Width) (v : Word w)
  | int (w : Width) (v : Word w)
  | natural (n : Nat)
  | integer (z : Int)
  | text (s : String)
  | bytes (b : Bytes)
  | length (n : Nat)
  | variant (i : UInt32)
  | unencodable (k : Unencodable)
  | enter
  | leave
  | sort (offsets : List Nat)
deriving DecidableEq, Repr

variable (l : Layout)

def word {w : Width} (v : Word w) : Attempt Session Unit :=
  emit (LittleEndian.encode w.bytes v.toNat)

def length (n : Nat) : Attempt Session Unit := do
  emit (← .lift (l.lengthBytes n))

def counted (b : Bytes) : Attempt Session Unit := do
  length l b.length
  emit b

def Command.run : Command → Attempt Session Unit
  | .unit => pure ()
  | .bool b | .tag b => emit [if b then 1 else 0]
  | .uint _ v | .int _ v => word v
  | .natural n =>
    if n ≤ maxNatural then word (BitVec.ofNat Width.w128.bits n) else .fail (.outOfRange false)
  | .integer z =>
    if -maxInteger - 1 ≤ z ∧ z ≤ maxInteger then word (BitVec.ofInt Width.w128.bits z)
    else .fail (.outOfRange true)
  | .text s => counted l (Text.encode s)
  | .bytes b => counted l b
  | .length n => Write.length l n
  | .variant i => emit (l.variantBytes i)
  | .unencodable k => .fail (.unencodable .write k)
  | .enter => Session.enter
  | .leave => Session.leave
  | .sort offsets => onBytes do .set (← .lift (l.sortEntries offsets (← .get)))

end Bytewire.Write
