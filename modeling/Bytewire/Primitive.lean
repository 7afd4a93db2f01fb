import Bytewire.Bytes.Buffer

/-! Values without parts, and their kinds. Words are `BitVec`s; a signed word is read in two's
complement. -/
namespace Bytewire

inductive Width where
  | w8
  | w16
  | w32
  | w64
  | w128
deriving DecidableEq, Repr

def Width.bytes : Width → Nat
  | .w8 => 1
  | .w16 => 2
  | .w32 => 4
  | .w64 => 8
  | .w128 => 16

def Width.bits (w : Width) : Nat := 8 * w.bytes

def maxNatural : Nat := 0xffffffffffffffffffffffffffffffff

def maxInteger : Nat := 0x7fffffffffffffffffffffffffffffff

abbrev Word (w : Width) := BitVec w.bits

inductive Kind where
  | unit
  | bool
  | uint (w : Width)
  | int (w : Width)
  | text
  | bytes
  | option
  | variant
deriving DecidableEq, Repr

inductive Primitive where
  | unit
  | bool (b : Bool)
  | uint (w : Width) (v : Word w)
  | int (w : Width) (v : Word w)
  | text (s : String)
  | bytes (b : Bytes)
  | option (v : Option (Word .w64))
  | variant (i : UInt32)
deriving DecidableEq, Repr

def Primitive.kind : Primitive → Kind
  | unit => .unit
  | bool _ => .bool
  | uint w _ => .uint w
  | int w _ => .int w
  | text _ => .text
  | bytes _ => .bytes
  | option _ => .option
  | variant _ => .variant

end Bytewire
