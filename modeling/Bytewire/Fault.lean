/-! What can go wrong when bytes are written, read or framed, one constructor per cause.
The last two are what a machine would stop at. The wording stands in `Fault.message` and nowhere
else. -/
namespace Bytewire

inductive Direction where
  | write
  | read
deriving DecidableEq, Repr

inductive Unencodable where
  | char
  | float32
  | float64
deriving DecidableEq, Repr

inductive Fault where
  | endOfInput
  | lengthOverflow (length : Nat)
  | invalidLength (length : Int)
  | numberOverflow
  | depthExceeded
  | keysNotIncreasing
  | outOfRange (signed : Bool)
  | unencodable (direction : Direction) (kind : Unencodable)
  | truncatedFrame
  | invalidBool (byte : UInt8)
  | invalidText
  | extraData (count : Nat)
  | bufferTooSmall (needed available : Nat)
  | additionOverflow
  | outOfBounds
deriving DecidableEq, Repr

def Direction.method : Direction → String
  | .write => "serialize_"
  | .read => "deserialize_"

def Unencodable.method : Unencodable → String
  | .char => "char"
  | .float32 => "f32"
  | .float64 => "f64"

def Fault.message : Fault → String
  | endOfInput => "unexpected end of input"
  | lengthOverflow n => "length does not fit in 32 bits: " ++ toString n
  | invalidLength n => "invalid length: " ++ toString n
  | numberOverflow => "varint larger than 32 bits"
  | depthExceeded => "exceeded maximum container depth"
  | keysNotIncreasing => "map keys are not in strictly increasing order"
  | outOfRange false => "value out of range: invalid value for an unsigned int128"
  | outOfRange true => "value out of range: invalid value for a signed int128"
  | unencodable d k => "not supported: " ++ d.method ++ k.method
  | truncatedFrame => "not enough data to complete cobs frame"
  | invalidBool b => "invalid bool: " ++ toString b.toNat
  | invalidText => "invalid utf-8 in string"
  | extraData n => "extra data found: " ++ toString n ++ " bytes"
  | bufferTooSmall needed available =>
    "buffer too small: " ++ toString needed ++ " > " ++ toString available
  | additionOverflow => "attempt to add with overflow"
  | outOfBounds => "index out of bounds"

end Bytewire
