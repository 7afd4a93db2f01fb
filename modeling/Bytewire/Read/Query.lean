import Bytewire.Bytes.Text
import Bytewire.Layout
import Bytewire.Primitive
import Bytewire.Session

/-! What a reader is asked, one query at a time, and what it answers. A query that fails says in
its fault why, and how much it has used up by then is part of its meaning: a length that is refused
is used up, text that is not all there is not. A `natural` and an `integer` are 128-bit words, without
a sign and with one. -/
namespace Bytewire.Read
open Session

structure Source where
  layout : Layout
  limits : Limits
  input : Bytes
deriving DecidableEq, Repr

def offset (src : Source) (s : Session) : Nat := src.input.length - s.bytes.length

theorem offset_append {src : Source} {b t : Bytes} (h : src.input = b ++ t) (n : Nat) :
    offset src ⟨n, t⟩ = b.length := by
  rw [offset, h, List.length_append, Nat.add_sub_cancel]

inductive Query where
  | unit
  | bool
  | tag
  | uint (w : Width)
  | int (w : Width)
  | natural
  | integer
  | text
  | bytes
  | length
  | variant
  | unencodable (k : Unencodable)
  | enter
  | leave
  | keys (previous current : Bytes)
  | remaining
  | input
  | finish
deriving DecidableEq, Repr

abbrev Query.Result : Query → Type
  | .unit | .enter | .leave | .keys _ _ | .finish => Unit
  | .bool | .tag => Bool
  | .uint w | .int w => Word w
  | .natural | .length | .remaining => Nat
  | .integer => Int
  | .text => String
  | .bytes | .input => Bytes
  | .variant => UInt32
  | .unencodable _ => Empty

variable (src : Source)

def word (w : Width) : Attempt Session (Word w) := do
  return BitVec.ofNat w.bits (LittleEndian.decode (← onBytes (Unread.take w.bytes)))

def flag : Attempt Session Bool := do
  let b ← word .w8
  if b.toNat = 0 then pure false
  else if b.toNat = 1 then pure true
  else .fail (.invalidBool (UInt8.ofNat b.toNat))

def length : Attempt Session Nat := do
  let n ← onBytes src.layout.readLength
  if src.limits.Allows n then pure n.toNat else .fail (.invalidLength n)

def counted : Attempt Session Bytes := do
  onBytes (Unread.take (← length src))

def Query.run : (q : Query) → Attempt Session q.Result
  | .unit => pure ()
  | .bool | .tag => flag
  | .uint w | .int w => word w
  | .natural => do return (← word .w128).toNat
  | .integer => do return (← word .w128).toInt
  | .text => do .lift (Text.decode (← counted src))
  | .bytes => counted src
  | .length => Read.length src
  | .variant => onBytes src.layout.readVariant
  | .unencodable k => .fail (.unencodable .read k)
  | .enter => Session.enter
  | .leave => Session.leave
  | .keys previous current => .lift (src.layout.checkKeys previous current)
  | .remaining => do return (← .get).bytes.length
  | .input => pure src.input
  | .finish => do
    let n := (← .get).bytes.length
    if n = 0 then pure () else .fail (.extraData n)

theorem finish_eq (n : Nat) (t : Bytes) :
    Query.finish.run src ⟨n, t⟩ =
      (if t = [] then .ok () else .error (.extraData t.length), ⟨n, t⟩) := by
  cases t with
  | nil => rfl
  | cons x t => rfl

inductive Answer where
  | nothing
  | number (n : Int)
  | truth (b : Bool)
  | bytes (b : Bytes)
deriving DecidableEq, Repr

def Query.answer : (q : Query) → q.Result → Answer
  | .unit, _ | .enter, _ | .leave, _ | .keys _ _, _ | .finish, _ => .nothing
  | .bool, b | .tag, b => .truth b
  | .uint _, v => .number v.toNat
  | .int _, v => .number v.toInt
  | .natural, n | .length, n | .remaining, n => .number n
  | .integer, z => .number z
  | .text, s => .bytes (Text.encode s)
  | .bytes, b | .input, b => .bytes b
  | .variant, i => .number i.toNat
  | .unencodable _, r => nomatch r

end Bytewire.Read
