import Bytewire.Frame.Pack

/-! Frames said without packing or unpacking them: what a block is, what a list of blocks stands
for, and how a payload falls into blocks. -/
namespace Bytewire.Frame

def maxRun : Nat := 254

structure Block where
  data : Bytes
  length_le : data.length ≤ maxRun
  nonzero : ∀ x ∈ data, x ≠ terminator
deriving DecidableEq

namespace Block

def code (b : Block) : UInt8 := UInt8.ofNat (b.data.length + 1)

def bytes (b : Block) : Bytes := b.code :: b.data

/-- A full block stands for its bytes alone, any other also for a zero behind them. -/
def Full (b : Block) : Prop := b.data.length = maxRun

instance (b : Block) : Decidable b.Full := inferInstanceAs (Decidable (_ = _))

def text (b : Block) : Bytes := if b.Full then b.data else b.data ++ [terminator]

end Block

def ofBlocks (bs : List Block) : Bytes := bs.flatMap Block.bytes ++ [terminator]

def Framed (f : Bytes) : Prop := f = [] ∨ ∃ bs, f = ofBlocks bs

/-- Blocks, and behind them a code that counts the terminator among the bytes of its run. -/
def Overruns (f : Bytes) : Prop :=
  ∃ (bs : List Block) (c : UInt8) (data : Bytes),
    f = bs.flatMap Block.bytes ++ c :: data ++ [terminator] ∧ c.toNat = data.length + 2 ∧
      terminator ∉ data

def WellPacked (f : Bytes) : Prop :=
  f ≠ [1, 0] ∧ ∃ (bs : List Block) (b : Block), f = ofBlocks (bs ++ [b]) ∧ ¬ b.Full

/-- What the blocks stand for; the zero of the last one is not part of it. -/
def payload : List Block → Bytes
  | [] => []
  | [b] => b.data
  | b :: c :: bs => b.text ++ payload (c :: bs)

def segments : Bytes → List Bytes
  | [] => [[]]
  | x :: xs =>
    if x = terminator then [] :: segments xs
    else match segments xs with
      | [] => [[x]]
      | s :: ss => (x :: s) :: ss

def segmentBytes (s : Bytes) : Bytes :=
  if maxRun ≤ s.length then
    UInt8.ofNat fullCode :: (s.take maxRun ++ segmentBytes (s.drop maxRun))
  else UInt8.ofNat (s.length + 1) :: s
termination_by s.length
decreasing_by simp only [List.length_drop, maxRun] at *; omega

/-- The text of a frame read into another place, as far as it can be read, and whether that is all
of it. -/
def expand : Bytes → Bytes × Bool
  | [] => ([], true)
  | c :: rest =>
    if rest.length + 1 < c.toNat ∧ c ≠ 1 then ([], false)
    else
      let run := c.toNat - 1
      let zero := if c.toNat ≠ fullCode ∧ run < rest.length then [terminator] else []
      let (text, complete) := expand (rest.drop run)
      (rest.take run ++ zero ++ text, complete)
termination_by f => f.length
decreasing_by simp only [List.length_drop, List.length_cons]; omega

end Bytewire.Frame
