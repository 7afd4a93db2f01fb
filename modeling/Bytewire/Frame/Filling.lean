import Bytewire.Frame.Block

/-! How a payload falls into blocks, byte by byte and without a buffer: a zero ends the block that
is being filled and is not stored, and so does the byte that makes it full. -/
namespace Bytewire.Frame

namespace Block

def empty : Block := ⟨[], by decide, by simp⟩

def grow (b : Block) (x : UInt8) (hx : x ≠ terminator) (hb : ¬ b.Full) : Block where
  data := b.data ++ [x]
  length_le := by
    have hle := b.length_le
    rw [Full] at hb
    rw [List.length_append, List.length_singleton]
    omega
  nonzero := by
    intro y hy
    rcases List.mem_append.1 hy with hy | hy
    · exact b.nonzero y hy
    · rwa [List.mem_singleton.1 hy]

@[simp] theorem data_grow (b : Block) (x : UInt8) (hx : x ≠ terminator) (hb : ¬ b.Full) :
    (b.grow x hx hb).data = b.data ++ [x] := rfl

theorem not_full_empty : ¬ empty.Full := by decide

end Block

structure Filling where
  closed : List Block
  current : Block
  room : ¬ current.Full

namespace Filling

def first : Filling := ⟨[], .empty, Block.not_full_empty⟩

def close (cs : List Block) (b : Block) : Filling := ⟨cs ++ [b], .empty, Block.not_full_empty⟩

def place (cs : List Block) (b : Block) : Filling := if h : b.Full then close cs b else ⟨cs, b, h⟩

def push (s : Filling) (x : UInt8) : Filling :=
  if h : x = terminator then close s.closed s.current
  else place s.closed (s.current.grow x h s.room)

def pushAll (s : Filling) : Bytes → Filling
  | [] => s
  | x :: xs => (s.push x).pushAll xs

def blocks (s : Filling) : List Block := s.closed ++ [s.current]

def text (s : Filling) : Bytes := s.closed.flatMap Block.text ++ s.current.data

def extent (s : Filling) : Nat := (s.closed.flatMap Block.bytes).length + 1 + s.current.data.length

variable {cs : List Block} {b : Block} {s : Filling} {x : UInt8}

theorem text_close (hb : ¬ b.Full) :
    (close cs b).text = cs.flatMap Block.text ++ b.data ++ [terminator] := by
  simp only [close, text, List.flatMap_append, List.flatMap_singleton, Block.text, hb, if_false,
    Block.empty, List.append_nil, List.append_assoc]

theorem text_place : (place cs b).text = cs.flatMap Block.text ++ b.data := by
  by_cases hb : b.Full
  · simp only [place, hb, dif_pos, close, text, List.flatMap_append, List.flatMap_singleton,
      Block.text, if_true, Block.empty, List.append_nil]
  · rw [place, dif_neg hb]
    rfl

theorem text_push (s : Filling) (x : UInt8) : (s.push x).text = s.text ++ [x] := by
  by_cases hx : x = terminator
  · rw [push, dif_pos hx, text_close s.room, hx]
    rfl
  · rw [push, dif_neg hx, text_place, Block.data_grow, text, List.append_assoc]

theorem text_pushAll (s : Filling) (xs : Bytes) : (s.pushAll xs).text = s.text ++ xs := by
  induction xs generalizing s with
  | nil => rw [pushAll, List.append_nil]
  | cons x xs ih => rw [pushAll, ih, text_push, List.append_assoc, List.singleton_append]

theorem extent_mk (hb : ¬ b.Full) :
    extent ⟨cs, b, hb⟩ = (cs.flatMap Block.bytes).length + 1 + b.data.length := rfl

theorem extent_close (cs : List Block) (b : Block) :
    (close cs b).extent = (cs.flatMap Block.bytes).length + b.data.length + 2 := by
  simp only [close, extent, List.flatMap_append, List.flatMap_singleton, Block.bytes,
    List.length_append, List.length_cons, List.length_nil, Block.empty]
  omega

theorem extent_lt_push (s : Filling) (x : UInt8) : s.extent < (s.push x).extent := by
  by_cases hx : x = terminator
  · rw [push, dif_pos hx, extent_close, extent]
    omega
  · rw [push, dif_neg hx, place]
    split
    · rw [extent_close, extent, Block.data_grow, List.length_append, List.length_singleton]
      omega
    · rw [extent_mk, extent_mk, Block.data_grow, List.length_append, List.length_singleton]
      omega

theorem extent_le_pushAll (s : Filling) (xs : Bytes) : s.extent ≤ (s.pushAll xs).extent := by
  induction xs generalizing s with
  | nil => exact Nat.le_refl _
  | cons x xs ih => exact Nat.le_trans (Nat.le_of_lt (extent_lt_push s x)) (ih (s.push x))

end Filling

def blocksOf (p : Bytes) : List Block := (Filling.first.pushAll p).blocks

def frameOf (p : Bytes) : Bytes := if p = [] then [] else ofBlocks (blocksOf p)

theorem text_blocksOf (p : Bytes) : (blocksOf p).flatMap Block.text = p ++ [terminator] := by
  have htext : (Filling.first.pushAll p).text = p := Filling.text_pushAll _ p
  have hroom := (Filling.first.pushAll p).room
  rw [Filling.text] at htext
  rw [blocksOf, Filling.blocks, List.flatMap_append, List.flatMap_singleton, Block.text,
    if_neg hroom, ← List.append_assoc, htext]

end Bytewire.Frame
