import Bytewire.Value.Shape
import Bytewire.Layout

/-! The bytes that a value stands for in a layout, said without a writer. -/
namespace Bytewire

namespace Layout

def count (l : Layout) (n : Nat) : Bytes :=
  match l.coding with
  | .fixed => LittleEndian.encode 8 n
  | .compact => Base128.encode n

def arrange (l : Layout) (entries : List Bytes) : List Bytes :=
  if l.canonical then entries.mergeSort (fun x y => x ≤ y) else entries

variable {l : Layout} {n : Nat}

theorem lengthBytes_eq (h : n ≤ maxCompactLength) : l.lengthBytes n = .ok (l.count n) := by
  cases hc : l.coding with
  | fixed => rw [lengthBytes, count, hc]
  | compact => simp only [lengthBytes, count, hc, h, if_true]

end Layout

def Primitive.image (l : Layout) : Primitive → Bytes
  | unit => []
  | bool b => [if b then 1 else 0]
  | uint w v => LittleEndian.encode w.bytes v.toNat
  | int w v => LittleEndian.encode w.bytes v.toNat
  | text s => l.count (Text.encode s).length ++ Text.encode s
  | bytes b => l.count b.length ++ b
  | option none => [0]
  | option (some v) => 1 :: LittleEndian.encode Width.w64.bytes v.toNat
  | variant i => l.variantBytes i

namespace Value

mutual
def image (l : Layout) : Value → Bytes
  | .primitive p => p.image l
  | .tuple parts => imageAll l parts
  | .sequence items => l.count items.length ++ imageAll l items
  | .map entries => l.count entries.length ++ (l.arrange (imageEntries l entries)).flatten
def imageAll (l : Layout) : List Value → Bytes
  | [] => []
  | v :: vs => v.image l ++ imageAll l vs
def imageEntries (l : Layout) : List (Value × Value) → List Bytes
  | [] => []
  | (k, v) :: es => (k.image l ++ v.image l) :: imageEntries l es
end

theorem imageAll_eq_flatten (l : Layout) (vs : List Value) :
    imageAll l vs = (vs.map (image l)).flatten := by
  induction vs with
  | nil => rfl
  | cons v vs ih => rw [imageAll, List.map_cons, List.flatten_cons, ih]

def entryImage (l : Layout) (e : Value × Value) : Bytes := e.1.image l ++ e.2.image l

theorem imageEntries_eq_map (l : Layout) (es : List (Value × Value)) :
    imageEntries l es = es.map (entryImage l) := by
  induction es with
  | nil => rfl
  | cons e es ih => rw [imageEntries, List.map_cons, ih, entryImage]

end Value
end Bytewire
