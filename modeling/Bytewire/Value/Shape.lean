import Bytewire.Bytes.Text
import Bytewire.Value.Basic

/-! Measures of values: what they hold, how deep they nest, how long their longest part is, and the
schemas that describe them, one of which mirrors them. -/
namespace Bytewire

def Primitive.counted : Primitive → Nat
  | text s => (Text.encode s).length
  | bytes b => b.length
  | _ => 0

namespace Value

inductive MapFree : Value → Prop where
  | primitive (p : Primitive) : MapFree (.primitive p)
  | tuple (parts : List Value) (h : ∀ v ∈ parts, MapFree v) : MapFree (.tuple parts)
  | sequence (items : List Value) (h : ∀ v ∈ items, MapFree v) : MapFree (.sequence items)

mutual
def height : Value → Nat
  | .primitive _ => 0
  | .tuple parts => heightAll parts
  | .sequence items => heightAll items + 1
  | .map entries => heightEntries entries + 1
def heightAll : List Value → Nat
  | [] => 0
  | v :: vs => max v.height (heightAll vs)
def heightEntries : List (Value × Value) → Nat
  | [] => 0
  | (k, v) :: es => max (max k.height v.height) (heightEntries es)
end

mutual
def longest : Value → Nat
  | .primitive p => p.counted
  | .tuple parts => longestAll parts
  | .sequence items => max items.length (longestAll items)
  | .map entries => max entries.length (longestEntries entries)
def longestAll : List Value → Nat
  | [] => 0
  | v :: vs => max v.longest (longestAll vs)
def longestEntries : List (Value × Value) → Nat
  | [] => 0
  | (k, v) :: es => max (max k.longest v.longest) (longestEntries es)
end

mutual
/-- The value as its own schema. A map is described by its first entry. -/
def shape : Value → Schema
  | .primitive p => .primitive p.kind
  | .tuple parts => .tuple (shapeAll parts)
  | .sequence items => .listed (shapeAll items)
  | .map entries => shapeEntries entries
def shapeAll : List Value → List Schema
  | [] => []
  | v :: vs => v.shape :: shapeAll vs
def shapeEntries : List (Value × Value) → Schema
  | [] => .map (.tuple []) (.tuple [])
  | (k, v) :: _ => .map k.shape v.shape
end

end Value

mutual
def Schema.Describes : Schema → Value → Prop
  | .primitive k, .primitive p => p.kind = k
  | .tuple parts, .tuple vs => Schema.DescribeAll parts vs
  | .sequence item, .sequence vs => ∀ v ∈ vs, item.Describes v
  | .listed items, .sequence vs => Schema.DescribeAll items vs
  | .map key value, .map es => ∀ e ∈ es, key.Describes e.1 ∧ value.Describes e.2
  | _, _ => False
def Schema.DescribeAll : List Schema → List Value → Prop
  | [], [] => True
  | s :: ss, v :: vs => s.Describes v ∧ Schema.DescribeAll ss vs
  | _, _ => False
end

namespace Schema
variable {s : Schema} {ss : List Schema} {vs : List Value}

theorem DescribeAll.length_eq (h : DescribeAll ss vs) : vs.length = ss.length := by
  induction ss generalizing vs with
  | nil =>
    cases vs with
    | nil => rfl
    | cons v vs => exact h.elim
  | cons s ss ih =>
    cases vs with
    | nil => exact h.elim
    | cons v vs => rw [List.length_cons, ih h.2, List.length_cons]

/-- A sequence of items of one kind, as a list with the kind repeated. -/
theorem describeAll_replicate_iff :
    DescribeAll (List.replicate vs.length s) vs ↔ ∀ v ∈ vs, s.Describes v := by
  induction vs with
  | nil => simp [DescribeAll]
  | cons v vs ih =>
    rw [List.length_cons, List.replicate_succ, DescribeAll, ih, List.forall_mem_cons]

end Schema

namespace Value

section
variable {vs : List Value} {es : List (Value × Value)} {n : Nat}

theorem mapFree_tuple_iff : (Value.tuple vs).MapFree ↔ ∀ v ∈ vs, v.MapFree := by
  constructor
  · intro h
    cases h with
    | tuple _ h => exact h
  · exact MapFree.tuple vs

theorem mapFree_sequence_iff : (Value.sequence vs).MapFree ↔ ∀ v ∈ vs, v.MapFree := by
  constructor
  · intro h
    cases h with
    | sequence _ h => exact h
  · exact MapFree.sequence vs

theorem not_mapFree_map (es : List (Value × Value)) : ¬ (Value.map es).MapFree := by
  intro h
  cases h

theorem longestAll_le_iff : longestAll vs ≤ n ↔ ∀ v ∈ vs, v.longest ≤ n := by
  induction vs with
  | nil => simp [longestAll]
  | cons v vs ih => rw [longestAll, Nat.max_le, ih, List.forall_mem_cons]

theorem heightAll_le_iff : heightAll vs ≤ n ↔ ∀ v ∈ vs, v.height ≤ n := by
  induction vs with
  | nil => simp [heightAll]
  | cons v vs ih => rw [heightAll, Nat.max_le, ih, List.forall_mem_cons]

theorem longestEntries_le_iff :
    longestEntries es ≤ n ↔ ∀ e ∈ es, e.1.longest ≤ n ∧ e.2.longest ≤ n := by
  induction es with
  | nil => simp [longestEntries]
  | cons e es ih =>
    cases e with
    | mk k v => rw [longestEntries, Nat.max_le, Nat.max_le, ih, List.forall_mem_cons]

theorem heightEntries_le_iff :
    heightEntries es ≤ n ↔ ∀ e ∈ es, e.1.height ≤ n ∧ e.2.height ≤ n := by
  induction es with
  | nil => simp [heightEntries]
  | cons e es ih =>
    cases e with
    | mk k v => rw [heightEntries, Nat.max_le, Nat.max_le, ih, List.forall_mem_cons]

theorem longest_sequence_le_iff :
    (Value.sequence vs).longest ≤ n ↔ vs.length ≤ n ∧ ∀ v ∈ vs, v.longest ≤ n := by
  rw [longest, Nat.max_le, longestAll_le_iff]

theorem height_sequence_le_succ_iff :
    (Value.sequence vs).height ≤ n + 1 ↔ ∀ v ∈ vs, v.height ≤ n := by
  rw [height, Nat.add_le_add_iff_right, heightAll_le_iff]

theorem exists_eq_succ_of_height_sequence_le (h : (Value.sequence vs).height ≤ n) :
    ∃ m, n = m + 1 := by
  rw [height] at h
  exact ⟨n - 1, by omega⟩

theorem exists_eq_succ_of_height_map_le (h : (Value.map es).height ≤ n) : ∃ m, n = m + 1 := by
  rw [height] at h
  exact ⟨n - 1, by omega⟩

theorem longest_map_le_iff :
    (Value.map es).longest ≤ n ↔
      es.length ≤ n ∧ ∀ e ∈ es, e.1.longest ≤ n ∧ e.2.longest ≤ n := by
  rw [longest, Nat.max_le, longestEntries_le_iff]

theorem height_map_le_succ_iff :
    (Value.map es).height ≤ n + 1 ↔ ∀ e ∈ es, e.1.height ≤ n ∧ e.2.height ≤ n := by
  rw [height, Nat.add_le_add_iff_right, heightEntries_le_iff]

end

theorem describeAll_shapeAll {vs : List Value} (h : ∀ v ∈ vs, v.shape.Describes v) :
    Schema.DescribeAll (shapeAll vs) vs := by
  induction vs with
  | nil => trivial
  | cons v vs ih =>
    rw [List.forall_mem_cons] at h
    exact ⟨h.1, ih h.2⟩

/-- A value without maps is described by its own shape. -/
theorem MapFree.describes_shape {v : Value} (h : v.MapFree) : v.shape.Describes v := by
  induction h with
  | primitive p => rfl
  | tuple parts _ ih => exact describeAll_shapeAll ih
  | sequence items _ ih => exact describeAll_shapeAll ih

end Value
end Bytewire
