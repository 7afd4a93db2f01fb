import Bytewire.Primitive

/-! Values with parts, and the schemas by which they are read. -/
namespace Bytewire

inductive Value where
  | primitive (p : Primitive)
  | tuple (parts : List Value)
  | sequence (items : List Value)
  | map (entries : List (Value × Value))

inductive Schema where
  | primitive (k : Kind)
  | tuple (parts : List Schema)
  | sequence (item : Schema)
  /-- A sequence with a schema for each item; it has as many items as schemas. -/
  | listed (items : List Schema)
  | map (key value : Schema)

/-- Induction over all parts of a value, keys and values of entries included. -/
theorem Value.induct {P : Value → Prop} (primitive : ∀ p, P (.primitive p))
    (tuple : ∀ parts, (∀ v ∈ parts, P v) → P (.tuple parts))
    (sequence : ∀ items, (∀ v ∈ items, P v) → P (.sequence items))
    (map : ∀ entries, (∀ e ∈ entries, P e.1 ∧ P e.2) → P (.map entries)) : ∀ v, P v
  | .primitive p => primitive p
  | .tuple parts => tuple parts fun v _ => Value.induct primitive tuple sequence map v
  | .sequence items => sequence items fun v _ => Value.induct primitive tuple sequence map v
  | .map entries => map entries fun (k, v) h =>
    have : 1 + sizeOf k + sizeOf v < sizeOf entries := List.sizeOf_lt_of_mem h
    ⟨Value.induct primitive tuple sequence map k, Value.induct primitive tuple sequence map v⟩

/-- Induction over all parts of a schema. -/
theorem Schema.induct {P : Schema → Prop} (primitive : ∀ k, P (.primitive k))
    (tuple : ∀ parts, (∀ s ∈ parts, P s) → P (.tuple parts))
    (sequence : ∀ item, P item → P (.sequence item))
    (listed : ∀ items, (∀ s ∈ items, P s) → P (.listed items))
    (map : ∀ key value, P key → P value → P (.map key value)) : ∀ s, P s
  | .primitive k => primitive k
  | .tuple parts => tuple parts fun s _ => Schema.induct primitive tuple sequence listed map s
  | .sequence item => sequence item (Schema.induct primitive tuple sequence listed map item)
  | .listed items => listed items fun s _ => Schema.induct primitive tuple sequence listed map s
  | .map key value =>
    map key value (Schema.induct primitive tuple sequence listed map key)
      (Schema.induct primitive tuple sequence listed map value)

end Bytewire
