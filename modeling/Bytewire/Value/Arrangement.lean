import Bytewire.Value.Image

/-! Nested maps: the schemas that fit them, the ways in which the order of their entries may
differ, and conditions on the keys of each of them. -/
namespace Bytewire.Value

/-- A value without maps fits its own shape. A map fits if its keys hold no maps and have one
shape, such as a fixed list of kinds, and its values fit one schema, so they may be maps again. -/
inductive Fits : Schema → Value → Prop where
  | mapFree (v : Value) (h : v.MapFree) : Fits v.shape v
  | map (key value : Schema) (es : List (Value × Value))
    (hkey : ∀ e ∈ es, e.1.MapFree ∧ e.1.shape = key) (hvalue : ∀ e ∈ es, Fits value e.2) :
    Fits (.map key value) (.map es)

/-- The same but for the order of the entries in a map or in maps within it. -/
inductive Rearranged : Value → Value → Prop where
  | refl (v : Value) : Rearranged v v
  | trans {u v w : Value} (h : Rearranged u v) (h' : Rearranged v w) : Rearranged u w
  | entries {es fs : List (Value × Value)} (h : es.Perm fs) : Rearranged (.map es) (.map fs)
  | within (es fs : List (Value × Value)) (k : Value) {v w : Value} (h : Rearranged v w) :
    Rearranged (.map (es ++ (k, v) :: fs)) (.map (es ++ (k, w) :: fs))

/-- The same but for the order of the entries in maps, wherever in the value they are, in a key
too. -/
inductive Reordered : Value → Value → Prop where
  | refl (v : Value) : Reordered v v
  | trans {u v w : Value} (h : Reordered u v) (h' : Reordered v w) : Reordered u w
  | entries {es fs : List (Value × Value)} (h : es.Perm fs) : Reordered (.map es) (.map fs)
  | part (us vs : List Value) {v w : Value} (h : Reordered v w) :
    Reordered (.tuple (us ++ v :: vs)) (.tuple (us ++ w :: vs))
  | item (us vs : List Value) {v w : Value} (h : Reordered v w) :
    Reordered (.sequence (us ++ v :: vs)) (.sequence (us ++ w :: vs))
  | key (es fs : List (Value × Value)) {j k : Value} (v : Value) (h : Reordered j k) :
    Reordered (.map (es ++ (j, v) :: fs)) (.map (es ++ (k, v) :: fs))
  | value (es fs : List (Value × Value)) (k : Value) {v w : Value} (h : Reordered v w) :
    Reordered (.map (es ++ (k, v) :: fs)) (.map (es ++ (k, w) :: fs))

inductive KeysPairwise (r : Value → Value → Prop) : Value → Prop where
  | mapFree {v : Value} (h : v.MapFree) : KeysPairwise r v
  | map {es : List (Value × Value)} (hkeys : es.Pairwise fun e f => r e.1 f.1)
    (hvalues : ∀ e ∈ es, KeysPairwise r e.2) : KeysPairwise r (.map es)

def Distinct (v : Value) : Prop := v.KeysPairwise (· ≠ ·)

def Increasing (l : Layout) (v : Value) : Prop := v.KeysPairwise fun j k => j.image l < k.image l

variable {es fs : List (Value × Value)} {v w : Value} {r : Value → Value → Prop} {n : Nat}

theorem keysPairwise_map_iff :
    (Value.map es).KeysPairwise r ↔
      (es.Pairwise fun e f => r e.1 f.1) ∧ ∀ e ∈ es, e.2.KeysPairwise r := by
  constructor
  · intro h
    cases h with
    | mapFree h => cases h
    | map hkeys hvalues => exact ⟨hkeys, hvalues⟩
  · rintro ⟨hkeys, hvalues⟩
    exact .map hkeys hvalues

theorem describeAll_replace {ss : List Schema} {us vs : List Value}
    (h : ∀ s : Schema, s.Describes v → s.Describes w)
    (hd : Schema.DescribeAll ss (us ++ v :: vs)) : Schema.DescribeAll ss (us ++ w :: vs) := by
  induction ss generalizing us with
  | nil => cases us <;> exact hd.elim
  | cons s ss ih =>
    cases us with
    | nil => exact ⟨h s hd.1, hd.2⟩
    | cons u us => exact ⟨hd.1, ih hd.2⟩

namespace Reordered

theorem longest_le (h : Reordered v w) (hv : v.longest ≤ n) : w.longest ≤ n := by
  induction h with
  | refl v => exact hv
  | trans _ _ ih ih' => exact ih' (ih hv)
  | entries h =>
    rw [longest_map_le_iff] at hv ⊢
    exact ⟨h.length_eq ▸ hv.1, fun e he => hv.2 e (h.mem_iff.2 he)⟩
  | part us vs _ ih =>
    simp only [longest, longestAll_le_iff, List.forall_mem_append, List.forall_mem_cons] at hv ⊢
    exact ⟨hv.1, ih hv.2.1, hv.2.2⟩
  | item us vs _ ih =>
    rw [longest_sequence_le_iff, List.forall_mem_append, List.forall_mem_cons] at hv ⊢
    obtain ⟨hlen, hus, hv, hvs⟩ := hv
    exact ⟨by simpa using hlen, hus, ih hv, hvs⟩
  | key es fs v _ ih =>
    rw [longest_map_le_iff, List.forall_mem_append, List.forall_mem_cons] at hv ⊢
    obtain ⟨hlen, hes, ⟨hk, hv⟩, hfs⟩ := hv
    exact ⟨by simpa using hlen, hes, ⟨ih hk, hv⟩, hfs⟩
  | value es fs k _ ih =>
    rw [longest_map_le_iff, List.forall_mem_append, List.forall_mem_cons] at hv ⊢
    obtain ⟨hlen, hes, ⟨hk, hv⟩, hfs⟩ := hv
    exact ⟨by simpa using hlen, hes, ⟨hk, ih hv⟩, hfs⟩

theorem height_le (h : Reordered v w) (hv : v.height ≤ n) : w.height ≤ n := by
  induction h generalizing n with
  | refl v => exact hv
  | trans _ _ ih ih' => exact ih' (ih hv)
  | part us vs _ ih =>
    simp only [height, heightAll_le_iff, List.forall_mem_append, List.forall_mem_cons] at hv ⊢
    exact ⟨hv.1, ih hv.2.1, hv.2.2⟩
  | item us vs _ ih =>
    obtain ⟨m, rfl⟩ := exists_eq_succ_of_height_sequence_le hv
    rw [height_sequence_le_succ_iff, List.forall_mem_append, List.forall_mem_cons] at hv ⊢
    exact ⟨hv.1, ih hv.2.1, hv.2.2⟩
  | entries h =>
    obtain ⟨m, rfl⟩ := exists_eq_succ_of_height_map_le hv
    rw [height_map_le_succ_iff] at hv ⊢
    intro e he
    exact hv e (h.mem_iff.2 he)
  | key es fs v _ ih =>
    obtain ⟨m, rfl⟩ := exists_eq_succ_of_height_map_le hv
    rw [height_map_le_succ_iff, List.forall_mem_append, List.forall_mem_cons] at hv ⊢
    obtain ⟨hes, ⟨hk, hv⟩, hfs⟩ := hv
    exact ⟨hes, ⟨ih hk, hv⟩, hfs⟩
  | value es fs k _ ih =>
    obtain ⟨m, rfl⟩ := exists_eq_succ_of_height_map_le hv
    rw [height_map_le_succ_iff, List.forall_mem_append, List.forall_mem_cons] at hv ⊢
    obtain ⟨hes, ⟨hk, hv⟩, hfs⟩ := hv
    exact ⟨hes, ⟨hk, ih hv⟩, hfs⟩

/-- A schema describes a value in whatever order its entries are. -/
theorem describes (h : Reordered v w) (s : Schema) (hd : s.Describes v) : s.Describes w := by
  induction h generalizing s with
  | refl v => exact hd
  | trans _ _ ih ih' => exact ih' s (ih s hd)
  | part us vs _ ih =>
    cases s with
    | tuple parts => exact describeAll_replace ih hd
    | _ => exact hd.elim
  | item us vs _ ih =>
    cases s with
    | sequence item =>
      simp only [Schema.Describes, List.forall_mem_append, List.forall_mem_cons] at hd ⊢
      exact ⟨hd.1, ih item hd.2.1, hd.2.2⟩
    | listed items => exact describeAll_replace ih hd
    | _ => exact hd.elim
  | entries h =>
    cases s with
    | map key value => exact fun e he => hd e (h.mem_iff.2 he)
    | _ => exact hd.elim
  | key es fs v _ ih =>
    cases s with
    | map key value =>
      simp only [Schema.Describes, List.forall_mem_append, List.forall_mem_cons] at hd ⊢
      exact ⟨hd.1, ⟨ih key hd.2.1.1, hd.2.1.2⟩, hd.2.2⟩
    | _ => exact hd.elim
  | value es fs k _ ih =>
    cases s with
    | map key value =>
      simp only [Schema.Describes, List.forall_mem_append, List.forall_mem_cons] at hd ⊢
      exact ⟨hd.1, ⟨hd.2.1.1, ih value hd.2.1.2⟩, hd.2.2⟩
    | _ => exact hd.elim

end Reordered

namespace Rearranged

theorem reordered (h : Rearranged v w) : Reordered v w := by
  induction h with
  | refl v => exact .refl v
  | trans _ _ ih ih' => exact ih.trans ih'
  | entries h => exact .entries h
  | within es fs k _ ih => exact .value es fs k ih

theorem longest_le (h : Rearranged v w) (hv : v.longest ≤ n) : w.longest ≤ n :=
  h.reordered.longest_le hv

theorem height_le (h : Rearranged v w) (hv : v.height ≤ n) : w.height ≤ n :=
  h.reordered.height_le hv

end Rearranged
end Bytewire.Value
