import Bytewire.Bytes.Patch
import Bytewire.Proofs.Entries.Sorting
import Bytewire.Proofs.Read.Machine
import Bytewire.Write.Machine

/-! Sorting by any offsets. Where they are in order and the last one is inside, they are where the
entries begin that they cut a buffer into, so that each entry lies inside and the entries in another
order are as long together. The machine, which reckons every end and puts the entries back one by
one, never stops. -/
namespace Bytewire

namespace Entries
variable {offsets os : List Nat} {b front : Bytes} {es ds : List Bytes} {o n : Nat}

/-- The entries that offsets mark in a buffer: each lies inside, and it reaches to the next offset,
the last one to the end of the buffer. -/
structure Marks (offsets : List Nat) (b : Bytes) (es : List Bytes) : Prop where
  length : es.length = offsets.length
  entry : ∀ i o, offsets[i]? = some o →
    ∃ e, es[i]? = some e ∧ slice b o (offsets[i + 1]?.getD b.length) = .ok e

theorem le_getLast (h : offsets.Pairwise (· ≤ ·)) (ho : o ∈ offsets) :
    ∀ n ∈ offsets.getLast?, o ≤ n := by
  intro n hn
  obtain ⟨front, rfl⟩ := List.getLast?_eq_some_iff.1 hn
  rcases List.mem_append.1 ho with ho | ho
  · exact (List.pairwise_append.1 h).2.2 o ho n List.mem_cons_self
  · exact Nat.le_of_eq (List.mem_singleton.1 ho)

theorem not_sortable_iff : ¬ Sortable offsets n ↔
    offsets.length < 2 ∨ ¬ offsets.Pairwise (· ≤ ·) ∨ ∃ last ∈ offsets.getLast?, n < last := by
  simp only [Sortable, Classical.not_and_iff_not_or_not, Nat.not_le, Classical.not_forall,
    exists_prop]

/-- The order and the last offset place them all. -/
theorem Sortable.le_length (h : Sortable offsets n) (ho : o ∈ offsets) : o ≤ n := by
  obtain ⟨-, hordered, hlast⟩ := h
  cases hn : offsets.getLast? with
  | none =>
    rw [List.getLast?_eq_none_iff.1 hn] at ho
    cases ho
  | some m => exact Nat.le_trans (le_getLast hordered ho m hn) (hlast m hn)

/-- Offsets in order and inside a buffer are where the entries begin that they cut it into. -/
theorem exists_starts (h : (o :: os).Pairwise (· ≤ ·)) (hb : ∀ n ∈ o :: os, n ≤ b.length) :
    ∃ e es, starts o (e :: es) = o :: os ∧ (e :: es).flatten = b.drop o := by
  induction os generalizing o with
  | nil => exact ⟨b.drop o, [], rfl, List.flatten_singleton⟩
  | cons p os ih =>
    have hop : o ≤ p := List.rel_of_pairwise_cons h List.mem_cons_self
    have hp : p ≤ b.length := hb p (List.mem_cons_of_mem o List.mem_cons_self)
    obtain ⟨e, es, hstarts, hflatten⟩ := ih h.of_cons fun n hn => hb n (List.mem_cons_of_mem o hn)
    refine ⟨(b.take p).drop o, e :: es, ?_, ?_⟩
    · rw [starts, List.length_drop, List.length_take, Nat.min_eq_left hp,
        Nat.add_sub_cancel' hop, hstarts]
    · have hlength : o ≤ (b.take p).length := by rwa [List.length_take, Nat.min_eq_left hp]
      rw [List.flatten_cons, hflatten, ← List.drop_append_of_le_length hlength,
        List.take_append_drop]

theorem Sortable.exists_entries (h : Sortable offsets b.length) :
    ∃ front e es, offsets = starts front.length (e :: es) ∧ b = front ++ (e :: es).flatten := by
  cases offsets with
  | nil => exact absurd h.1 (by decide)
  | cons o os =>
    have hinside : ∀ n ∈ o :: os, n ≤ b.length := fun n hn => h.le_length hn
    obtain ⟨e, es, hstarts, hflatten⟩ := exists_starts h.2.1 hinside
    refine ⟨b.take o, e, es, ?_, ?_⟩
    · rw [List.length_take, Nat.min_eq_left (hinside o List.mem_cons_self), hstarts]
    · rw [hflatten, List.take_append_drop]

theorem starts_head (o : Nat) (es : List Bytes) :
    (starts o es)[0]?.getD (o + es.flatten.length) = o := by
  cases es <;> simp [starts]

theorem slice_starts {i : Nat} (h : (starts front.length es)[i]? = some o) :
    ∃ e, es[i]? = some e ∧
      slice (front ++ es.flatten) o
        ((starts front.length es)[i + 1]?.getD (front.length + es.flatten.length)) = .ok e := by
  induction es generalizing front i with
  | nil => cases h
  | cons e es ih =>
    cases i with
    | zero =>
      cases h
      refine ⟨e, rfl, ?_⟩
      rw [starts, List.getElem?_cons_succ, List.flatten_cons, List.length_append, ← Nat.add_assoc,
        starts_head, slice_append]
    | succ i =>
      have hbehind : (starts (front ++ e).length es)[i]? = some o := by rwa [List.length_append]
      have hrest := ih hbehind
      simpa only [starts, List.getElem?_cons_succ, List.flatten_cons, List.length_append,
        List.append_assoc, Nat.add_assoc] using hrest

theorem marks_starts (front : Bytes) (es : List Bytes) :
    Marks (starts front.length es) (front ++ es.flatten) es where
  length := (length_starts _ es).symm
  entry i o h := by
    rw [List.length_append]
    exact slice_starts h

/-- Entries that are in order stay where they are. -/
theorem sort_starts_of_pairwise (front : Bytes) (h : ds.Pairwise (· ≤ ·)) :
    sort (starts front.length ds) (front ++ ds.flatten) = .ok (front ++ ds.flatten) := by
  have hsorted : (ds.mergeSort fun x y => x ≤ y) = ds :=
    List.mergeSort_of_pairwise (h.imp decide_eq_true)
  rw [sort_starts, hsorted]

end Entries

namespace Machine
open Entries
variable {offsets : List Nat} {b front copy : Bytes} {es : List Bytes} {o start position : Nat}

theorem ascending_iff : ascending offsets ↔ offsets.Pairwise (· ≤ ·) := by
  induction offsets with
  | nil => simp [ascending]
  | cons o os ih =>
    cases os with
    | nil => simp [ascending]
    | cons p os =>
      have hcons : ascending (o :: p :: os) ↔ o ≤ p ∧ ascending (p :: os) := by
        simp [ascending]
      rw [hcons, ih, List.pairwise_cons (a := o)]
      constructor
      · rintro ⟨hop, hrest⟩
        refine ⟨?_, hrest⟩
        intro n hn
        rcases List.mem_cons.1 hn with rfl | hn
        · exact hop
        · exact Nat.le_trans hop (List.rel_of_pairwise_cons hrest hn)
      · rintro ⟨hall, hrest⟩
        exact ⟨hall p List.mem_cons_self, hrest⟩

/-- What the machine passes over are the offsets that are not worth sorting. -/
theorem passed_over_iff (offsets : List Nat) (n : Nat) :
    (offsets.length ≤ 1 ∨ ¬ ascending offsets ∨ n < offsets.getLastD 0) ↔ ¬ Sortable offsets n := by
  rw [not_sortable_iff, ascending_iff, List.getLastD_eq_getLast?]
  cases offsets with
  | nil => simp
  | cons o os =>
    have hlength : (o :: os).length ≤ 1 ↔ (o :: os).length < 2 := Nat.lt_succ_iff.symm
    rw [hlength]
    simp [List.getLast?_cons]

/-- The ends of an entry fall in the copy where they fall in the buffer. -/
theorem entry_starts (pre e rest : Bytes) (start : Nat) :
    entry (pre ++ (e ++ rest)) start (start + pre.length, start + pre.length + e.length) = some e := by
  have hlow : sub (start + pre.length) start = some pre.length := by
    rw [sub_eq (Nat.le_add_right _ _), Nat.add_sub_cancel_left]
  have hhigh : sub (start + pre.length + e.length) start = some (pre.length + e.length) := by
    rw [Nat.add_assoc, sub_eq (Nat.le_add_right _ _), Nat.add_sub_cancel_left]
  have hpiece : piece (pre ++ (e ++ rest)) pre.length (pre.length + e.length) = some e := by
    rw [piece, slice_append]
    rfl
  simp only [entry, hlow, hhigh, hpiece, Option.bind_eq_bind, Option.bind_some]

theorem mapM_entry (pre : Bytes) (es : List Bytes) (start : Nat) :
    (spans (starts (start + pre.length) es) (start + pre.length + es.flatten.length)).mapM
      (entry (pre ++ es.flatten) start) = some es := by
  induction es generalizing pre with
  | nil => rfl
  | cons e es ih =>
    have hrest := ih (pre ++ e)
    rw [List.length_append, List.append_assoc, ← Nat.add_assoc] at hrest
    rw [spans_starts_cons, List.mapM_cons, List.flatten_cons, entry_starts, hrest]
    rfl

/-- Entries that fit lie one behind the other when they are put back. -/
theorem putBack_eq (h : position + es.flatten.length ≤ b.length) :
    putBack position es b = some (patch b position es.flatten) := by
  induction es generalizing position b with
  | nil => rw [putBack, List.flatten_nil, patch_nil]
  | cons e es ih =>
    rw [List.flatten_cons, List.length_append] at h
    have hfits : position + e.length ≤ b.length := by omega
    have hput : (overwrite b position e).toOption = some (patch b position e) := by
      rw [overwrite_eq hfits]
      rfl
    have hrest : position + e.length + es.flatten.length ≤ (patch b position e).length := by
      rw [length_patch hfits]
      omega
    rw [putBack, hput, List.flatten_cons, ← patch_patch hfits]
    exact ih hrest

/-- In the copy and back one by one it comes to what sorting in the buffer comes to. -/
theorem sortEntries_eq (offsets : List Nat) (b : Bytes) :
    sortEntries offsets b = (sort offsets b).toOption := by
  by_cases h : Sortable offsets b.length
  · have hsorts := mt (passed_over_iff _ _).1 (not_not_intro h)
    obtain ⟨front, e, es, rfl, rfl⟩ := h.exists_entries
    have hlength := length_mergeSort_flatten (e :: es)
    have hcopy : piece (front ++ (e :: es).flatten) front.length
        (front ++ (e :: es).flatten).length = some (e :: es).flatten := by
      rw [piece_eq (by simp) (Nat.le_refl _), List.take_length, List.drop_left]
    have hentries := mapM_entry [] (e :: es) front.length
    rw [List.length_nil, Nat.add_zero, List.nil_append, ← List.length_append] at hentries
    have hend : front.length + ((e :: es).mergeSort fun x y => x ≤ y).flatten.length =
        (front ++ (e :: es).flatten).length := by rw [hlength, List.length_append]
    have hput := putBack_eq (Nat.le_of_eq hend)
    rw [patch, hend, List.take_left, List.drop_length, List.append_nil] at hput
    have hhead : (starts front.length (e :: es)).headD 0 = front.length := rfl
    rw [sort_starts, sortEntries, if_neg hsorts, hhead]
    simp only [hcopy, hentries, hput, Option.bind_eq_bind, Option.bind_some]
    rfl
  · rw [sortEntries, if_pos ((passed_over_iff _ _).2 h), sort, if_neg h]
    rfl

end Machine

namespace Entries
variable {es : List Bytes} {o : Nat} {front : Bytes}

/-- A buffer before and after its entries from `o` on are sorted: as long, the same in front, and
behind it all the entries in the order of their bytes. By where they begin now they stay. -/
structure SortedFrom (o : Nat) (es : List Bytes) (b c : Bytes) : Prop where
  length : c.length = b.length
  front : c.take o = b.take o
  entries : ∃ ds, c.drop o = ds.flatten ∧ ds.Perm es ∧ ds.Pairwise (· ≤ ·) ∧
    sort (starts o ds) c = .ok c

theorem sortedFrom (front : Bytes) (es : List Bytes) :
    SortedFrom front.length es (front ++ es.flatten)
      (front ++ (es.mergeSort fun x y => x ≤ y).flatten) where
  length := by rw [List.length_append, List.length_append, length_mergeSort_flatten]
  front := by rw [List.take_left, List.take_left]
  entries := by
    have hordered : (es.mergeSort fun x y => x ≤ y).Pairwise (· ≤ ·) := pairwise_mergeSort_on id es
    exact ⟨_, List.drop_left, List.mergeSort_perm es _, hordered,
      sort_starts_of_pairwise front hordered⟩

/-- Offsets that are fewer than two, not in order or not inside leave the buffer as it is. By others
the entries that they mark are sorted, from the first offset on. The machine does the same and never
stops. -/
theorem sort_by_offsets (offsets : List Nat) (b : Bytes) :
    (offsets.length < 2 ∨ ¬ offsets.Pairwise (· ≤ ·) ∨
        (∃ last ∈ offsets.getLast?, b.length < last) → sort offsets b = .ok b) ∧
    (2 ≤ offsets.length → offsets.Pairwise (· ≤ ·) →
        (∀ last ∈ offsets.getLast?, last ≤ b.length) →
      ∃ o es c, offsets.head? = some o ∧ Marks offsets b es ∧ sort offsets b = .ok c ∧
        SortedFrom o es b c) ∧
    ∃ c, sort offsets b = .ok c ∧ Machine.sortEntries offsets b = some c := by
  rw [Machine.sortEntries_eq, ← not_sortable_iff]
  by_cases h : Sortable offsets b.length
  · obtain ⟨front, e, es, rfl, rfl⟩ := h.exists_entries
    have hsort := sort_starts front (e :: es)
    refine ⟨fun hn => absurd h hn, fun _ _ _ => ?_, _, hsort, by rw [hsort]; rfl⟩
    exact ⟨front.length, e :: es, _, rfl, marks_starts front _, hsort, sortedFrom front _⟩
  · have hsort : sort offsets b = .ok b := if_neg h
    refine ⟨fun _ => hsort, fun hlength hordered hlast => ?_, b, hsort, by rw [hsort]; rfl⟩
    exact absurd ⟨hlength, hordered, hlast⟩ h

/-- Two equal entries and an empty one, and offsets that are not in order. -/
theorem sort_by_offsets_repeated :
    let b : Bytes := [0xaa, 3, 0, 1, 9, 9, 3, 0]
    let offsets := [1, 3, 3, 6]
    2 ≤ offsets.length ∧ offsets.Pairwise (· ≤ ·) ∧ (∀ last ∈ offsets.getLast?, last ≤ b.length) ∧
      (∃ o es c, offsets.head? = some o ∧ Marks offsets b es ∧ sort offsets b = .ok c ∧
        SortedFrom o es b c) ∧
      ¬ [6, 3].Pairwise (· ≤ ·) ∧ sort [6, 3] b = .ok b := by
  intro b offsets
  have hlength : 2 ≤ offsets.length := by decide
  have hordered : offsets.Pairwise (· ≤ ·) := by decide
  have hlast : ∀ last ∈ offsets.getLast?, last ≤ b.length := by decide
  have hdescends : ¬ [6, 3].Pairwise (· ≤ ·) := by decide
  obtain ⟨-, hsorts, -⟩ := sort_by_offsets offsets b
  obtain ⟨hleaves, -⟩ := sort_by_offsets [6, 3] b
  exact ⟨hlength, hordered, hlast, hsorts hlength hordered hlast, hdescends,
    hleaves (.inr (.inl hdescends))⟩

example : sort [1, 3, 3, 6] [0xaa, 3, 0, 1, 9, 9, 3, 0] = .ok [0xaa, 1, 9, 9, 3, 0, 3, 0] := by cbv

end Entries
end Bytewire
