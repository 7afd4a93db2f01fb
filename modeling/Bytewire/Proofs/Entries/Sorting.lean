import Bytewire.Bytes.Order
import Bytewire.Entries

/-! Sorting entries that lie one behind the other at the end of a buffer: marked by where they
begin, they are cut apart as they were put together and stay there in the order of their bytes. -/
namespace Bytewire.Entries
variable {front : Bytes} {es : List Bytes} {e : Bytes} {o n : Nat}

def starts : Nat → List Bytes → List Nat
  | _, [] => []
  | o, e :: es => o :: starts (o + e.length) es

theorem length_starts (o : Nat) (es : List Bytes) : (starts o es).length = es.length := by
  induction es generalizing o with
  | nil => rfl
  | cons e es ih => simp [starts, ih]

theorem le_of_mem_starts (h : n ∈ starts o es) : o ≤ n ∧ n ≤ o + es.flatten.length := by
  induction es generalizing o with
  | nil => cases h
  | cons e es ih =>
    rw [List.flatten_cons, List.length_append]
    rcases List.mem_cons.1 h with rfl | h
    · omega
    · have := ih h
      omega

theorem pairwise_starts (o : Nat) (es : List Bytes) : (starts o es).Pairwise (· ≤ ·) := by
  induction es generalizing o with
  | nil => exact .nil
  | cons e es ih =>
    refine .cons ?_ (ih _)
    intro n hn
    have := le_of_mem_starts hn
    omega

theorem spans_starts_cons (o : Nat) (e : Bytes) (es : List Bytes) :
    spans (starts o (e :: es)) (o + (e :: es).flatten.length) =
      (o, o + e.length) :: spans (starts (o + e.length) es) (o + e.length + es.flatten.length) := by
  cases es with
  | nil => simp [starts, spans]
  | cons e' es => simp [starts, spans, Nat.add_assoc]

theorem slice_append (front e rest : Bytes) :
    slice (front ++ (e ++ rest)) front.length (front.length + e.length) = .ok e := by
  rw [slice_eq (by omega) (by simp)]
  simp [List.take_append]

/-- Entries are cut apart where they were put together. -/
theorem cut_starts (front : Bytes) (es : List Bytes) :
    cut (starts front.length es) (front ++ es.flatten) = .ok es := by
  rw [cut, List.length_append]
  induction es generalizing front with
  | nil => rfl
  | cons e es ih =>
    have hrest := ih (front ++ e)
    rw [List.length_append, List.append_assoc] at hrest
    rw [spans_starts_cons, List.mapM_cons, List.flatten_cons, slice_append, hrest]
    rfl

theorem sortable_starts (h : 2 ≤ es.length) (hn : o + es.flatten.length ≤ n) :
    Sortable (starts o es) n := by
  refine ⟨by rwa [length_starts], pairwise_starts o es, ?_⟩
  intro m hm
  have := le_of_mem_starts (List.mem_of_getLast? hm)
  omega

theorem sort_starts (front : Bytes) (es : List Bytes) :
    sort (starts front.length es) (front ++ es.flatten) =
      .ok (front ++ (es.mergeSort (fun x y => x ≤ y)).flatten) := by
  by_cases h : 2 ≤ es.length
  · have hlen := length_mergeSort_flatten es
    have hhead : (starts front.length es).headD 0 = front.length := by
      cases es with
      | nil => simp at h
      | cons e es => rfl
    rw [sort, if_pos (sortable_starts h (by simp)), cut_starts, hhead]
    simp [bind, Except.bind, overwrite, hlen]
  · have hsort : es.mergeSort (fun x y => x ≤ y) = es := by
      apply List.mergeSort_of_pairwise
      cases es with
      | nil => exact .nil
      | cons e es =>
        cases es with
        | nil => exact List.pairwise_singleton _ _
        | cons e' es => simp at h
    have hsortable : ¬ Sortable (starts front.length es) (front ++ es.flatten).length := by
      intro hs
      have := hs.1
      rw [length_starts] at this
      omega
    rw [sort, if_neg hsortable, hsort]
    rfl

end Bytewire.Entries
