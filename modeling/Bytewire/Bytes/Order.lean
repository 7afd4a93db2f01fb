import Bytewire.Bytes.Buffer

/-! The order of byte strings, and what is left of it when more bytes follow. -/
namespace Bytewire
variable {u v x y : Bytes}

/-- Where the smaller string is no beginning of the other, a byte of both decides. -/
theorem append_lt_append (h : u < v) (hp : ¬ u <+: v) (x y : Bytes) : u ++ x < v ++ y := by
  induction u generalizing v with
  | nil => exact absurd List.nil_prefix hp
  | cons a u ih =>
    cases v with
    | nil => exact absurd h (List.not_lt_nil _)
    | cons b v =>
      rw [List.cons_append, List.cons_append]
      rcases List.cons_lt_cons_iff.1 h with hab | ⟨rfl, huv⟩
      · exact List.cons_lt_cons_iff.2 (.inl hab)
      · apply List.cons_lt_cons_iff.2
        refine .inr ⟨rfl, ih huv ?_⟩
        intro hbegins
        exact hp (List.cons_prefix_cons.2 ⟨rfl, hbegins⟩)

theorem append_le_append (h : u < v) (hp : ¬ u <+: v) (x y : Bytes) : u ++ x ≤ v ++ y :=
  List.le_of_lt (append_lt_append h hp x y)

theorem le_of_append_le (h : u ++ x ≤ v ++ y) (hp : v <+: u → v = u) : u ≤ v := by
  apply List.not_lt.1
  intro hlt
  have hne : ¬ v <+: u := by
    intro hbegins
    rw [hp hbegins] at hlt
    exact List.lt_irrefl u hlt
  exact List.not_lt.2 h (append_lt_append hlt hne y x)

/-- Strings in order of their first parts, of which none begins another one. -/
theorem pairwise_append_le {α : Type} {f : α → Bytes} (g : α → Bytes) {es : List α}
    (hf : ∀ e ∈ es, ∀ e' ∈ es, f e <+: f e' → f e = f e') (h : es.Pairwise fun e e' => f e < f e') :
    es.Pairwise fun e e' => f e ++ g e ≤ f e' ++ g e' := by
  refine h.imp_of_mem ?_
  intro e e' he he' hlt
  refine append_le_append hlt ?_ _ _
  intro hbegins
  rw [hf e he e' he' hbegins] at hlt
  exact List.lt_irrefl _ hlt

theorem pairwise_toList (previous : Option Bytes) : previous.toList.Pairwise (· < ·) := by
  cases previous with
  | none => exact .nil
  | some p => exact List.pairwise_singleton _ p

/-- A string behind those before it, of which there may be one, and before all others. -/
theorem pairwise_toList_cons_iff {previous : Option Bytes} {ds : List Bytes} :
    (previous.toList ++ u :: ds).Pairwise (· < ·) ↔
      (∀ p ∈ previous, p < u) ∧ (u :: ds).Pairwise (· < ·) := by
  cases previous with
  | none => simp
  | some p =>
    rw [Option.toList_some, List.singleton_append, List.pairwise_cons]
    constructor
    · intro h
      refine ⟨?_, h.2⟩
      intro q hq
      cases hq
      exact h.1 u List.mem_cons_self
    · intro h
      refine ⟨?_, h.2⟩
      intro q hq
      cases hq with
      | head => exact h.1 p rfl
      | tail _ hq => exact List.lt_trans (h.1 p rfl) ((List.pairwise_cons.1 h.2).1 q hq)

theorem pairwise_mergeSort_on {α : Type} (f : α → Bytes) (es : List α) :
    (es.mergeSort (fun e e' => f e ≤ f e')).Pairwise (fun e e' => f e ≤ f e') := by
  have htrans (e e' e'' : α) (h : decide (f e ≤ f e') = true) (h' : decide (f e' ≤ f e'') = true) :
      decide (f e ≤ f e'') = true :=
    decide_eq_true (List.le_trans (of_decide_eq_true h) (of_decide_eq_true h'))
  have htotal (e e' : α) : (decide (f e ≤ f e') || decide (f e' ≤ f e)) = true := by
    simpa using List.le_total (f e) (f e')
  exact (List.pairwise_mergeSort htrans htotal es).imp of_decide_eq_true

theorem length_mergeSort_flatten (ds : List Bytes) :
    (ds.mergeSort fun x y => x ≤ y).flatten.length = ds.flatten.length :=
  (List.mergeSort_perm ds _).flatten.length_eq

/-- Strings come out of sorting in the same order, whatever order they went in. -/
theorem mergeSort_eq_of_perm {es fs : List Bytes} (h : es.Perm fs) :
    es.mergeSort (fun x y => x ≤ y) = fs.mergeSort (fun x y => x ≤ y) := by
  have hanti (x y : Bytes) (_ : x ∈ es.mergeSort fun x y => x ≤ y)
      (_ : y ∈ fs.mergeSort fun x y => x ≤ y) (hxy : x ≤ y) (hyx : y ≤ x) : x = y :=
    List.le_antisymm hxy hyx
  have hperm := ((List.mergeSort_perm es fun x y => x ≤ y).trans h).trans
    (List.mergeSort_perm fs fun x y => x ≤ y).symm
  exact hperm.eq_of_pairwise hanti (pairwise_mergeSort_on id es) (pairwise_mergeSort_on id fs)

end Bytewire
