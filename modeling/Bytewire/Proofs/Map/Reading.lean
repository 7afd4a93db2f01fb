import Bytewire.Bytes.Order
import Bytewire.Proofs.Value.Reading
import Bytewire.Value.Arrangement

/-! What a reader makes of the image of nested maps under a canonical layout: where no map has a
key twice the entries come back in the order of their keys, and otherwise the order is at fault. -/
namespace Bytewire
open Session
variable {src : Read.Source} {n : Nat}

namespace Read.Program
variable {κ ν : Type} {key : Program κ} {value : Program ν} {previous : Option Bytes} {k : κ}
  {d b : Bytes} {m : Nat}

theorem inOrder_error (hc : src.layout.canonical) {p : Bytes} (h : ¬ p < d) (s : Session) :
    (inOrder (some p) d).run src s = (.error .keysNotIncreasing, s) := by
  have hcheck : src.layout.checkKeys p d = .error .keysNotIncreasing := by
    rw [Layout.checkKeys, if_pos hc, Entries.checkIncreasing, if_neg h]
  rw [inOrder, run_ask]
  exact congrArg (fun r => (r, s)) hcheck

theorem entries_succ_error (hk : key.run src ⟨n, d ++ b⟩ = (.ok k, ⟨n, b⟩))
    (hc : src.layout.canonical) {p : Bytes} (h : ¬ p < d) :
    (entries key value (some p) (m + 1)).run src ⟨n, d ++ b⟩ =
      (.error .keysNotIncreasing, ⟨n, b⟩) := by
  rw [entries, run_bind, run_capture, Attempt.bind_ok (capture_eq hk), run_bind]
  exact Attempt.bind_error (inOrder_error hc h _) _

end Read.Program

namespace Value
variable {s key value : Schema} {v : Value} {es : List (Value × Value)} {previous : Option Bytes}

/-- Images that are read back alike do not begin one another. -/
theorem ReadsBack.eq_of_isPrefix {j k : Value} (hj : ReadsBack src n key j j)
    (hk : ReadsBack src n key k k) (h : j.image src.layout <+: k.image src.layout) : j = k := by
  obtain ⟨x, hx⟩ := h
  have hkey := hk []
  rw [← hx, List.append_assoc, hj (x ++ []), Prod.mk.injEq] at hkey
  exact Except.ok.inj hkey.1

/-- Entries sorted by all their bytes are sorted by the bytes of their keys. -/
theorem pairwise_keys_le (hkey : ∀ e ∈ es, ReadsBack src n key e.1 e.1)
    (h : es.Pairwise fun e f => entryImage src.layout e ≤ entryImage src.layout f) :
    es.Pairwise fun e f => e.1.image src.layout ≤ f.1.image src.layout := by
  refine h.imp_of_mem ?_
  intro e f he hf hle
  refine le_of_append_le hle ?_
  intro hbegins
  rw [(hkey f hf).eq_of_isPrefix (hkey e he) hbegins]

theorem pairwise_keys_lt_iff (hkey : ∀ e ∈ es, ReadsBack src n key e.1 e.1)
    (h : es.Pairwise fun e f => e.1.image src.layout ≤ f.1.image src.layout) :
    (es.Pairwise fun e f => e.1.image src.layout < f.1.image src.layout) ↔
      es.Pairwise fun e f => e.1 ≠ f.1 := by
  constructor
  · intro hlt
    refine hlt.imp ?_
    intro e f hef heq
    rw [heq] at hef
    exact List.lt_irrefl _ hef
  · intro hne
    refine (h.and hne).imp_of_mem ?_
    rintro e f he hf ⟨hle, hne⟩
    rcases List.le_iff_lt_or_eq.1 hle with hlt | heq
    · exact hlt
    · have hbegins : e.1.image src.layout <+: f.1.image src.layout :=
        ⟨[], by rw [List.append_nil, heq]⟩
      exact absurd ((hkey e he).eq_of_isPrefix (hkey f hf) hbegins) hne

structure Canonically (src : Read.Source) (n : Nat) (s : Schema) (v : Value) : Prop where
  accepts : v.Distinct → ∃ w, Rearranged v w ∧ w.Increasing src.layout ∧ ReadsBack src n s v w
  refuses : ¬ v.Distinct → ∀ t, ∃ r,
    s.read.run src ⟨n, v.image src.layout ++ t⟩ = (.error .keysNotIncreasing, r)

def keyImages (l : Layout) (previous : Option Bytes) (es : List (Value × Value)) : List Bytes :=
  previous.toList ++ es.map fun e => e.1.image l

theorem pairwise_keyImages_nil {l : Layout} : (keyImages l previous []).Pairwise (· < ·) := by
  rw [keyImages, List.map_nil, List.append_nil]
  exact pairwise_toList previous

theorem pairwise_keyImages_cons_iff {l : Layout} {e : Value × Value} :
    (keyImages l previous (e :: es)).Pairwise (· < ·) ↔
      (∀ p ∈ previous, p < e.1.image l) ∧
        (keyImages l (some (e.1.image l)) es).Pairwise (· < ·) :=
  pairwise_toList_cons_iff

theorem entries_cons_error (hc : src.layout.canonical) {e : Value × Value} {p : Bytes}
    (hkey : ReadsBack src n key e.1 e.1) (h : ¬ p < e.1.image src.layout) (t : Bytes) :
    ∃ r, (Read.Program.entries key.read value.read (some p) (e :: es).length).run src
        ⟨n, ((e :: es).map (entryImage src.layout)).flatten ++ t⟩ =
      (.error .keysNotIncreasing, r) := by
  have hk := hkey (e.2.image src.layout ++ ((es.map (entryImage src.layout)).flatten ++ t))
  rw [List.map_cons, List.flatten_cons, entryImage, List.append_assoc, List.append_assoc]
  exact ⟨_, Read.Program.entries_succ_error hk hc h⟩

theorem entries_accepts (hkey : ∀ e ∈ es, ReadsBack src n key e.1 e.1)
    (hvalue : ∀ e ∈ es, ∃ w, Rearranged e.2 w ∧ w.Increasing src.layout ∧
      ReadsBack src n value e.2 w)
    (hlt : (keyImages src.layout previous es).Pairwise (· < ·)) :
    ∃ ws, (∀ front, Rearranged (.map (front ++ es)) (.map (front ++ ws))) ∧
      keyImages src.layout none ws = keyImages src.layout none es ∧
      (∀ w ∈ ws, w.2.Increasing src.layout) ∧
      ∀ t, (Read.Program.entries key.read value.read previous es.length).run src
        ⟨n, (es.map (entryImage src.layout)).flatten ++ t⟩ = (.ok ws, ⟨n, t⟩) := by
  induction es generalizing previous with
  | nil => exact ⟨[], fun front => .refl _, rfl, by simp, fun t => rfl⟩
  | cons e es ih =>
    obtain ⟨hfirst, hrest⟩ := pairwise_keyImages_cons_iff.1 hlt
    rw [List.forall_mem_cons] at hkey hvalue
    obtain ⟨w, hw, hincreasing, hread⟩ := hvalue.1
    obtain ⟨ws, hws, hkeys, hvalues, hall⟩ := ih hkey.2 hvalue.2 hrest
    refine ⟨(e.1, w) :: ws, ?_, congrArg (List.cons _) hkeys,
      List.forall_mem_cons.2 ⟨hincreasing, hvalues⟩, ?_⟩
    · -- the first value is put in its order, then the entries behind
      intro front
      have htail := hws (front ++ [(e.1, w)])
      rw [List.append_assoc, List.append_assoc] at htail
      exact (Rearranged.within front es e.1 hw).trans htail
    · intro t
      rw [entries_cons hkey.1 fun _ => hfirst, Read.Program.run_bind, Attempt.bind_ok (hread _),
        Read.Program.run_bind, Attempt.bind_ok (hall t)]
      rfl

theorem entries_refuses (hc : src.layout.canonical)
    (hkey : ∀ e ∈ es, ReadsBack src n key e.1 e.1)
    (hvalue : ∀ e ∈ es, Canonically src n value e.2)
    (hbad : ¬ ((keyImages src.layout previous es).Pairwise (· < ·) ∧ ∀ e ∈ es, e.2.Distinct))
    (t : Bytes) :
    ∃ r, (Read.Program.entries key.read value.read previous es.length).run src
      ⟨n, (es.map (entryImage src.layout)).flatten ++ t⟩ = (.error .keysNotIncreasing, r) := by
  induction es generalizing previous with
  | nil => exact absurd ⟨pairwise_keyImages_nil, by simp⟩ hbad
  | cons e es ih =>
    rw [List.forall_mem_cons] at hkey hvalue
    by_cases hfirst : ∀ p ∈ previous, p < e.1.image src.layout
    · rw [entries_cons hkey.1 fun _ => hfirst, Read.Program.run_bind]
      by_cases hd : e.2.Distinct
      · obtain ⟨w, _, _, hread⟩ := hvalue.1.accepts hd
        have hrest : ¬ ((keyImages src.layout (some (e.1.image src.layout)) es).Pairwise (· < ·) ∧
            ∀ f ∈ es, f.2.Distinct) := by
          intro h
          exact hbad ⟨pairwise_keyImages_cons_iff.2 ⟨hfirst, h.1⟩,
            List.forall_mem_cons.2 ⟨hd, h.2⟩⟩
        obtain ⟨r, hr⟩ := ih hkey.2 hvalue.2 hrest
        refine ⟨r, ?_⟩
        rw [Attempt.bind_ok (hread _), Read.Program.run_bind]
        exact Attempt.bind_error hr _
      · obtain ⟨r, hr⟩ := hvalue.1.refuses hd ((es.map (entryImage src.layout)).flatten ++ t)
        exact ⟨r, Attempt.bind_error hr _⟩
    · cases previous with
      | none => exact absurd (by simp) hfirst
      | some p =>
        refine entries_cons_error hc hkey.1 ?_ t
        intro hp
        apply hfirst
        intro q hq
        cases hq
        exact hp

theorem read_map_error {e : Fault} {b : Bytes} {k : Nat} (hk : k ≤ maxLength)
    (hs : k ≤ src.limits.length)
    (h : ∃ r, (Read.Program.entries key.read value.read none k).run src ⟨n, b⟩ = (.error e, r)) :
    ∃ r, (Schema.map key value).read.run src ⟨n + 1, src.layout.count k ++ b⟩ = (.error e, r) := by
  obtain ⟨r, hr⟩ := h
  have hentries := (Attempt.bind_ok (Read.length_count hk hs b)
    fun k => (Read.Program.entries key.read value.read none k).run src).trans hr
  have hmap : (Read.Program.map key.read value.read).run src ⟨n + 1, src.layout.count k ++ b⟩ =
      (.error e, r.restore) :=
    (container_succ _ n _).trans (congrArg (fun x => (x.1, x.2.restore)) hentries)
  exact ⟨r.restore, Attempt.bind_error hmap _⟩

def stored (l : Layout) (es : List (Value × Value)) : List (Value × Value) :=
  es.mergeSort fun e f => entryImage l e ≤ entryImage l f

theorem stored_perm (l : Layout) (es : List (Value × Value)) : (stored l es).Perm es :=
  List.mergeSort_perm es _

theorem map_stored (l : Layout) (es : List (Value × Value)) :
    (stored l es).map (entryImage l) = (es.map (entryImage l)).mergeSort fun x y => x ≤ y :=
  List.map_mergeSort (f := entryImage l) (l := es) fun _ _ _ _ => rfl

theorem image_map_stored {l : Layout} (hc : l.canonical) (es : List (Value × Value)) :
    (Value.map es).image l =
      l.count (stored l es).length ++ ((stored l es).map (entryImage l)).flatten := by
  rw [image, imageEntries_eq_map, Layout.arrange, if_pos hc, map_stored,
    (stored_perm l es).length_eq]

theorem forall_mem_stored {l : Layout} {P : Value × Value → Prop} :
    (∀ e ∈ stored l es, P e) ↔ ∀ e ∈ es, P e := by
  simp only [(stored_perm l es).mem_iff]

/-- Entries are stored in the order of all their bytes, and so in that of their keys, which
increases where no key comes twice. -/
theorem distinct_map_iff (hkey : ∀ e ∈ es, ReadsBack src n key e.1 e.1) :
    (Value.map es).Distinct ↔
      (keyImages src.layout none (stored src.layout es)).Pairwise (· < ·) ∧
        ∀ e ∈ stored src.layout es, e.2.Distinct := by
  have hkeys : ∀ e ∈ stored src.layout es, ReadsBack src n key e.1 e.1 := forall_mem_stored.2 hkey
  have hle := pairwise_keys_le hkeys (pairwise_mergeSort_on (entryImage src.layout) es)
  have hne : (stored src.layout es).Pairwise (fun e f => e.1 ≠ f.1) ↔
      es.Pairwise fun e f => e.1 ≠ f.1 :=
    (stored_perm src.layout es).pairwise_iff fun h => Ne.symm h
  rw [Distinct, keysPairwise_map_iff, keyImages, Option.toList_none, List.nil_append,
    List.pairwise_map, pairwise_keys_lt_iff hkeys hle, hne, forall_mem_stored]
  rfl

theorem canonically (hc : src.layout.canonical) (hf : v.Fits s) (hl : v.longest ≤ maxLength)
    (hs : v.longest ≤ src.limits.length) (hh : v.height ≤ n) (hn : n ≤ maxWord) :
    Canonically src n s v := by
  induction hf generalizing n with
  | mapFree v hm =>
    refine ⟨fun _ => ⟨v, .refl v, .mapFree hm, hm.readsBack hl hs hh hn⟩, ?_⟩
    intro hd
    exact absurd (.mapFree hm) hd
  | map key value es hkey hvalue ih =>
    obtain ⟨m, rfl⟩ := exists_eq_succ_of_height_map_le hh
    rw [longest_map_le_iff, ← (stored_perm src.layout es).length_eq] at hl hs
    rw [height_map_le_succ_iff] at hh
    have hkeys (e : Value × Value) (he : e ∈ es) : ReadsBack src m key e.1 e.1 := by
      rw [← (hkey e he).2]
      exact (hkey e he).1.readsBack (hl.2 e he).1 (hs.2 e he).1 (hh e he).1 (by omega)
    have hvalues (e : Value × Value) (he : e ∈ es) : Canonically src m value e.2 :=
      ih e he (hl.2 e he).2 (hs.2 e he).2 (hh e he).2 (by omega)
    have hdistinct := distinct_map_iff hkeys
    rw [← forall_mem_stored (l := src.layout)] at hkeys hvalues
    constructor
    · intro hd
      obtain ⟨hlt, hds⟩ := hdistinct.1 hd
      obtain ⟨ws, hws, hsame, hincreasing, hread⟩ :=
        entries_accepts hkeys (fun e he => (hvalues e he).accepts (hds e he)) hlt
      rw [← hsame] at hlt
      refine ⟨.map ws, (Rearranged.entries (stored_perm src.layout es).symm).trans (hws []),
        .map (List.pairwise_map.1 hlt) hincreasing, ?_⟩
      intro t
      rw [image_map_stored hc, List.append_assoc]
      exact read_map_ok hl.1 hs.1 hn (hread t)
    · intro hd t
      rw [image_map_stored hc, List.append_assoc]
      refine read_map_error hl.1 hs.1 (entries_refuses hc hkeys hvalues ?_ t)
      intro h
      exact hd (hdistinct.2 h)

end Value
end Bytewire
