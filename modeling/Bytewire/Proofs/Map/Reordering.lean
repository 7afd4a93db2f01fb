import Bytewire.Proofs.Map.Canonical
import Bytewire.Proofs.Read.Stricter

/-! A canonical layout and the one of the same coding that leaves entries alone. To the canonical
one a value is written with its maps in another order, which is a value that the other layout
writes to the same bytes and reads back. -/
namespace Bytewire

theorem Layout.arrange_perm (l : Layout) (es : List Bytes) : (l.arrange es).Perm es := by
  rw [arrange]
  split
  · exact List.mergeSort_perm es _
  · exact .refl es

theorem Layout.count_eq {l l' : Layout} (h : l.coding = l'.coding) (n : Nat) :
    l.count n = l'.count n := by
  rw [count, count, h]

theorem Primitive.image_eq {l l' : Layout} (h : l.coding = l'.coding) (p : Primitive) :
    p.image l = p.image l' := by
  cases p with
  | text s => rw [image, image, Layout.count_eq h]
  | bytes b => rw [image, image, Layout.count_eq h]
  | option v => cases v <;> rfl
  | variant i => rw [image, image, Layout.variantBytes, Layout.variantBytes, h]
  | _ => rfl

namespace Value
variable {l l' : Layout} {α : Type}

theorem length_flatten_map_congr {f g : α → Bytes} {as : List α}
    (h : ∀ a ∈ as, (f a).length = (g a).length) :
    (as.map f).flatten.length = (as.map g).flatten.length := by
  simp only [List.length_flatten, List.map_map]
  exact congrArg List.sum (List.map_congr_left h)

/-- Layouts of one coding write a value in equally many bytes. -/
theorem length_image_eq (h : l.coding = l'.coding) (v : Value) :
    (v.image l).length = (v.image l').length := by
  induction v using Value.induct with
  | primitive p => rw [image, image, Primitive.image_eq h]
  | tuple parts ih =>
    rw [image, image, imageAll_eq_flatten, imageAll_eq_flatten]
    exact length_flatten_map_congr ih
  | sequence items ih =>
    rw [image, image, imageAll_eq_flatten, imageAll_eq_flatten, Layout.count_eq h,
      List.length_append, List.length_append, length_flatten_map_congr ih]
  | map es ih =>
    have hentries : ∀ e ∈ es, (entryImage l e).length = (entryImage l' e).length := by
      intro e he
      rw [entryImage, entryImage, List.length_append, List.length_append, (ih e he).1, (ih e he).2]
    rw [image, image, Layout.count_eq h, List.length_append, List.length_append,
      (l.arrange_perm _).flatten.length_eq, (l'.arrange_perm _).flatten.length_eq,
      imageEntries_eq_map, imageEntries_eq_map, length_flatten_map_congr hentries]

/-- Parts that can each be reordered to have given bytes can be so together, if a value allows to
reorder any one part of it. -/
theorem exists_reordered_parts {f : List α → Value} {r : α → α → Prop} {g g' : α → Bytes}
    {as : List α}
    (hf : ∀ bs cs a b, r a b → Reordered (f (bs ++ a :: cs)) (f (bs ++ b :: cs)))
    (h : ∀ a ∈ as, ∃ b, r a b ∧ g' b = g a) :
    ∃ bs, Reordered (f as) (f bs) ∧ bs.map g' = as.map g := by
  induction as generalizing f with
  | nil => exact ⟨[], .refl _, rfl⟩
  | cons a as ih =>
    rw [List.forall_mem_cons] at h
    obtain ⟨b, hb, hsame⟩ := h.1
    have hbehind : ∀ bs cs c d, r c d →
        Reordered (f (b :: (bs ++ c :: cs))) (f (b :: (bs ++ d :: cs))) :=
      fun bs cs c d hcd => hf (b :: bs) cs c d hcd
    obtain ⟨bs, hbs, hrest⟩ := ih (f := fun as => f (b :: as)) hbehind h.2
    refine ⟨b :: bs, (hf [] as a b hb).trans hbs, ?_⟩
    rw [List.map_cons, List.map_cons, hsame, hrest]

/-- What a canonical layout writes is what the other one writes of the value with the entries of
its maps in another order. -/
theorem exists_reordered (hc : l.canonical) (hc' : ¬ l'.canonical) (h : l.coding = l'.coding)
    (v : Value) : ∃ w, Reordered v w ∧ w.image l' = v.image l := by
  induction v using Value.induct with
  | primitive p => exact ⟨.primitive p, .refl _, (Primitive.image_eq h p).symm⟩
  | tuple parts ih =>
    obtain ⟨ws, hws, hsame⟩ := exists_reordered_parts (fun us vs _ _ h => .part us vs h) ih
    exact ⟨.tuple ws, hws, by rw [image, image, imageAll_eq_flatten, imageAll_eq_flatten, hsame]⟩
  | sequence items ih =>
    obtain ⟨ws, hws, hsame⟩ := exists_reordered_parts (fun us vs _ _ h => .item us vs h) ih
    have hlen : ws.length = items.length := by simpa using congrArg List.length hsame
    refine ⟨.sequence ws, hws, ?_⟩
    rw [image, image, imageAll_eq_flatten, imageAll_eq_flatten, hsame, hlen, Layout.count_eq h]
  | map es ih =>
    have hentries : ∀ e ∈ es, ∃ f : Value × Value, (Reordered e.1 f.1 ∧ Reordered e.2 f.2) ∧
        entryImage l' f = entryImage l e := by
      intro e he
      obtain ⟨⟨k, hk, hkey⟩, v, hv, hvalue⟩ := ih e he
      exact ⟨(k, v), ⟨hk, hv⟩, by rw [entryImage, entryImage, hkey, hvalue]⟩
    obtain ⟨fs, hfs, hsame⟩ := exists_reordered_parts
      (fun es fs e f hef => (Reordered.key es fs e.2 hef.1).trans (.value es fs f.1 hef.2)) hentries
    have hlen : fs.length = es.length := by simpa using congrArg List.length hsame
    -- the entries, reordered within, are put in the order in which the canonical layout has them
    refine ⟨.map (stored l' fs), hfs.trans (.entries (stored_perm l' fs).symm), ?_⟩
    rw [image, image, imageEntries_eq_map, imageEntries_eq_map, map_stored, hsame, Layout.arrange,
      Layout.arrange, if_neg hc', if_pos hc, (stored_perm l' fs).length_eq, hlen,
      Layout.count_eq h]

/-- A canonical layout restricts the layout of the same coding that leaves entries alone. A program
succeeds under it only as it does under the other, and ends as it does under the other unless keys
are not in order. What is written under it has the length of what is written under the other, which
reads it back as the same value but for the order of entries. -/
theorem canonical_restricts_base (c : Coding) :
    (∀ (lim : Limits) (i : Bytes) (α : Type) (p : Read.Program α),
      Read.Restricts ⟨⟨c, true⟩, lim, i⟩ ⟨⟨c, false⟩, lim, i⟩ (fun e => e = .keysNotIncreasing) p) ∧
    ∀ (lim : Limits) (s : Schema) (v : Value), lim.Valid → s.Describes v → v.longest ≤ lim.length →
      v.height ≤ lim.depth →
      ∃ b d, v.write ⟨c, true⟩ (.start lim []) = (.ok (), .start lim b) ∧
        v.write ⟨c, false⟩ (.start lim []) = (.ok (), .start lim d) ∧ b.length = d.length ∧
        ∃ w, Reordered v w ∧ ∀ t,
          s.read.run ⟨⟨c, false⟩, lim, b ++ t⟩ (.start lim (b ++ t)) = (.ok w, .start lim t) := by
  refine ⟨fun lim i α p => Read.canonical_restricts c lim i p, ?_⟩
  intro lim s v hlim hd hl hh
  have hlength : v.longest ≤ maxLength := Nat.le_trans hl hlim.length_le
  have hcompact : v.longest ≤ Layout.maxCompactLength := Nat.le_trans hlength (by decide)
  have hcoding : (Layout.mk c true).coding = (Layout.mk c false).coding := rfl
  obtain ⟨w, hw, hsame⟩ := exists_reordered rfl Bool.false_ne_true hcoding v
  refine ⟨v.image ⟨c, true⟩, v.image ⟨c, false⟩, write_eq v hcompact hh hlim.depth_le [],
    write_eq v hcompact hh hlim.depth_le [], length_image_eq hcoding v, w, hw, ?_⟩
  intro t
  have hback : ReadsBack ⟨⟨c, false⟩, lim, []⟩ lim.depth s w w :=
    readsBack (hw.describes s hd) ⟨fun h => absurd h Bool.false_ne_true, hw.longest_le hlength,
      hw.longest_le hl, hlim.depth_le⟩ (hw.height_le hh)
  rw [s.local_read.run_congr ⟨c, false⟩ lim (v.image ⟨c, true⟩ ++ t) [], ← hsame]
  exact hback t

theorem flags_described (fs : List (Word .w16 × Bool)) :
    (Schema.map (.tuple [.primitive (.uint .w16)]) (.primitive .bool)).Describes (flags fs) := by
  rw [flags, Schema.Describes, List.forall_mem_map]
  intro f _
  exact ⟨⟨rfl, trivial⟩, rfl⟩

theorem registers_described (es : List (String × List (Word .w16 × Bool))) :
    registersSchema.Describes (registers es) := by
  rw [registers, registersSchema, Schema.Describes, List.forall_mem_map]
  intro e _
  exact ⟨⟨rfl, trivial⟩, flags_described e.2⟩

/-- Two registers out of order, the flags of one too, within limits that just suffice. -/
theorem canonical_restricts_base_registers :
    let lim : Limits := { depth := 2, length := 2 }
    let v := registers [("b", []), ("a", [(2, true), (1, false)])]
    lim.Valid ∧ registersSchema.Describes v ∧ v.longest ≤ lim.length ∧ v.height ≤ lim.depth ∧
      ∃ b d, v.write ⟨.compact, true⟩ (.start lim []) = (.ok (), .start lim b) ∧
        v.write ⟨.compact, false⟩ (.start lim []) = (.ok (), .start lim d) ∧ b.length = d.length ∧
        ∃ w, Reordered v w ∧ ∀ t,
          registersSchema.read.run ⟨⟨.compact, false⟩, lim, b ++ t⟩ (.start lim (b ++ t)) =
            (.ok w, .start lim t) := by
  intro lim v
  have hlim : lim.Valid := ⟨by decide, by decide⟩
  have hd : registersSchema.Describes v := registers_described _
  have hl : v.longest ≤ lim.length := by decide
  have hh : v.height ≤ lim.depth := by decide
  exact ⟨hlim, hd, hl, hh,
    (canonical_restricts_base .compact).2 lim registersSchema v hlim hd hl hh⟩

end Value
end Bytewire
