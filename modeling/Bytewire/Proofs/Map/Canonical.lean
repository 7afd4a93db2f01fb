import Bytewire.Proofs.Map.Reading
import Bytewire.Proofs.Read.Prefix
import Bytewire.Proofs.Value.Writing

/-! Nested maps under a canonical layout: writing forgets the order of their entries, and reading
back gives the order of their keys. -/
namespace Bytewire.Value
variable {l : Layout} {s : Schema} {v w : Value}

/-- Under a canonical layout a rearranged value has the same image. -/
theorem image_of_rearranged (hc : l.canonical) (h : Rearranged v w) : v.image l = w.image l := by
  induction h with
  | refl v => rfl
  | trans _ _ ih ih' => exact ih.trans ih'
  | entries h =>
    have hsort := mergeSort_eq_of_perm (h.map (entryImage l))
    simp only [image, imageEntries_eq_map, Layout.arrange, hc, if_true, h.length_eq, hsort]
  | within es fs k _ ih =>
    simp only [image, imageEntries_eq_map, List.map_append, List.map_cons, entryImage, ih,
      List.length_append, List.length_cons]

theorem write_of_rearranged (hc : l.canonical) (h : Rearranged v w) (hl : v.longest ≤ maxLength)
    (hh : v.height ≤ maxWord) :
    w.write l (.start {} []) = (.ok (), .start {} (v.image l)) := by
  have hcompact : maxLength ≤ Layout.maxCompactLength := by decide
  rw [image_of_rearranged hc h]
  exact write_eq w (Nat.le_trans (h.longest_le hl) hcompact) (h.height_le hh) (Nat.le_refl _) []

/-- Under a canonical layout a nested map is written to the same bytes in whatever order the
entries of its maps are given. These bytes read back as the same maps, with all entries in the order
of the bytes of their keys, unless a map has a key twice; then the order of its keys is at fault. -/
theorem read_write_canonical (hc : l.canonical) (hf : v.Fits s) (hl : v.longest ≤ maxLength)
    (hh : v.height ≤ maxWord) :
    ∃ b, (∀ w, Rearranged v w → w.write l (.start {} []) = (.ok (), .start {} b)) ∧
      (v.Distinct → ∃ w, Rearranged v w ∧ w.Increasing l ∧
        ∀ t, s.read.run ⟨l, {}, b ++ t⟩ (.start {} (b ++ t)) = (.ok w, .start {} t)) ∧
      (¬ v.Distinct → ∀ t, ∃ r,
        s.read.run ⟨l, {}, b ++ t⟩ (.start {} (b ++ t)) = (.error .keysNotIncreasing, r)) := by
  have hread (i : Bytes) : Canonically ⟨l, {}, i⟩ maxWord s v :=
    canonically hc hf hl hl hh (Nat.le_refl _)
  refine ⟨v.image l, fun w h => write_of_rearranged hc h hl hh, ?_, ?_⟩
  · intro hd
    obtain ⟨w, hw, hincreasing, hback⟩ := (hread []).accepts hd
    refine ⟨w, hw, hincreasing, ?_⟩
    intro t
    rw [s.local_read.run_congr l {} (v.image l ++ t) []]
    exact hback t
  · intro hd t
    exact (hread (v.image l ++ t)).refuses hd t

def flags (fs : List (Word .w16 × Bool)) : Value :=
  .map (fs.map fun f => (.tuple [.primitive (.uint .w16 f.1)], .primitive (.bool f.2)))

def registers (es : List (String × List (Word .w16 × Bool))) : Value :=
  .map (es.map fun e => (.tuple [.primitive (.text e.1)], flags e.2))

def registersSchema : Schema :=
  .map (.tuple [.primitive .text]) (.map (.tuple [.primitive (.uint .w16)]) (.primitive .bool))

theorem registers_fits (es : List (String × List (Word .w16 × Bool))) :
    (registers es).Fits registersSchema := by
  have hone (p : Primitive) : (Value.tuple [.primitive p]).MapFree :=
    .tuple _ (by simpa using .primitive p)
  refine .map _ _ _ ?_ ?_
  · rw [List.forall_mem_map]
    intro e _
    exact ⟨hone _, rfl⟩
  · rw [List.forall_mem_map]
    intro e _
    refine .map _ _ _ ?_ ?_
    · rw [List.forall_mem_map]
      intro f _
      exact ⟨hone _, rfl⟩
    · rw [List.forall_mem_map]
      intro f _
      exact .mapFree (.primitive (.bool f.2)) (.primitive _)

theorem flags_distinct_iff (fs : List (Word .w16 × Bool)) :
    (flags fs).Distinct ↔ (fs.map Prod.fst).Nodup := by
  rw [flags, Distinct, keysPairwise_map_iff, List.pairwise_map, List.forall_mem_map, List.Nodup,
    List.pairwise_map]
  constructor
  · intro h
    simpa using h.1
  · intro h
    exact ⟨by simpa using h, fun f _ => .mapFree (.primitive _)⟩

theorem registers_distinct_iff (es : List (String × List (Word .w16 × Bool))) :
    (registers es).Distinct ↔ (es.map Prod.fst).Nodup ∧ ∀ e ∈ es, (e.2.map Prod.fst).Nodup := by
  have hflags (e : String × List (Word .w16 × Bool)) :
      (flags e.2).KeysPairwise (· ≠ ·) ↔ (e.2.map Prod.fst).Nodup := flags_distinct_iff e.2
  rw [registers, Distinct, keysPairwise_map_iff, List.pairwise_map, List.forall_mem_map, List.Nodup,
    List.pairwise_map]
  simp [hflags]

/-- Two registers out of order, the flags of one out of order too, and a register given twice. -/
theorem read_write_canonical_registers :
    let l := Layout.mk .compact true
    let v := registers [("b", []), ("a", [(2, true), (1, false)])]
    let u := registers [("a", []), ("a", [(1, true)])]
    l.canonical ∧ v.Fits registersSchema ∧ v.longest ≤ maxLength ∧ v.height ≤ maxWord ∧
      u.Fits registersSchema ∧ u.longest ≤ maxLength ∧ u.height ≤ maxWord ∧
      (∃ b, v.write l (.start {} []) = (.ok (), .start {} b) ∧ ∃ w, Rearranged v w ∧
        w.Increasing l ∧ ∀ t, registersSchema.read.run ⟨l, {}, b ++ t⟩ (.start {} (b ++ t)) =
          (.ok w, .start {} t)) ∧
      ∃ b, u.write l (.start {} []) = (.ok (), .start {} b) ∧ ∀ t, ∃ r,
        registersSchema.read.run ⟨l, {}, b ++ t⟩ (.start {} (b ++ t)) =
          (.error .keysNotIncreasing, r) := by
  intro l v u
  have hv : v.longest ≤ maxLength ∧ v.height ≤ maxWord := by decide
  have hu : u.longest ≤ maxLength ∧ u.height ≤ maxWord := by decide
  refine ⟨rfl, registers_fits _, hv.1, hv.2, registers_fits _, hu.1, hu.2, ?_, ?_⟩
  · obtain ⟨b, hwrite, haccepts, -⟩ :=
      read_write_canonical (l := l) rfl (registers_fits _) hv.1 hv.2
    exact ⟨b, hwrite v (.refl v), haccepts ((registers_distinct_iff _).2 (by decide))⟩
  · obtain ⟨b, hwrite, -, hrefuses⟩ :=
      read_write_canonical (l := l) rfl (registers_fits _) hu.1 hu.2
    exact ⟨b, hwrite u (.refl u), hrefuses fun h =>
      absurd ((registers_distinct_iff _).1 h).1 (by decide)⟩

end Bytewire.Value
