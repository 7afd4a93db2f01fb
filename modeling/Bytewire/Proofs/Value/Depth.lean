import Bytewire.Proofs.Value.Reading
import Bytewire.Proofs.Value.Writing

/-! Limits on depth. A value without maps is written, and read from its image, exactly if no more
containers are open at once than the budget allows. Otherwise depth is at fault on both sides, and
what the writer has put down by then begins the image. The budget is the same afterwards. -/
namespace Bytewire
open Session
variable {l : Layout} {src : Read.Source} {n : Nat}

namespace Value
variable {s : Schema} {v : Value} {vs : List Value}

structure WritesWithin (l : Layout) (n : Nat) (v : Value) : Prop where
  writes : v.height ≤ n → ∀ b, v.write l ⟨n, b⟩ = (.ok (), ⟨n, b ++ v.image l⟩)
  stops : n < v.height → ∀ b, ∃ c, c <+: v.image l ∧
    v.write l ⟨n, b⟩ = (.error .depthExceeded, ⟨n, b ++ c⟩)

/-- The first value that is too high stops the writer behind those before it. -/
theorem writeAll_too_deep (h : ∀ v ∈ vs, v.WritesWithin l n) (hlt : n < heightAll vs) (b : Bytes) :
    ∃ c, c <+: imageAll l vs ∧ writeAll l vs ⟨n, b⟩ = (.error .depthExceeded, ⟨n, b ++ c⟩) := by
  induction vs generalizing b with
  | nil => exact absurd hlt (Nat.not_lt_zero n)
  | cons v vs ih =>
    rw [List.forall_mem_cons] at h
    rw [heightAll] at hlt
    by_cases hv : v.height ≤ n
    · obtain ⟨c, hc, hwrite⟩ := ih h.2 (by omega) (b ++ v.image l)
      refine ⟨v.image l ++ c, (List.prefix_append_right_inj _).2 hc, ?_⟩
      rw [writeAll, Attempt.bind_ok (h.1.writes hv b), hwrite, List.append_assoc]
    · obtain ⟨c, hc, hwrite⟩ := h.1.stops (by omega) b
      exact ⟨c, hc.trans (List.prefix_append _ _), Attempt.bind_error hwrite _⟩

theorem write_sequence_too_deep (h : ∀ v ∈ vs, v.WritesWithin l n)
    (hl : vs.length ≤ Layout.maxCompactLength) (hn : n < maxWord)
    (hlt : n + 1 < (Value.sequence vs).height) (b : Bytes) :
    ∃ c, c <+: (Value.sequence vs).image l ∧
      (Value.sequence vs).write l ⟨n + 1, b⟩ = (.error .depthExceeded, ⟨n + 1, b ++ c⟩) := by
  rw [height] at hlt
  obtain ⟨c, hc, hitems⟩ := writeAll_too_deep h (by omega) (b ++ l.count vs.length)
  refine ⟨l.count vs.length ++ c, (List.prefix_append_right_inj _).2 hc, ?_⟩
  rw [write]
  refine container_eq hn ?_
  rw [Attempt.bind_ok (Write.length_eq hl), hitems, List.append_assoc]

theorem writesWithin (hm : v.MapFree) (hl : v.longest ≤ Layout.maxCompactLength)
    (hn : n ≤ maxWord) : v.WritesWithin l n := by
  refine ⟨fun hh => write_eq v hl hh hn, ?_⟩
  intro hlt b
  induction hm generalizing n b with
  | primitive p => exact absurd hlt (Nat.not_lt_zero n)
  | tuple parts _ ih =>
    rw [longest, longestAll_le_iff] at hl
    exact writeAll_too_deep
      (fun v hv => ⟨fun hh => write_eq v (hl v hv) hh hn, ih v hv (hl v hv) hn⟩) hlt b
  | sequence items _ ih =>
    rw [longest_sequence_le_iff] at hl
    cases n with
    | zero =>
      refine ⟨[], List.nil_prefix, ?_⟩
      rw [write, container_zero, List.append_nil]
    | succ n =>
      have hitems (v : Value) (hv : v ∈ items) : v.WritesWithin l n :=
        ⟨fun hh => write_eq v (hl.2 v hv) hh (by omega), ih v hv (hl.2 v hv) (by omega)⟩
      exact write_sequence_too_deep hitems hl.1 hn hlt b

structure ReadsWithin (src : Read.Source) (n : Nat) (s : Schema) (v : Value) : Prop where
  reads : v.height ≤ n → ReadsBack src n s v v
  stops : n < v.height → ∀ t, ∃ c,
    s.read.run src ⟨n, v.image src.layout ++ t⟩ = (.error .depthExceeded, ⟨n, c⟩)

theorem readAll_too_deep {ss : List Schema} (hd : Schema.DescribeAll ss vs)
    (h : ∀ s ∈ ss, ∀ v ∈ vs, s.Describes v → ReadsWithin src n s v) (hlt : n < heightAll vs)
    (t : Bytes) :
    ∃ c, (Schema.readAll ss).run src ⟨n, imageAll src.layout vs ++ t⟩ =
      (.error .depthExceeded, ⟨n, c⟩) := by
  induction ss generalizing vs with
  | nil =>
    cases vs with
    | nil => exact absurd hlt (Nat.not_lt_zero n)
    | cons v vs => exact hd.elim
  | cons s ss ih =>
    cases vs with
    | nil => exact hd.elim
    | cons v vs =>
      have hv := h s List.mem_cons_self v List.mem_cons_self hd.1
      have hvs (r : Schema) (hr : r ∈ ss) (w : Value) (hw : w ∈ vs) :=
        h r (List.mem_cons_of_mem s hr) w (List.mem_cons_of_mem v hw)
      rw [heightAll] at hlt
      rw [imageAll, List.append_assoc, Schema.readAll, Read.Program.run_bind]
      by_cases hh : v.height ≤ n
      · obtain ⟨c, hrest⟩ := ih hd.2 hvs (by omega)
        rw [Attempt.bind_ok (hv.reads hh _), Read.Program.run_bind]
        exact ⟨c, Attempt.bind_error hrest _⟩
      · obtain ⟨c, hstop⟩ := hv.stops (by omega) (imageAll src.layout vs ++ t)
        exact ⟨c, Attempt.bind_error hstop _⟩

theorem sequence_too_deep {ss : List Schema} (hi : s.Items vs.length ss)
    (hd : Schema.DescribeAll ss vs) (hv : Readable src n (.sequence vs))
    (hwithin : ∀ {m}, ∀ r ∈ ss, ∀ v ∈ vs, r.Describes v → Readable src m v →
      ReadsWithin src m r v) (hlt : n < (Value.sequence vs).height) (t : Bytes) :
    ∃ c, s.read.run src ⟨n, (Value.sequence vs).image src.layout ++ t⟩ =
      (.error .depthExceeded, ⟨n, c⟩) := by
  cases n with
  | zero => exact ⟨_, hi.read_zero _⟩
  | succ n =>
    rw [height] at hlt
    have hitems (r : Schema) (hr : r ∈ ss) (v : Value) (hmem : v ∈ vs) (hdv : r.Describes v) :
        ReadsWithin src n r v := hwithin r hr v hmem hdv (hv.item hmem)
    obtain ⟨c, hall⟩ := readAll_too_deep hd hitems (by omega) t
    exact ⟨c, hv.read_sequence hi hall⟩

theorem readsWithin (hd : s.Describes v) (hm : v.MapFree) (hv : Readable src n v) :
    ReadsWithin src n s v := by
  refine ⟨readsBack hd hv, ?_⟩
  intro hlt t
  induction s using Schema.induct generalizing v n t with
  | primitive k =>
    cases v with
    | primitive p => exact absurd hlt (Nat.not_lt_zero n)
    | _ => exact hd.elim
  | tuple parts ih =>
    cases v with
    | tuple vs =>
      rw [mapFree_tuple_iff] at hm
      have hparts (s : Schema) (hmem : s ∈ parts) (v : Value) (hmem' : v ∈ vs)
          (hd : s.Describes v) : ReadsWithin src n s v :=
        ⟨readsBack hd (hv.part hmem'), ih s hmem hd (hm v hmem') (hv.part hmem')⟩
      obtain ⟨c, hall⟩ := readAll_too_deep hd hparts hlt t
      exact ⟨c, Attempt.bind_error hall _⟩
    | _ => exact hd.elim
  | sequence item ih =>
    cases v with
    | sequence vs =>
      rw [mapFree_sequence_iff] at hm
      refine sequence_too_deep (.sequence item) (Schema.describeAll_replicate_iff.2 hd) hv ?_ hlt t
      intro m r hr v hmem hdv hv
      obtain rfl := List.eq_of_mem_replicate hr
      exact ⟨readsBack hdv hv, ih hdv (hm v hmem) hv⟩
    | _ => exact hd.elim
  | listed items ih =>
    cases v with
    | sequence vs =>
      rw [mapFree_sequence_iff] at hm
      refine sequence_too_deep (.listed items hd.length_eq) hd hv ?_ hlt t
      intro m r hr v hmem hdv hv
      exact ⟨readsBack hdv hv, ih r hr hdv (hm v hmem) hv⟩
    | _ => exact hd.elim
  | map key value _ _ =>
    cases v with
    | map es => exact absurd hm (not_mapFree_map es)
    | _ => exact hd.elim

/-- A limit on depth is exact, for the writer and for the reader of what is written without it. A
value no higher than the limit is written to the same bytes and read back; a higher one fails on
both sides for its depth, with a beginning of those bytes written. The whole limit is there again
afterwards. -/
theorem depth_limit_exact (l : Layout) (hm : v.MapFree) (hs : s.Describes v)
    (hl : v.longest ≤ maxLength) (hh : v.height ≤ maxWord) {d : Nat} (hd : d ≤ maxWord) :
    let lim := Limits.withDepth d {}
    ∃ b, v.write l (.start {} []) = (.ok (), .start {} b) ∧
      (v.height ≤ d →
        v.write l (.start lim []) = (.ok (), .start lim b) ∧
        s.read.run ⟨l, lim, b⟩ (.start lim b) = (.ok v, .start lim [])) ∧
      (d < v.height →
        (∃ c, c <+: b ∧ v.write l (.start lim []) = (.error .depthExceeded, .start lim c)) ∧
        ∃ c, s.read.run ⟨l, lim, b⟩ (.start lim b) = (.error .depthExceeded, .start lim c)) := by
  intro lim
  have hcompact : v.longest ≤ Layout.maxCompactLength := Nat.le_trans hl (by decide)
  have hwrite : v.WritesWithin l d := writesWithin hm hcompact hd
  have hread : ReadsWithin ⟨l, lim, v.image l⟩ d s v :=
    readsWithin hs hm ⟨fun _ => hm, hl, hl, hd⟩
  have himage : v.image l ++ [] = v.image l := List.append_nil _
  refine ⟨v.image l, write_eq v hcompact hh (Nat.le_refl _) [], ?_, ?_⟩
  · intro hle
    have hback := hread.reads hle []
    rw [himage] at hback
    exact ⟨hwrite.writes hle [], hback⟩
  · intro hlt
    obtain ⟨c, hc⟩ := hread.stops hlt []
    rw [himage] at hc
    exact ⟨hwrite.stops hlt [], c, hc⟩

def rows : Value := .sequence [.sequence [.primitive (.uint .w8 7)], .sequence []]

def rowsSchema : Schema := .sequence (.sequence (.primitive (.uint .w8)))

theorem rows_mapFree : rows.MapFree := by
  have hfirst : (Value.sequence [.primitive (.uint .w8 7)]).MapFree :=
    .sequence _ (by simpa using .primitive _)
  have hsecond : (Value.sequence []).MapFree := .sequence _ (by simp)
  exact .sequence _ (by simpa using ⟨hfirst, hsecond⟩)

theorem rows_described : rowsSchema.Describes rows := by
  simp [rowsSchema, rows, Schema.Describes, Primitive.kind]

/-- Two containers are enough for the rows, and one is not. -/
theorem depth_limit_exact_rows :
    rows.MapFree ∧ rowsSchema.Describes rows ∧ rows.longest ≤ maxLength ∧
      rows.height ≤ maxWord ∧ 2 ≤ maxWord ∧ rows.height ≤ 2 ∧ 1 < rows.height ∧
    let l := Layout.mk .compact true
    (∃ b, rows.write l (.start {} []) = (.ok (), .start {} b) ∧
      rows.write l (.start (.withDepth 2 {}) []) = (.ok (), .start (.withDepth 2 {}) b) ∧
      rowsSchema.read.run ⟨l, .withDepth 2 {}, b⟩ (.start (.withDepth 2 {}) b) =
        (.ok rows, .start (.withDepth 2 {}) [])) ∧
    ∃ b, rows.write l (.start {} []) = (.ok (), .start {} b) ∧
      (∃ c, c <+: b ∧ rows.write l (.start (.withDepth 1 {}) []) =
        (.error .depthExceeded, .start (.withDepth 1 {}) c)) ∧
      ∃ c, rowsSchema.read.run ⟨l, .withDepth 1 {}, b⟩ (.start (.withDepth 1 {}) b) =
        (.error .depthExceeded, .start (.withDepth 1 {}) c) := by
  have hl : rows.longest ≤ maxLength := by decide
  have hh : rows.height ≤ maxWord := by decide
  refine ⟨rows_mapFree, rows_described, hl, hh, by decide, by decide, by decide, ?_, ?_⟩
  · obtain ⟨b, hwrite, hok, -⟩ :=
      depth_limit_exact ⟨.compact, true⟩ rows_mapFree rows_described hl hh (d := 2) (by decide)
    exact ⟨b, hwrite, hok (by decide)⟩
  · obtain ⟨b, hwrite, -, hstop⟩ :=
      depth_limit_exact ⟨.compact, true⟩ rows_mapFree rows_described hl hh (d := 1) (by decide)
    exact ⟨b, hwrite, hstop (by decide)⟩

end Value
end Bytewire
