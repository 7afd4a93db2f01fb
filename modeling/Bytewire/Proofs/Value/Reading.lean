import Bytewire.Bytes.Lemmas
import Bytewire.Value.Coding
import Bytewire.Value.Image

/-! What a reader makes of an image: the value comes back, what follows the image is left, and the
budget is the same afterwards. -/
namespace Bytewire
open Session
variable {src : Read.Source} {l : Layout} {n : Nat}

theorem toInt_word {k : Nat} (h : k < 2 ^ 63) : (BitVec.ofNat 64 k).toInt = k := by
  rw [BitVec.toInt_ofNat', Int.bmod_eq_of_le (by omega) (by omega)]

namespace Layout

/-- Under either coding a length that could be written is read as a signed word. -/
theorem readLength_lengthBytes {k : Nat} {d : Bytes} (hk : k ≤ maxWord)
    (h : l.lengthBytes k = .ok d) (t : Bytes) :
    l.readLength (d ++ t) = (.ok (BitVec.ofNat 64 k).toInt, t) := by
  rw [maxWord] at hk
  cases hc : l.coding with
  | fixed =>
    simp only [lengthBytes, hc] at h
    cases h
    simp only [readLength, hc]
    rw [Attempt.bind_ok (LittleEndian.take_encode 8 k t), Attempt.pure_run,
      LittleEndian.decode_encode_of_lt (by omega)]
  | compact =>
    simp only [lengthBytes, hc] at h
    split at h
    · rename_i hle
      rw [maxCompactLength] at hle
      cases h
      have hbits : Base128.bitLength k ≤ 32 := Base128.bitLength_le_iff_lt_pow.2 (by omega)
      simp only [readLength, hc]
      rw [Attempt.bind_ok (Base128.decode_encode hbits t), toInt_word (by omega)]
      rfl
    · cases h

theorem readLength_count {k : Nat} (h : k ≤ maxLength) (t : Bytes) :
    l.readLength (l.count k ++ t) = (.ok (k : Int), t) := by
  rw [maxLength] at h
  have hword : k ≤ maxWord := Nat.le_trans h (by decide)
  have hwritten : l.lengthBytes k = .ok (l.count k) := lengthBytes_eq (Nat.le_trans h (by decide))
  rw [readLength_lengthBytes hword hwritten, toInt_word (by omega)]

theorem readVariant_variantBytes (i : UInt32) (t : Bytes) :
    l.readVariant (l.variantBytes i ++ t) = (.ok i, t) := by
  have hi := i.toNat_lt
  cases hc : l.coding with
  | fixed =>
    simp only [readVariant, variantBytes, hc]
    rw [Attempt.bind_ok (LittleEndian.take_encode 4 i.toNat t), Attempt.pure_run,
      LittleEndian.decode_encode_of_lt (by omega), UInt32.ofNat_toNat]
  | compact =>
    have hb : Base128.bitLength i.toNat ≤ 32 := Base128.bitLength_le_iff_lt_pow.2 (by omega)
    simp only [readVariant, variantBytes, hc]
    rw [Attempt.bind_ok (Base128.decode_encode hb t), Attempt.pure_run, UInt32.ofNat_toNat]

end Layout

namespace Read

theorem word_encode (w : Width) (v : Word w) (t : Bytes) :
    word w ⟨n, LittleEndian.encode w.bytes v.toNat ++ t⟩ = (.ok v, ⟨n, t⟩) := by
  have hw : 2 ^ w.bits = 256 ^ w.bytes := Nat.pow_mul 2 8 w.bytes
  have hv : v.toNat < 256 ^ w.bytes := by
    rw [← hw]
    exact v.isLt
  have htake := onBytes_eq (n := n) (LittleEndian.take_encode w.bytes v.toNat t)
  rw [word, Attempt.bind_ok htake, Attempt.pure_run, LittleEndian.decode_encode_of_lt hv,
    BitVec.ofNat_toNat, BitVec.setWidth_eq]

theorem flag_encode (b : Bool) (t : Bytes) :
    flag ⟨n, (if b then 1 else 0) :: t⟩ = (.ok b, ⟨n, t⟩) := by
  cases b with
  | false =>
    have h : word .w8 ⟨n, 0 :: t⟩ = (.ok 0, ⟨n, t⟩) := word_encode .w8 0 t
    exact Attempt.bind_ok h _
  | true =>
    have h : word .w8 ⟨n, 1 :: t⟩ = (.ok 1, ⟨n, t⟩) := word_encode .w8 1 t
    exact Attempt.bind_ok h _

theorem length_count {k : Nat} (hk : k ≤ maxLength) (hs : k ≤ src.limits.length) (t : Bytes) :
    length src ⟨n, src.layout.count k ++ t⟩ = (.ok k, ⟨n, t⟩) := by
  have hallows : src.limits.Allows k := ⟨Int.natCast_nonneg k, Int.ofNat_le.2 hs⟩
  rw [length, Attempt.bind_ok (onBytes_eq (Layout.readLength_count hk t)), if_pos hallows]
  rfl

theorem counted_count {b : Bytes} (hb : b.length ≤ maxLength) (hs : b.length ≤ src.limits.length)
    (t : Bytes) :
    counted src ⟨n, src.layout.count b.length ++ b ++ t⟩ = (.ok b, ⟨n, t⟩) := by
  rw [counted, List.append_assoc, Attempt.bind_ok (length_count hb hs (b ++ t))]
  exact onBytes_eq (Unread.take_append rfl)

theorem optional_absent {α : Type} {p : Program α} (t : Bytes) :
    (Program.optional p).run src ⟨n, 0 :: t⟩ = (.ok none, ⟨n, t⟩) := by
  rw [Program.optional, Program.run_bind, Program.run_ask]
  exact Attempt.bind_ok (flag_encode false t) _

theorem optional_present {α : Type} {p : Program α} {a : α} {b t : Bytes}
    (h : p.run src ⟨n, b⟩ = (.ok a, ⟨n, t⟩)) :
    (Program.optional p).run src ⟨n, 1 :: b⟩ = (.ok (some a), ⟨n, t⟩) := by
  rw [Program.optional, Program.run_bind, Program.run_ask]
  refine (Attempt.bind_ok (flag_encode true b) _).trans ?_
  exact Attempt.bind_ok h _

theorem primitive_image {p : Primitive} (hp : p.counted ≤ maxLength)
    (hs : p.counted ≤ src.limits.length) (t : Bytes) :
    (primitive p.kind).run src ⟨n, p.image src.layout ++ t⟩ = (.ok p, ⟨n, t⟩) := by
  cases p with
  | unit => rfl
  | bool b => exact Attempt.bind_ok (flag_encode b t) _
  | uint w v => exact Attempt.bind_ok (word_encode w v t) _
  | int w v => exact Attempt.bind_ok (word_encode w v t) _
  | text s =>
    have htext : (Query.run src .text) ⟨n, (Primitive.text s).image src.layout ++ t⟩ =
        (.ok s, ⟨n, t⟩) := by
      rw [Query.run, Primitive.image, Attempt.bind_ok (counted_count hp hs t), Attempt.lift,
        Text.decode_encode]
    exact Attempt.bind_ok htext _
  | bytes b => exact Attempt.bind_ok (counted_count hp hs t) _
  | option v =>
    cases v with
    | none => exact Attempt.bind_ok (optional_absent t) _
    | some v =>
      have hv : (Program.ask (.uint .w64)).run src
          ⟨n, LittleEndian.encode Width.w64.bytes v.toNat ++ t⟩ = (.ok v, ⟨n, t⟩) :=
        word_encode .w64 v t
      exact Attempt.bind_ok (optional_present hv) _
  | variant i => exact Attempt.bind_ok (onBytes_eq (Layout.readVariant_variantBytes i t)) _

theorem primitives_image {ps : List Primitive} (hp : ∀ p ∈ ps, p.counted ≤ maxLength)
    (hs : ∀ p ∈ ps, p.counted ≤ src.limits.length) (t : Bytes) :
    (primitives (ps.map Primitive.kind)).run src
      ⟨n, ps.flatMap (Primitive.image src.layout) ++ t⟩ = (.ok ps, ⟨n, t⟩) := by
  induction ps with
  | nil => rfl
  | cons p ps ih =>
    rw [List.forall_mem_cons] at hp hs
    rw [List.map_cons, List.flatMap_cons, List.append_assoc, primitives, Program.run_bind,
      Attempt.bind_ok (primitive_image hp.1 hs.1 _), Program.run_bind,
      Attempt.bind_ok (ih hp.2 hs.2)]
    rfl

namespace Program
variable {κ ν : Type} {key : Program κ} {value : Program ν} {previous : Option Bytes} {k : κ}
  {d b : Bytes} {m : Nat}

theorem inOrder_eq (h : src.layout.canonical → ∀ p ∈ previous, p < d) (s : Session) :
    (inOrder previous d).run src s = (.ok (), s) := by
  cases previous with
  | none => rfl
  | some p =>
    have hcheck : src.layout.checkKeys p d = .ok () := by
      by_cases hc : src.layout.canonical
      · rw [Layout.checkKeys, if_pos hc, Entries.checkIncreasing, if_pos (h hc p rfl)]
      · rw [Layout.checkKeys, if_neg hc]
    rw [inOrder, run_ask]
    exact congrArg (fun r => (r, s)) hcheck

/-- A key that is in order is put aside, and its value is read. -/
theorem entries_succ (hk : key.run src ⟨n, d ++ b⟩ = (.ok k, ⟨n, b⟩))
    (h : src.layout.canonical → ∀ p ∈ previous, p < d) :
    (entries key value previous (m + 1)).run src ⟨n, d ++ b⟩ =
      (do return (k, ← value) :: (← entries key value (some d) m) :
        Program (List (κ × ν))).run src ⟨n, b⟩ := by
  rw [entries, run_bind, run_capture, Attempt.bind_ok (capture_eq hk), run_bind,
    Attempt.bind_ok (inOrder_eq h _)]

/-- A length and then what is read by it, one container deeper, which gives the budget back. -/
theorem counted_container {α : Type} {q : Nat → Program α} {r : Except Fault α} {j : Nat} {t : Bytes}
    (hj : j ≤ maxLength) (hs : j ≤ src.limits.length) (hn : n < maxWord)
    (h : (q j).run src ⟨n, b⟩ = (r, ⟨n, t⟩)) :
    (container (do q (← ask .length))).run src ⟨n + 1, src.layout.count j ++ b⟩ =
      (r, ⟨n + 1, t⟩) :=
  container_eq hn ((Attempt.bind_ok (length_count hj hs b) _).trans h)

end Program
end Read

/-- The schemas by which `k` items are read, whether one is for all of them or each has its own. -/
inductive Schema.Items (k : Nat) : Schema → List Schema → Prop where
  | sequence (item : Schema) : Items k (.sequence item) (List.replicate k item)
  | listed (items : List Schema) (h : k = items.length) : Items k (.listed items) items

theorem Schema.Items.read_zero {s : Schema} {ss : List Schema} {k : Nat} (h : s.Items k ss)
    (b : Bytes) : s.read.run src ⟨0, b⟩ = (.error .depthExceeded, ⟨0, b⟩) := by
  cases h with
  | sequence item => exact Attempt.bind_error (container_zero _ b) _
  | listed _ _ => exact container_zero _ b

namespace Value
variable {s key value : Schema} {v : Value} {vs : List Value} {es : List (Value × Value)}
  {previous : Option Bytes}

/-- A value that a reader with a budget of `n` does not refuse for its lengths or for its order. -/
structure Readable (src : Read.Source) (n : Nat) (v : Value) : Prop where
  mapFree : src.layout.canonical → v.MapFree
  le_maxLength : v.longest ≤ maxLength
  le_limit : v.longest ≤ src.limits.length
  le_maxWord : n ≤ maxWord

namespace Readable

theorem part (h : Readable src n (.tuple vs)) (hv : v ∈ vs) : Readable src n v where
  mapFree hc := mapFree_tuple_iff.1 (h.mapFree hc) v hv
  le_maxLength := longestAll_le_iff.1 h.le_maxLength v hv
  le_limit := longestAll_le_iff.1 h.le_limit v hv
  le_maxWord := h.le_maxWord

theorem item (h : Readable src (n + 1) (.sequence vs)) (hv : v ∈ vs) : Readable src n v where
  mapFree hc := mapFree_sequence_iff.1 (h.mapFree hc) v hv
  le_maxLength := (longest_sequence_le_iff.1 h.le_maxLength).2 v hv
  le_limit := (longest_sequence_le_iff.1 h.le_limit).2 v hv
  le_maxWord := Nat.le_of_succ_le h.le_maxWord

theorem entry (h : Readable src (n + 1) (.map es)) {e : Value × Value} (he : e ∈ es) :
    Readable src n e.1 ∧ Readable src n e.2 := by
  have hc : ¬ src.layout.canonical := fun hc => not_mapFree_map es (h.mapFree hc)
  have hlength := (longest_map_le_iff.1 h.le_maxLength).2 e he
  have hlimit := (longest_map_le_iff.1 h.le_limit).2 e he
  have hbudget := Nat.le_of_succ_le h.le_maxWord
  exact ⟨⟨fun h => absurd h hc, hlength.1, hlimit.1, hbudget⟩,
    ⟨fun h => absurd h hc, hlength.2, hlimit.2, hbudget⟩⟩

/-- One container deeper the items are read behind their number, to whatever end. -/
theorem read_sequence (hv : Readable src (n + 1) (.sequence vs)) {ss : List Schema}
    (hi : s.Items vs.length ss) {r : Except Fault (List Value)} {t u : Bytes}
    (h : (Schema.readAll ss).run src ⟨n, imageAll src.layout vs ++ t⟩ = (r, ⟨n, u⟩)) :
    s.read.run src ⟨n + 1, (Value.sequence vs).image src.layout ++ t⟩ =
      (r.map .sequence, ⟨n + 1, u⟩) := by
  have hl := (longest_sequence_le_iff.1 hv.le_maxLength).1
  have hs := (longest_sequence_le_iff.1 hv.le_limit).1
  rw [image, List.append_assoc]
  cases hi with
  | sequence item =>
    rw [← Schema.times_read] at h
    exact Attempt.bind_pure_eq (Read.Program.counted_container hl hs hv.le_maxWord h) _
  | listed _ hcount =>
    refine Read.Program.counted_container hl hs hv.le_maxWord ?_
    rw [if_pos hcount]
    exact Attempt.bind_pure_eq h _

end Readable

def ReadsBack (src : Read.Source) (n : Nat) (s : Schema) (v w : Value) : Prop :=
  ∀ t, s.read.run src ⟨n, v.image src.layout ++ t⟩ = (.ok w, ⟨n, t⟩)

theorem readAll_of_readsBack {ss : List Schema} {vs : List Value} (h : Schema.DescribeAll ss vs)
    (hback : ∀ s ∈ ss, ∀ v ∈ vs, s.Describes v → ReadsBack src n s v v) (t : Bytes) :
    (Schema.readAll ss).run src ⟨n, imageAll src.layout vs ++ t⟩ = (.ok vs, ⟨n, t⟩) := by
  induction ss generalizing vs with
  | nil =>
    cases vs with
    | nil => rfl
    | cons v vs => exact h.elim
  | cons s ss ih =>
    cases vs with
    | nil => exact h.elim
    | cons v vs =>
      have hv := hback s List.mem_cons_self v List.mem_cons_self h.1 (imageAll src.layout vs ++ t)
      have hvs := ih h.2 fun r hr w hw =>
        hback r (List.mem_cons_of_mem s hr) w (List.mem_cons_of_mem v hw)
      rw [Schema.readAll, imageAll, List.append_assoc, Read.Program.run_bind,
        Attempt.bind_ok hv, Read.Program.run_bind, Attempt.bind_ok hvs]
      rfl

/-- After a key in order its value is read, and then the entries behind. -/
theorem entries_cons {e : Value × Value} (hkey : ReadsBack src n key e.1 e.1)
    (h : src.layout.canonical → ∀ p ∈ previous, p < e.1.image src.layout) (t : Bytes) :
    (Read.Program.entries key.read value.read previous (e :: es).length).run src
        ⟨n, ((e :: es).map (entryImage src.layout)).flatten ++ t⟩ =
      (do return (e.1, ← value.read) :: (← Read.Program.entries key.read value.read
          (some (e.1.image src.layout)) es.length) : Read.Program (List (Value × Value))).run src
        ⟨n, e.2.image src.layout ++ ((es.map (entryImage src.layout)).flatten ++ t)⟩ := by
  have hk := hkey (e.2.image src.layout ++ ((es.map (entryImage src.layout)).flatten ++ t))
  rw [List.map_cons, List.flatten_cons, entryImage, List.append_assoc, List.append_assoc]
  exact Read.Program.entries_succ hk h

theorem entries_of_readsBack (hc : ¬ src.layout.canonical)
    (h : ∀ e ∈ es, ReadsBack src n key e.1 e.1 ∧ ReadsBack src n value e.2 e.2) (t : Bytes) :
    (Read.Program.entries key.read value.read previous es.length).run src
      ⟨n, (es.map (entryImage src.layout)).flatten ++ t⟩ = (.ok es, ⟨n, t⟩) := by
  induction es generalizing previous with
  | nil => rfl
  | cons e es ih =>
    rw [List.forall_mem_cons] at h
    rw [entries_cons h.1.1 fun hc' => absurd hc' hc, Read.Program.run_bind,
      Attempt.bind_ok (h.1.2 _), Read.Program.run_bind, Attempt.bind_ok (ih h.2)]
    rfl

theorem read_map_ok {ws : List (Value × Value)} {b t : Bytes} {k : Nat} (hk : k ≤ maxLength)
    (hs : k ≤ src.limits.length) (hn : n < maxWord)
    (h : (Read.Program.entries key.read value.read none k).run src ⟨n, b⟩ = (.ok ws, ⟨n, t⟩)) :
    (Schema.map key value).read.run src ⟨n + 1, src.layout.count k ++ b⟩ =
      (.ok (.map ws), ⟨n + 1, t⟩) :=
  Attempt.bind_ok (Read.Program.counted_container hk hs hn h) _

theorem readsBack_sequence {ss : List Schema} (hi : s.Items vs.length ss)
    (hd : Schema.DescribeAll ss vs) (hv : Readable src n (.sequence vs))
    (hh : (Value.sequence vs).height ≤ n)
    (hback : ∀ r ∈ ss, ∀ {m v}, r.Describes v → Readable src m v → v.height ≤ m →
      ReadsBack src m r v v) : ReadsBack src n s (.sequence vs) (.sequence vs) := by
  obtain ⟨m, rfl⟩ := exists_eq_succ_of_height_sequence_le hh
  rw [height_sequence_le_succ_iff] at hh
  have hitems (r : Schema) (hr : r ∈ ss) (v : Value) (hmem : v ∈ vs) (hdv : r.Describes v) :
      ReadsBack src m r v v := hback r hr hdv (hv.item hmem) (hh v hmem)
  exact fun t => hv.read_sequence hi (readAll_of_readsBack hd hitems t)

/-- A reader gives back every value that its schema describes, but for maps under a canonical
layout, whose entries it gives back in order. -/
theorem readsBack (hd : s.Describes v) (hv : Readable src n v) (hh : v.height ≤ n) :
    ReadsBack src n s v v := by
  induction s using Schema.induct generalizing v n with
  | primitive k =>
    cases v with
    | primitive p =>
      obtain rfl : p.kind = k := hd
      exact fun t => Attempt.bind_ok (Read.primitive_image hv.le_maxLength hv.le_limit t) _
    | _ => exact hd.elim
  | tuple parts ih =>
    cases v with
    | tuple vs =>
      have hparts (s : Schema) (hmem : s ∈ parts) (v : Value) (hmem' : v ∈ vs)
          (hd : s.Describes v) : ReadsBack src n s v v :=
        ih s hmem hd (hv.part hmem') (heightAll_le_iff.1 hh v hmem')
      exact fun t => Attempt.bind_ok (readAll_of_readsBack hd hparts t) _
    | _ => exact hd.elim
  | sequence item ih =>
    cases v with
    | sequence vs =>
      refine readsBack_sequence (.sequence item) (Schema.describeAll_replicate_iff.2 hd) hv hh ?_
      intro r hr
      obtain rfl := List.eq_of_mem_replicate hr
      exact ih
    | _ => exact hd.elim
  | listed items ih =>
    cases v with
    | sequence vs => exact readsBack_sequence (.listed items hd.length_eq) hd hv hh ih
    | _ => exact hd.elim
  | map key value ihk ihv =>
    cases v with
    | map es =>
      have hc : ¬ src.layout.canonical := fun hc => not_mapFree_map es (hv.mapFree hc)
      obtain ⟨m, rfl⟩ := exists_eq_succ_of_height_map_le hh
      rw [height_map_le_succ_iff] at hh
      have hentries (e : Value × Value) (he : e ∈ es) :
          ReadsBack src m key e.1 e.1 ∧ ReadsBack src m value e.2 e.2 :=
        ⟨ihk (hd e he).1 (hv.entry he).1 (hh e he).1, ihv (hd e he).2 (hv.entry he).2 (hh e he).2⟩
      intro t
      rw [image, imageEntries_eq_map, Layout.arrange, if_neg hc, List.append_assoc]
      exact read_map_ok (longest_map_le_iff.1 hv.le_maxLength).1
        (longest_map_le_iff.1 hv.le_limit).1 hv.le_maxWord (entries_of_readsBack hc hentries t)
    | _ => exact hd.elim

theorem MapFree.readsBack (hm : v.MapFree) (hl : v.longest ≤ maxLength)
    (hs : v.longest ≤ src.limits.length) (hh : v.height ≤ n) (hn : n ≤ maxWord) :
    ReadsBack src n v.shape v v :=
  Value.readsBack hm.describes_shape ⟨fun _ => hm, hl, hs, hn⟩ hh

theorem readAll_image (hm : ∀ v ∈ vs, v.MapFree)
    (hl : ∀ v ∈ vs, v.longest ≤ maxLength) (hs : ∀ v ∈ vs, v.longest ≤ src.limits.length)
    (hh : ∀ v ∈ vs, v.height ≤ n) (hn : n ≤ maxWord) (t : Bytes) :
    (Schema.readAll (shapeAll vs)).run src ⟨n, imageAll src.layout vs ++ t⟩ =
      (.ok vs, ⟨n, t⟩) :=
  readAll_of_readsBack (describeAll_shapeAll fun v hv => (hm v hv).describes_shape)
    (fun _ _ v hv hd =>
      Value.readsBack hd ⟨fun _ => hm v hv, hl v hv, hs v hv, hn⟩ (hh v hv)) t

end Value
end Bytewire
