import Bytewire.Proofs.Map.Reading
import Bytewire.Proofs.Read.Prefix
import Bytewire.Proofs.Read.Success

/-! What a reader accepts as a value. Under the fixed coding that is the image of the value and
nothing else; under the compact coding also longer spellings of it, because a number may be said in
more groups than it takes. -/
namespace Bytewire
open Session
variable {l : Layout} {src : Read.Source} {n k m : Nat} {b c d e x y : Bytes} {t u : Session}

namespace Layout

/-- Bytes that are read as what the image says: the image, or under the compact coding more. -/
def Spells (l : Layout) (d image : Bytes) : Prop :=
  d = image ∨ l.coding = .compact ∧ image.length < d.length

namespace Spells

theorem refl (d : Bytes) : l.Spells d d := .inl rfl

theorem length_le (h : l.Spells d x) : x.length ≤ d.length := by
  cases h with
  | inl h => exact Nat.le_of_eq (congrArg List.length h.symm)
  | inr h => exact Nat.le_of_lt h.2

theorem eq_iff (h : l.Spells d x) : d = x ↔ d.length = x.length := by
  refine ⟨congrArg List.length, fun hlen => ?_⟩
  cases h with
  | inl h => exact h
  | inr h => omega

theorem eq_of_fixed (h : l.Spells d x) (hl : l.coding = .fixed) : d = x := by
  cases h with
  | inl h => exact h
  | inr h =>
    rw [hl] at h
    cases h.1

theorem append (hd : l.Spells d x) (he : l.Spells e y) : l.Spells (d ++ e) (x ++ y) := by
  have hx := hd.length_le
  have hy := he.length_le
  rw [Spells, List.length_append, List.length_append]
  cases hd with
  | inl hd =>
    cases he with
    | inl he => exact .inl (by rw [hd, he])
    | inr he => exact .inr ⟨he.1, by omega⟩
  | inr hd => exact .inr ⟨hd.1, by omega⟩

/-- Spelled as their images together, two pieces are spelled so each. -/
theorem eq_and_eq (hd : l.Spells d x) (he : l.Spells e y) (h : d ++ e = x ++ y) :
    d = x ∧ e = y := by
  have hlen := congrArg List.length h
  rw [List.length_append, List.length_append] at hlen
  have hx := hd.length_le
  have hy := he.length_le
  exact ⟨hd.eq_iff.2 (by omega), he.eq_iff.2 (by omega)⟩

end Spells

theorem spells_of_decode (hl : l.coding = .compact) (h : Base128.decode n d = (.ok k, [])) :
    l.Spells d (Base128.encode k) := by
  cases Base128.shortest_or_longer h with
  | inl h => exact .inl h.2
  | inr h => exact .inr ⟨hl, h.2⟩

theorem spells_of_readLength {z : Int} (h : l.readLength b = (.ok z, c)) (hz : 0 ≤ z) :
    ∃ d, b = d ++ c ∧ l.Spells d (l.count z.toNat) := by
  cases hl : l.coding with
  | fixed =>
    simp only [readLength, hl] at h
    obtain ⟨d, c', hd, h⟩ := Attempt.eq_ok_of_bind h
    cases h
    obtain ⟨hb, hlt⟩ := LittleEndian.eq_encode_of_take hd
    -- a word that is not negative is the number of its bytes
    have htoNat : (BitVec.ofNat 64 (LittleEndian.decode d)).toInt.toNat = LittleEndian.decode d := by
      rw [BitVec.toInt_eq_toNat_cond, BitVec.toNat_ofNat, Nat.mod_eq_of_lt (by omega)] at hz ⊢
      split at hz
      · rename_i hsign
        rw [if_pos hsign, Int.toNat_natCast]
      · omega
    rw [htoNat, count, hl]
    exact ⟨_, hb, .refl _⟩
  | compact =>
    obtain ⟨k, d, rfl, hb, hdecode⟩ := eq_ok_of_readLength hl h
    refine ⟨d, hb, ?_⟩
    rw [count, hl]
    exact spells_of_decode hl hdecode

theorem spells_of_readVariant {i : UInt32} (h : l.readVariant b = (.ok i, c)) :
    ∃ d, b = d ++ c ∧ l.Spells d (l.variantBytes i) := by
  cases hl : l.coding with
  | fixed =>
    simp only [readVariant, hl] at h
    obtain ⟨d, c', hd, h⟩ := Attempt.eq_ok_of_bind h
    cases h
    obtain ⟨hb, hlt⟩ := LittleEndian.eq_encode_of_take hd
    rw [variantBytes, hl, UInt32.toNat_ofNat', Nat.mod_eq_of_lt (by omega)]
    exact ⟨_, hb, .refl _⟩
  | compact =>
    simp only [readVariant, hl] at h
    obtain ⟨k, c', hk, h⟩ := Attempt.eq_ok_of_bind h
    cases h
    obtain ⟨d, hb, hdecode⟩ := Base128.decode_used hk
    have hlt := Base128.bitLength_le_iff_lt_pow.1 (Base128.bitLength_le_of_decode hk)
    refine ⟨d, hb, ?_⟩
    rw [variantBytes, hl, UInt32.toNat_ofNat', Nat.mod_eq_of_lt hlt]
    exact spells_of_decode hl hdecode

end Layout

namespace Read

theorem spells_of_length (h : length src ⟨n, b⟩ = (.ok k, t)) :
    t.budget = n ∧ k ≤ src.limits.length ∧
      ∃ d, b = d ++ t.bytes ∧ src.layout.Spells d (src.layout.count k) := by
  obtain ⟨z, u, hz, h⟩ := Attempt.eq_ok_of_bind h
  obtain ⟨hread, hbudget⟩ := eq_of_onBytes hz
  split at h
  · rename_i hallows
    cases h
    have hle := hallows.2
    exact ⟨hbudget, by omega, Layout.spells_of_readLength hread hallows.1⟩
  · cases h

theorem spells_of_counted (h : counted src ⟨n, b⟩ = (.ok c, t)) :
    t.budget = n ∧ c.length ≤ src.limits.length ∧
      ∃ d, b = d ++ t.bytes ∧ src.layout.Spells d (src.layout.count c.length ++ c) := by
  obtain ⟨k, u, hk, htake⟩ := Attempt.eq_ok_of_bind h
  obtain ⟨hbudget, hle, d, hb, hd⟩ := spells_of_length hk
  obtain ⟨hu, hbudget', rfl⟩ := eq_ok_of_take htake
  exact ⟨hbudget'.trans hbudget, hle, d ++ c, by rw [hb, hu, List.append_assoc],
    hd.append (.refl c)⟩

theorem eq_ok_of_flag {a : Bool} (h : flag ⟨n, b⟩ = (.ok a, t)) :
    b = (if a then 1 else 0) :: t.bytes ∧ t.budget = n := by
  obtain ⟨v, u, hv, h⟩ := Attempt.eq_ok_of_bind h
  obtain ⟨hb, hbudget⟩ := eq_ok_of_word hv
  split at h
  · rename_i hzero
    cases h
    rw [hzero] at hb
    exact ⟨hb, hbudget⟩
  · split at h
    · rename_i hone
      cases h
      rw [hone] at hb
      exact ⟨hb, hbudget⟩
    · cases h

theorem eq_ok_of_optional {α : Type} {p : Program α} {a : Option α}
    (h : (Program.optional p).run src ⟨n, b⟩ = (.ok a, t)) :
    (a = none ∧ b = 0 :: t.bytes ∧ t.budget = n) ∨
      ∃ x c, a = some x ∧ b = 1 :: c ∧ p.run src ⟨n, c⟩ = (.ok x, t) := by
  obtain ⟨present, ⟨m, c⟩, htag, h⟩ := Attempt.eq_ok_of_bind h
  obtain ⟨hb, hbudget⟩ := eq_ok_of_flag htag
  cases present with
  | false =>
    cases h
    exact .inl ⟨rfl, hb, hbudget⟩
  | true =>
    obtain ⟨x, u, hx, h⟩ := Attempt.eq_ok_of_bind h
    cases h
    obtain rfl : m = n := hbudget
    exact .inr ⟨x, c, rfl, hb, hx⟩

/-- A length is spelled in front of what is read by it, one container deeper. -/
theorem eq_ok_of_counted_container {α : Type} {q : Nat → Program α} {a : α}
    (h : (Program.container (do q (← .ask .length))).run src ⟨n, b⟩ = (.ok a, t)) :
    ∃ j k d c u, n = j + 1 ∧ k ≤ src.limits.length ∧ b = d ++ c ∧
      src.layout.Spells d (src.layout.count k) ∧ (q k).run src ⟨j, c⟩ = (.ok a, u) ∧
      t = u.restore := by
  obtain ⟨j, u, rfl, hbody, rfl⟩ := eq_ok_of_container h
  obtain ⟨k, ⟨j', c⟩, hk, hrest⟩ := Attempt.eq_ok_of_bind hbody
  obtain ⟨hbudget, hle, d, hb, hd⟩ := spells_of_length hk
  obtain rfl : j' = j := hbudget
  exact ⟨j', k, d, c, u, rfl, hle, hb, hd, hrest, rfl⟩

end Read

namespace Value
variable {s key : Schema} {v w : Value} {vs : List Value} {es : List (Value × Value)}
  {previous : Option Bytes}

structure TakenFrom (src : Read.Source) (n : Nat) (b : Bytes) (v : Value) (t : Session) :
    Prop where
  budget : t.budget = n
  longest : v.longest ≤ src.limits.length
  height : v.height ≤ n
  spelled : ∃ d, b = d ++ t.bytes ∧ src.layout.Spells d (v.image src.layout)

namespace TakenFrom

theorem primitive {p : Primitive} (ht : t.budget = n) (hp : p.counted ≤ src.limits.length)
    (h : ∃ d, b = d ++ t.bytes ∧ src.layout.Spells d (p.image src.layout)) :
    (Value.primitive p).TakenFrom src n b t := ⟨ht, hp, Nat.zero_le n, h⟩

theorem nil : (tuple []).TakenFrom src n b ⟨n, b⟩ :=
  ⟨rfl, Nat.zero_le _, Nat.zero_le _, [], rfl, .refl []⟩

theorem cons (hv : v.TakenFrom src n b t) (hvs : (tuple vs).TakenFrom src n t.bytes u) :
    (tuple (v :: vs)).TakenFrom src n b u := by
  obtain ⟨d, hb, hd⟩ := hv.spelled
  obtain ⟨e, ht, he⟩ := hvs.spelled
  exact ⟨hvs.budget, Nat.max_le.2 ⟨hv.longest, hvs.longest⟩, Nat.max_le.2 ⟨hv.height, hvs.height⟩,
    d ++ e, by rw [hb, ht, List.append_assoc], hd.append he⟩

theorem sequence (hn : n < maxWord) (hk : vs.length ≤ src.limits.length)
    (hd : src.layout.Spells d (src.layout.count vs.length))
    (h : (tuple vs).TakenFrom src n b t) :
    (Value.sequence vs).TakenFrom src (n + 1) (d ++ b) t.restore := by
  obtain ⟨e, hb, he⟩ := h.spelled
  refine ⟨?_, Nat.max_le.2 ⟨hk, h.longest⟩, Nat.succ_le_succ h.height, d ++ e, ?_, hd.append he⟩
  · rw [restore, h.budget, Nat.min_eq_left hn]
  · rw [hb, List.append_assoc]
    rfl

end TakenFrom

theorem takenFrom_of_primitive {k : Kind} {p : Primitive}
    (h : (Read.primitive k).run src ⟨n, b⟩ = (.ok p, t)) :
    p.kind = k ∧ (Value.primitive p).TakenFrom src n b t := by
  cases k with
  | unit =>
    obtain ⟨a, u, ha, h⟩ := Attempt.eq_ok_of_bind h
    cases ha
    cases h
    exact ⟨rfl, .primitive rfl (Nat.zero_le _) ⟨[], rfl, .refl _⟩⟩
  | bool =>
    obtain ⟨a, u, ha, h⟩ := Attempt.eq_ok_of_bind h
    cases h
    obtain ⟨hb, hbudget⟩ := Read.eq_ok_of_flag ha
    exact ⟨rfl, .primitive hbudget (Nat.zero_le _) ⟨_, hb, .refl _⟩⟩
  | uint w | int w =>
    obtain ⟨a, u, ha, h⟩ := Attempt.eq_ok_of_bind h
    cases h
    obtain ⟨hb, hbudget⟩ := Read.eq_ok_of_word ha
    exact ⟨rfl, .primitive hbudget (Nat.zero_le _) ⟨_, hb, .refl _⟩⟩
  | text =>
    obtain ⟨a, u, ha, h⟩ := Attempt.eq_ok_of_bind h
    cases h
    obtain ⟨c, u, hc, hlift⟩ := Attempt.eq_ok_of_bind ha
    obtain ⟨htext, rfl⟩ := Prod.mk.inj hlift
    obtain rfl := Text.encode_of_decode htext
    obtain ⟨hbudget, hle, hspelled⟩ := Read.spells_of_counted hc
    exact ⟨rfl, .primitive hbudget hle hspelled⟩
  | bytes =>
    obtain ⟨a, u, ha, h⟩ := Attempt.eq_ok_of_bind h
    cases h
    obtain ⟨hbudget, hle, hspelled⟩ := Read.spells_of_counted ha
    exact ⟨rfl, .primitive hbudget hle hspelled⟩
  | option =>
    obtain ⟨a, u, ha, h⟩ := Attempt.eq_ok_of_bind h
    cases h
    rcases Read.eq_ok_of_optional ha with ⟨rfl, hb, hbudget⟩ | ⟨x, c, rfl, rfl, hx⟩
    · exact ⟨rfl, .primitive hbudget (Nat.zero_le _) ⟨_, hb, .refl _⟩⟩
    · obtain ⟨hc, hbudget⟩ := Read.eq_ok_of_word hx
      exact ⟨rfl, .primitive hbudget (Nat.zero_le _) ⟨_, congrArg (List.cons 1) hc, .refl _⟩⟩
  | variant =>
    obtain ⟨a, u, ha, h⟩ := Attempt.eq_ok_of_bind h
    cases h
    obtain ⟨hread, hbudget⟩ := eq_of_onBytes ha
    exact ⟨rfl, .primitive hbudget (Nat.zero_le _) (Layout.spells_of_readVariant hread)⟩

/-- A value read from its own image is read back from it, whatever follows. -/
theorem readsBack_of_read (h : s.read.run src ⟨n, v.image src.layout ++ t.bytes⟩ = (.ok w, t))
    (ht : t.budget = n) : ReadsBack src n s v w := by
  obtain ⟨d, hd, hall⟩ := (Schema.local_read s).forward.ok (m := t.budget) (c := t.bytes) h
  rw [ht, ← List.append_cancel_right hd] at hall
  exact hall

/-- Entries with keys in order are in order themselves, for no key begins another one. -/
theorem pairwise_entryImage (hkey : ∀ e ∈ es, ReadsBack src n key e.1 e.1)
    (h : (keyImages src.layout none es).Pairwise (· < ·)) :
    (es.map (entryImage src.layout)).Pairwise fun x y => x ≤ y := by
  rw [keyImages, Option.toList_none, List.nil_append, List.pairwise_map] at h
  rw [List.pairwise_map]
  refine pairwise_append_le (fun e : Value × Value => e.2.image src.layout) ?_ h
  intro e he f hf hbegins
  rw [(hkey e he).eq_of_isPrefix (hkey f hf) hbegins]

/-- What the success of reading entries says. Where the bytes are no longer than the images, a
canonical layout has seen the keys in order. -/
structure EntriesFrom (src : Read.Source) (n : Nat) (key : Schema) (previous : Option Bytes)
    (b : Bytes) (es : List (Value × Value)) (t : Session) : Prop where
  budget : t.budget = n
  longest : ∀ e ∈ es, e.1.longest ≤ src.limits.length ∧ e.2.longest ≤ src.limits.length
  height : ∀ e ∈ es, e.1.height ≤ n ∧ e.2.height ≤ n
  spelled : ∃ d, b = d ++ t.bytes ∧
    src.layout.Spells d (es.map (entryImage src.layout)).flatten ∧
    (src.layout.canonical → d = (es.map (entryImage src.layout)).flatten →
      (keyImages src.layout previous es).Pairwise (· < ·) ∧
        ∀ e ∈ es, ReadsBack src n key e.1 e.1)

namespace EntriesFrom

theorem nil : EntriesFrom src n key previous b [] ⟨n, b⟩ := by
  exact ⟨rfl, by simp, by simp, [], rfl, .refl [], fun _ _ => ⟨pairwise_keyImages_nil, by simp⟩⟩

theorem cons (hread : key.read.run src ⟨n, b⟩ = (.ok v, t)) (hk : v.TakenFrom src n b t)
    (hv : w.TakenFrom src n t.bytes u)
    (hd : d = b.take (b.length - t.bytes.length))
    (hlt : src.layout.canonical → ∀ p ∈ previous, p < d) {z : Session}
    (hes : EntriesFrom src n key (some d) u.bytes es z) :
    EntriesFrom src n key previous b ((v, w) :: es) z := by
  obtain ⟨dk, hbk, hdk⟩ := hk.spelled
  obtain ⟨dv, hbv, hdv⟩ := hv.spelled
  obtain ⟨de, hbe, hde, horder⟩ := hes.spelled
  obtain rfl : d = dk := by
    rw [hd, hbk, List.length_append, Nat.add_sub_cancel]
    exact List.take_left
  refine ⟨hes.budget, List.forall_mem_cons.2 ⟨⟨hk.longest, hv.longest⟩, hes.longest⟩,
    List.forall_mem_cons.2 ⟨⟨hk.height, hv.height⟩, hes.height⟩, d ++ dv ++ de, ?_,
    (hdk.append hdv).append hde, ?_⟩
  · rw [hbk, hbv, hbe, List.append_assoc, List.append_assoc]
  · intro hc hall
    obtain ⟨hentry, hrest⟩ := (hdk.append hdv).eq_and_eq hde hall
    obtain ⟨hkey, -⟩ := hdk.eq_and_eq hdv hentry
    obtain ⟨hkeys, hback⟩ := horder hc hrest
    rw [hbk, hkey] at hread
    rw [hkey] at hkeys hlt
    exact ⟨pairwise_keyImages_cons_iff.2 ⟨hlt hc, hkeys⟩,
      List.forall_mem_cons.2 ⟨readsBack_of_read hread hk.budget, hback⟩⟩

/-- A canonical layout arranges the entries as they were read, unless they were said at length. -/
theorem map (hn : n < maxWord) (hk : es.length ≤ src.limits.length)
    (hd : src.layout.Spells d (src.layout.count es.length))
    (h : EntriesFrom src n key none b es t) :
    (Value.map es).TakenFrom src (n + 1) (d ++ b) t.restore := by
  obtain ⟨e, hb, he, horder⟩ := h.spelled
  have harranged : src.layout.Spells e (src.layout.arrange (imageEntries src.layout es)).flatten := by
    rw [imageEntries_eq_map, Layout.arrange]
    split
    · rename_i hc
      cases he with
      | inl he =>
        obtain ⟨hkeys, hback⟩ := horder hc he
        have hsorted := (pairwise_entryImage hback hkeys).imp decide_eq_true
        rw [List.mergeSort_of_pairwise hsorted]
        exact .inl he
      | inr he =>
        rw [Layout.Spells, length_mergeSort_flatten]
        exact .inr he
    · exact he
  refine ⟨?_, longest_map_le_iff.2 ⟨hk, h.longest⟩, height_map_le_succ_iff.2 h.height, d ++ e, ?_,
    hd.append harranged⟩
  · rw [restore, h.budget, Nat.min_eq_left hn]
  · rw [hb, List.append_assoc]
    rfl

end EntriesFrom
end Value

namespace Schema
open Value (TakenFrom EntriesFrom)
variable {key value : Schema} {ss : List Schema} {vs : List Value} {es : List (Value × Value)}
  {previous : Option Bytes}

def Takes (src : Read.Source) (s : Schema) : Prop :=
  ∀ {n b v t}, n ≤ maxWord → s.read.run src ⟨n, b⟩ = (.ok v, t) →
    s.Describes v ∧ v.TakenFrom src n b t

theorem takes_all (hs : ∀ s ∈ ss, s.Takes src) (hn : n ≤ maxWord)
    (h : (readAll ss).run src ⟨n, b⟩ = (.ok vs, t)) :
    DescribeAll ss vs ∧ (Value.tuple vs).TakenFrom src n b t := by
  induction ss generalizing b vs with
  | nil =>
    cases h
    exact ⟨trivial, .nil⟩
  | cons s ss ih =>
    rw [List.forall_mem_cons] at hs
    obtain ⟨v, ⟨m, c⟩, hv, h⟩ := Attempt.eq_ok_of_bind h
    obtain ⟨vs, u, hvs, h⟩ := Attempt.eq_ok_of_bind h
    cases h
    obtain ⟨hd, hfirst⟩ := hs.1 hn hv
    obtain rfl : m = n := hfirst.budget
    obtain ⟨hds, hrest⟩ := ih hs.2 hvs
    exact ⟨⟨hd, hds⟩, hfirst.cons hrest⟩

theorem takes_items {s : Schema} {k : Nat} {c : Bytes} (hi : s.Items k ss)
    (hs : ∀ r ∈ ss, r.Takes src) (hn : n < maxWord) (hk : k ≤ src.limits.length)
    (hd : src.layout.Spells d (src.layout.count k))
    (h : (readAll ss).run src ⟨n, c⟩ = (.ok vs, t)) :
    s.Describes (.sequence vs) ∧ (Value.sequence vs).TakenFrom src (n + 1) (d ++ c) t.restore := by
  obtain ⟨hds, htaken⟩ := takes_all hs (Nat.le_of_lt hn) h
  cases hi with
  | sequence item =>
    obtain rfl : vs.length = k := hds.length_eq.trans List.length_replicate
    exact ⟨describeAll_replicate_iff.1 hds, htaken.sequence hn hk hd⟩
  | listed _ hcount =>
    obtain rfl : vs.length = k := hds.length_eq.trans hcount.symm
    exact ⟨hds, htaken.sequence hn hk hd⟩

theorem takes_entries (hk : key.Takes src) (hv : value.Takes src) (hn : n ≤ maxWord)
    (h : (Read.Program.entries key.read value.read previous m).run src ⟨n, b⟩ = (.ok es, t)) :
    es.length = m ∧ (∀ e ∈ es, key.Describes e.1 ∧ value.Describes e.2) ∧
      EntriesFrom src n key previous b es t := by
  induction m generalizing previous b es with
  | zero =>
    cases h
    exact ⟨rfl, by simp, .nil⟩
  | succ m ih =>
    obtain ⟨j, ⟨n₁, c₁⟩, v, ⟨n₂, c₂⟩, rest, d, hj, hw, hd, hlt, hrest, rfl⟩ :=
      Read.Program.eq_ok_of_entries_succ h
    obtain ⟨hkd, hkey⟩ := hk hn hj
    obtain rfl : n₁ = n := hkey.budget
    obtain ⟨hvd, hvalue⟩ := hv hn hw
    obtain rfl : n₂ = n₁ := hvalue.budget
    obtain ⟨rfl, hds, hbehind⟩ := ih hrest
    exact ⟨rfl, List.forall_mem_cons.2 ⟨⟨hkd, hvd⟩, hds⟩, hbehind.cons hj hkey hvalue hd hlt⟩

theorem takes (src : Read.Source) (s : Schema) : s.Takes src := by
  intro n b v t hn h
  induction s using Schema.induct generalizing n b v t with
  | primitive k =>
    obtain ⟨p, u, hp, h⟩ := Attempt.eq_ok_of_bind h
    cases h
    exact Value.takenFrom_of_primitive hp
  | tuple parts ih =>
    obtain ⟨vs, u, hvs, h⟩ := Attempt.eq_ok_of_bind h
    cases h
    exact takes_all (fun s hs _ _ _ _ => ih s hs) hn hvs
  | sequence item ih =>
    obtain ⟨vs, u, hvs, h⟩ := Attempt.eq_ok_of_bind h
    cases h
    obtain ⟨j, k, d, c, u, rfl, hle, rfl, hd, htimes, rfl⟩ := Read.eq_ok_of_counted_container hvs
    rw [times_read] at htimes
    refine takes_items (.sequence item) ?_ hn hle hd htimes
    intro r hr
    obtain rfl := List.eq_of_mem_replicate hr
    exact ih
  | listed items ih =>
    obtain ⟨j, k, d, c, u, rfl, hle, rfl, hd, hrest, rfl⟩ := Read.eq_ok_of_counted_container h
    split at hrest
    · rename_i hcount
      obtain ⟨vs, u, hvs, hrest⟩ := Attempt.eq_ok_of_bind hrest
      cases hrest
      exact takes_items (.listed items hcount) (fun s hs _ _ _ _ => ih s hs) hn hle hd hvs
    · cases hrest
  | map key value ihk ihv =>
    obtain ⟨es, u, hes, h⟩ := Attempt.eq_ok_of_bind h
    cases h
    obtain ⟨j, k, d, c, u, rfl, hle, rfl, hd, hentries, rfl⟩ :=
      Read.eq_ok_of_counted_container hes
    obtain ⟨rfl, hds, htaken⟩ := takes_entries ihk ihv (by omega) hentries
    exact ⟨hds, htaken.map hn hle hd⟩

end Schema
end Bytewire
