import Bytewire.Proofs.Map.Canonical
import Bytewire.Proofs.Read.Success

/-! What a canonical compact layout accepts as a map from texts to words. A length may be said in
more groups than it takes, so more is accepted than is ever written. -/
namespace Bytewire
open Session
variable {src : Read.Source} {n m : Nat} {b : Bytes} {s : Session} {previous : Option Bytes}

/-- An entry as it lies in an input: groups that say the length of a text, the text, and a word. -/
structure TextEntry where
  lead : Bytes
  text : String
  word : Word .w32
  decode_lead : Base128.decode 32 lead = (.ok (Text.encode text).length, [])

namespace TextEntry
variable {e f : TextEntry} {es : List TextEntry}

def key (e : TextEntry) : Bytes := e.lead ++ Text.encode e.text

def bytes (e : TextEntry) : Bytes := e.key ++ LittleEndian.encode Width.w32.bytes e.word.toNat

def entry (e : TextEntry) : Value × Value :=
  (.primitive (.text e.text), .primitive (.uint .w32 e.word))

/-- Keys do not begin one another, with whatever groups their lengths are said. -/
theorem eq_of_isPrefix (h : e.key <+: f.key) : e.key = f.key := by
  obtain ⟨x, hx⟩ := h
  obtain ⟨d, hd, hlead⟩ := Base128.decode_ok e.decode_lead
  obtain ⟨d', hd', hlead'⟩ := Base128.decode_ok f.decode_lead
  rw [List.append_nil] at hd hd'
  subst hd hd'
  rw [key, key, List.append_assoc] at hx
  have hsame := hlead (Text.encode e.text ++ x)
  rw [hx, hlead', Prod.mk.injEq, Except.ok.injEq] at hsame
  obtain ⟨hlength, htext⟩ := hsame
  have hnil : x = [] := by
    rw [htext, List.length_append] at hlength
    exact List.length_eq_zero_iff.1 (by omega)
  rw [hnil, List.append_nil] at hx
  exact hx

/-- Entries with keys in order are in order themselves. -/
theorem pairwise_bytes (h : (es.map key).Pairwise (· < ·)) :
    (es.map bytes).Pairwise fun x y => x ≤ y := by
  rw [List.pairwise_map] at h ⊢
  exact pairwise_append_le _ (fun e _ f _ => eq_of_isPrefix) h

def image (e : TextEntry) : Bytes := Value.entryImage ⟨.compact, true⟩ e.entry

theorem image_eq (e : TextEntry) :
    e.image = Base128.encode (Text.encode e.text).length ++ Text.encode e.text ++
      LittleEndian.encode Width.w32.bytes e.word.toNat := rfl

theorem bytes_eq_image (h : Base128.Shortest e.lead) : e.bytes = e.image := by
  rw [image_eq, bytes, key, ← Base128.eq_encode_of_shortest e.decode_lead h]

theorem length_image_lt (h : ¬ Base128.Shortest e.lead) : e.image.length < e.bytes.length := by
  have hlead := Base128.length_encode_lt e.decode_lead h
  rw [image_eq, bytes, key]
  simp only [List.length_append]
  omega

theorem length_image_le (e : TextEntry) : e.image.length ≤ e.bytes.length := by
  have hlead := Base128.length_encode_le e.decode_lead
  rw [image_eq, bytes, key]
  simp only [List.length_append]
  omega

theorem length_images_le (es : List TextEntry) :
    (es.map image).flatten.length ≤ (es.map bytes).flatten.length := by
  induction es with
  | nil => exact Nat.le_refl 0
  | cons e es ih =>
    have he := e.length_image_le
    simp only [List.map_cons, List.flatten_cons, List.length_append]
    omega

theorem length_images_lt (h : ¬ ∀ e ∈ es, Base128.Shortest e.lead) :
    (es.map image).flatten.length < (es.map bytes).flatten.length := by
  induction es with
  | nil => exact absurd (by simp) h
  | cons e es ih =>
    simp only [List.map_cons, List.flatten_cons, List.length_append]
    by_cases he : Base128.Shortest e.lead
    · have hes : ¬ ∀ e ∈ es, Base128.Shortest e.lead := by
        intro hes
        exact h (List.forall_mem_cons.2 ⟨he, hes⟩)
      have hle := e.length_image_le
      have hlt := ih hes
      omega
    · have hlt := length_image_lt he
      have hle := length_images_le es
      omega

/-- Of keys that are different bytes, and said in the shortest way, the texts are different. -/
theorem distinct (h : (es.map key).Pairwise (· < ·)) (hes : ∀ e ∈ es, Base128.Shortest e.lead) :
    (Value.map (es.map entry)).Distinct := by
  have hlead (e : TextEntry) (he : e ∈ es) :
      e.lead = Base128.encode (Text.encode e.text).length :=
    Base128.eq_encode_of_shortest e.decode_lead (hes e he)
  rw [List.pairwise_map] at h
  rw [Value.Distinct, Value.keysPairwise_map_iff, List.pairwise_map, List.forall_mem_map]
  refine ⟨h.imp_of_mem ?_, fun e _ => .mapFree (.primitive _)⟩
  intro e f he hf hlt hsame
  have htext : e.text = f.text := by simpa [entry] using hsame
  rw [key, key, hlead e he, hlead f hf, htext] at hlt
  exact List.lt_irrefl _ hlt

end TextEntry

def textSchema : Schema := .map (.primitive .text) (.primitive (.uint .w32))

theorem eq_ok_of_textKey (hl : src.layout.coding = .compact) {k : Value}
    (h : (Schema.primitive .text).read.run src ⟨n, b⟩ = (.ok k, s)) :
    ∃ lead text, k = .primitive (.text text) ∧ b = lead ++ (Text.encode text ++ s.bytes) ∧
      s.budget = n ∧ Base128.decode 32 lead = (.ok (Text.encode text).length, []) := by
  obtain ⟨p, t, hp, hk⟩ := Attempt.eq_ok_of_bind h
  obtain ⟨text, u, htext, hdone⟩ := Attempt.eq_ok_of_bind hp
  cases hdone
  cases hk
  obtain ⟨lead, hb, hbudget, hlead⟩ := Read.eq_ok_of_text hl htext
  exact ⟨lead, text, rfl, hb, hbudget, hlead⟩

theorem eq_ok_of_wordValue {v : Value}
    (h : (Schema.primitive (.uint .w32)).read.run src ⟨n, b⟩ = (.ok v, s)) :
    ∃ word : Word .w32, v = .primitive (.uint .w32 word) ∧
      b = LittleEndian.encode Width.w32.bytes word.toNat ++ s.bytes ∧ s.budget = n := by
  obtain ⟨p, t, hp, hv⟩ := Attempt.eq_ok_of_bind h
  obtain ⟨word, u, hword, hdone⟩ := Attempt.eq_ok_of_bind hp
  cases hdone
  cases hv
  obtain ⟨hb, hbudget⟩ := Read.eq_ok_of_word hword
  exact ⟨word, rfl, hb, hbudget⟩

theorem eq_ok_of_entries (hl : src.layout = ⟨.compact, true⟩) {ws : List (Value × Value)}
    (h : (Read.Program.entries (Schema.primitive .text).read
      (Schema.primitive (.uint .w32)).read previous m).run src ⟨n, b⟩ = (.ok ws, s)) :
    ∃ es : List TextEntry, ws = es.map TextEntry.entry ∧ es.length = m ∧
      b = (es.map TextEntry.bytes).flatten ++ s.bytes ∧ s.budget = n ∧
      (previous.toList ++ es.map TextEntry.key).Pairwise (· < ·) := by
  induction m generalizing previous n b ws with
  | zero =>
    cases h
    refine ⟨[], rfl, rfl, rfl, rfl, ?_⟩
    rw [List.map_nil, List.append_nil]
    exact pairwise_toList previous
  | succ m ih =>
    have hcompact : src.layout.coding = .compact := by rw [hl]
    obtain ⟨k, t, v, u, rest, d, hk, hv, hd, hlt, hrest, rfl⟩ :=
      Read.Program.eq_ok_of_entries_succ h
    obtain ⟨lead, text, rfl, hb, hbudget, hlead⟩ := eq_ok_of_textKey hcompact hk
    obtain ⟨word, rfl, ht, hbudget'⟩ := eq_ok_of_wordValue hv
    obtain ⟨es, rfl, rfl, hu, hbudget'', hkeys⟩ := ih hrest
    let e : TextEntry := ⟨lead, text, word, hlead⟩
    have hkey : d = e.key := by
      rw [hd, hb, ← List.append_assoc, List.length_append, Nat.add_sub_cancel]
      exact List.take_left
    refine ⟨e :: es, rfl, rfl, ?_, hbudget''.trans (hbudget'.trans hbudget), ?_⟩
    · rw [hb, ht, hu, List.map_cons, List.flatten_cons, TextEntry.bytes, TextEntry.key]
      simp only [List.append_assoc]
      rfl
    · rw [List.map_cons, pairwise_toList_cons_iff, ← hkey]
      exact ⟨hlt (by rw [hl]), hkeys⟩

theorem eq_ok_of_textSchema (hl : src.layout = ⟨.compact, true⟩) {v : Value}
    (h : textSchema.read.run src ⟨n, b⟩ = (.ok v, s)) :
    ∃ (lead : Bytes) (es : List TextEntry), v = .map (es.map TextEntry.entry) ∧
      Base128.decode 32 lead = (.ok es.length, []) ∧
      b = lead ++ ((es.map TextEntry.bytes).flatten ++ s.bytes) ∧
      (es.map TextEntry.key).Pairwise (· < ·) := by
  obtain ⟨ws, t, hmap, hv⟩ := Attempt.eq_ok_of_bind h
  cases hv
  obtain ⟨n', t, hn, hbody, rfl⟩ := eq_ok_of_container hmap
  obtain ⟨k, u, hlength, hentries⟩ := Attempt.eq_ok_of_bind hbody
  obtain ⟨lead, hb, _, hlead⟩ := Read.eq_ok_of_length (by rw [hl]) hlength
  obtain ⟨es, rfl, rfl, hu, _, hkeys⟩ := eq_ok_of_entries hl hentries
  refine ⟨lead, es, rfl, hlead, ?_, hkeys⟩
  rw [hb, hu]
  rfl

theorem le_maxCompactLength_of_decode {k : Nat} {d : Bytes}
    (h : Base128.decode 32 d = (.ok k, [])) : k ≤ Layout.maxCompactLength := by
  have hlt := Base128.bitLength_le_iff_lt_pow.1 (Base128.bitLength_le_of_decode h)
  rw [Layout.maxCompactLength]
  omega

theorem write_textEntries {lead : Bytes} {es : List TextEntry}
    (h : Base128.decode 32 lead = (.ok es.length, [])) :
    (Value.map (es.map TextEntry.entry)).write ⟨.compact, true⟩ (.start {} []) =
      (.ok (), .start {} (Base128.encode es.length ++
        ((es.map TextEntry.image).mergeSort fun x y => x ≤ y).flatten)) := by
  have hlongest : (Value.map (es.map TextEntry.entry)).longest ≤ Layout.maxCompactLength := by
    rw [Value.longest_map_le_iff, List.length_map, List.forall_mem_map]
    refine ⟨le_maxCompactLength_of_decode h, ?_⟩
    intro e _
    exact ⟨le_maxCompactLength_of_decode e.decode_lead, Nat.zero_le _⟩
  have hheight : (Value.map (es.map TextEntry.entry)).height ≤ 0 + 1 := by
    rw [Value.height_map_le_succ_iff, List.forall_mem_map]
    intro e _
    exact ⟨Nat.le_refl 0, Nat.le_refl 0⟩
  have himage : (Value.map (es.map TextEntry.entry)).image ⟨.compact, true⟩ =
      Base128.encode es.length ++
        ((es.map TextEntry.image).mergeSort fun x y => x ≤ y).flatten := by
    rw [Value.image, Value.imageEntries_eq_map, List.map_map, List.length_map]
    rfl
  rw [← himage]
  exact Value.write_eq _ hlongest (Nat.le_trans hheight (by decide)) (Nat.le_refl _) []

/-- Entries in order whose lengths have no more groups than they take are written as they are. -/
theorem write_shortest {lead : Bytes} {es : List TextEntry}
    (h : Base128.decode 32 lead = (.ok es.length, [])) (hlead : Base128.Shortest lead)
    (hes : ∀ e ∈ es, Base128.Shortest e.lead)
    (hsorted : (es.map TextEntry.bytes).Pairwise fun x y => x ≤ y) :
    (Value.map (es.map TextEntry.entry)).write ⟨.compact, true⟩ (.start {} []) =
      (.ok (), .start {} (lead ++ (es.map TextEntry.bytes).flatten)) := by
  have hbytes : es.map TextEntry.bytes = es.map TextEntry.image :=
    List.map_congr_left fun e he => TextEntry.bytes_eq_image (hes e he)
  rw [write_textEntries h, ← Base128.eq_encode_of_shortest h hlead, ← hbytes,
    List.mergeSort_of_pairwise (hsorted.imp decide_eq_true)]

/-- If a map from texts to words is read under the canonical compact layout, the bytes it is read
from are groups for the number of entries, and the entries, with keys in increasing order. If no
key has more groups than its length takes, no text occurs twice. Written again the map takes the
same bytes if neither the keys nor the number of entries have more groups than they take, and
fewer bytes otherwise. -/
theorem read_texts {lim : Limits} {i : Bytes} {v : Value} {s : Session}
    (h : textSchema.read.run ⟨⟨.compact, true⟩, lim, i⟩ (.start lim i) = (.ok v, s)) :
    ∃ (lead : Bytes) (es : List TextEntry), v = .map (es.map TextEntry.entry) ∧
      Base128.decode 32 lead = (.ok es.length, []) ∧
      i = lead ++ (es.map TextEntry.bytes).flatten ++ s.bytes ∧
      (es.map TextEntry.key).Pairwise (· < ·) ∧
      ((∀ e ∈ es, Base128.Shortest e.lead) → v.Distinct) ∧
      ∃ b, v.write ⟨.compact, true⟩ (.start {} []) = (.ok (), .start {} b) ∧
        (Base128.Shortest lead ∧ (∀ e ∈ es, Base128.Shortest e.lead) →
          b = lead ++ (es.map TextEntry.bytes).flatten) ∧
        (¬ (Base128.Shortest lead ∧ ∀ e ∈ es, Base128.Shortest e.lead) →
          b.length < (lead ++ (es.map TextEntry.bytes).flatten).length) := by
  obtain ⟨lead, es, rfl, hlead, hi, hkeys⟩ := eq_ok_of_textSchema rfl h
  refine ⟨lead, es, rfl, hlead, by rw [hi, List.append_assoc], hkeys, TextEntry.distinct hkeys,
    _, write_textEntries hlead, ?_, ?_⟩
  · intro hshortest
    have hwrite := write_shortest hlead hshortest.1 hshortest.2 (TextEntry.pairwise_bytes hkeys)
    exact congrArg (fun r => r.2.bytes) ((write_textEntries hlead).symm.trans hwrite)
  · intro hlonger
    rw [List.length_append, List.length_append, length_mergeSort_flatten]
    by_cases hshortest : Base128.Shortest lead
    · have hle := Base128.length_encode_le hlead
      have hlt := TextEntry.length_images_lt fun hes => hlonger ⟨hshortest, hes⟩
      omega
    · have hlt := Base128.length_encode_lt hlead hshortest
      have hle := TextEntry.length_images_le es
      omega

def longerText : Bytes := [2, 1, 97, 1, 0, 0, 0, 0x81, 0, 98, 2, 0, 0, 0, 9]

/-- The length of the second key is said in one group more than it takes, and a byte is behind. -/
theorem read_texts_longer :
    ∃ v s, textSchema.read.run ⟨⟨.compact, true⟩, {}, longerText⟩ (.start {} longerText) =
        (.ok v, s) ∧
      ∃ (lead : Bytes) (es : List TextEntry), v = .map (es.map TextEntry.entry) ∧
        Base128.decode 32 lead = (.ok es.length, []) ∧
        longerText = lead ++ (es.map TextEntry.bytes).flatten ++ s.bytes ∧
        (es.map TextEntry.key).Pairwise (· < ·) ∧
        ((∀ e ∈ es, Base128.Shortest e.lead) → v.Distinct) ∧
        ∃ b, v.write ⟨.compact, true⟩ (.start {} []) = (.ok (), .start {} b) ∧
          (Base128.Shortest lead ∧ (∀ e ∈ es, Base128.Shortest e.lead) →
            b = lead ++ (es.map TextEntry.bytes).flatten) ∧
          (¬ (Base128.Shortest lead ∧ ∀ e ∈ es, Base128.Shortest e.lead) →
            b.length < (lead ++ (es.map TextEntry.bytes).flatten).length) := by
  have hread : textSchema.read.run ⟨⟨.compact, true⟩, {}, longerText⟩ (.start {} longerText) =
      (.ok (.map [(.primitive (.text "a"), .primitive (.uint .w32 1)),
        (.primitive (.text "b"), .primitive (.uint .w32 2))]), .start {} [9]) := by rfl
  exact ⟨_, _, hread, read_texts hread⟩

def repeatedText : Bytes := [2, 1, 97, 1, 0, 0, 0, 0x81, 0, 97, 2, 0, 0, 0]

/-- The keys are in order and the map is read, but it is never written so. -/
theorem read_repeated_text :
    ∃ v, textSchema.read.run ⟨⟨.compact, true⟩, {}, repeatedText⟩ (.start {} repeatedText) =
        (.ok v, .start {} []) ∧
      ¬ v.Distinct ∧
      ∀ b, v.write ⟨.compact, true⟩ (.start {} []) = (.ok (), .start {} b) → b ≠ repeatedText := by
  have hread : textSchema.read.run ⟨⟨.compact, true⟩, {}, repeatedText⟩ (.start {} repeatedText) =
      (.ok (.map [(.primitive (.text "a"), .primitive (.uint .w32 1)),
        (.primitive (.text "a"), .primitive (.uint .w32 2))]), .start {} []) := by rfl
  refine ⟨_, hread, ?_, ?_⟩
  · intro h
    rw [Value.Distinct, Value.keysPairwise_map_iff] at h
    simp at h
  · intro b hb
    -- written, both keys have a length of one group
    let es : List TextEntry := [⟨[1], "a", 1, rfl⟩, ⟨[1], "a", 2, rfl⟩]
    have hcount : Base128.decode 32 [2] = (.ok es.length, []) := rfl
    have hwrite := write_shortest hcount (by decide) (by decide) (by decide)
    have hbytes : b = [2, 1, 97, 1, 0, 0, 0, 1, 97, 2, 0, 0, 0] :=
      congrArg (fun r => r.2.bytes) (hb.symm.trans hwrite)
    rw [hbytes]
    decide

end Bytewire
