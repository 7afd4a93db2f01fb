import Bytewire.Proofs.Frame.Unpacking

/-! Which byte strings unpack. A string without zeros falls in one way into blocks and perhaps a
last block that is cut short; unpacking refuses the cut unless exactly one byte is missing, for
then it takes the terminator in its place. -/
namespace Bytewire.Frame

namespace Block

theorem toNat_code (b : Block) : b.code.toNat = b.data.length + 1 := by
  have h := b.length_le
  rw [maxRun] at h
  rw [code, UInt8.toNat_ofNat', Nat.mod_eq_of_lt (by omega)]

theorem code_ne_terminator (b : Block) : b.code ≠ terminator := by
  intro h
  have hcode := b.toNat_code
  rw [h] at hcode
  exact absurd hcode (by simp [terminator])

theorem terminator_notMem_bytes (b : Block) : terminator ∉ b.bytes := by
  intro h
  rcases List.mem_cons.1 h with h | h
  · exact b.code_ne_terminator h.symm
  · exact b.nonzero terminator h rfl

theorem full_iff (b : Block) : b.Full ↔ b.code.toNat = fullCode := by
  rw [toNat_code, Full, maxRun, fullCode]
  omega

theorem ext_data {b c : Block} (h : b.data = c.data) : b = c := by
  cases b
  cases c
  cases h
  rfl

/-- Two strings that begin with a block begin with the same one. -/
theorem bytes_append_inj {b c : Block} {u v : Bytes} (h : b.bytes ++ u = c.bytes ++ v) :
    b = c ∧ u = v := by
  obtain ⟨hcode, hrest⟩ := List.cons.inj h
  have hlen : b.data.length = c.data.length := by
    have := congrArg UInt8.toNat hcode
    rw [toNat_code, toNat_code] at this
    omega
  obtain ⟨hdata, htail⟩ := List.append_inj hrest hlen
  exact ⟨ext_data hdata, htail⟩

theorem exists_bytes_append {c : UInt8} {g : Bytes} (hc : c ≠ terminator)
    (hg : terminator ∉ g) (h : c.toNat ≤ g.length + 1) :
    ∃ b : Block, c :: g = b.bytes ++ g.drop (c.toNat - 1) := by
  have hpos : c.toNat ≠ 0 := fun h0 => hc (UInt8.toNat_inj.1 h0)
  have hlt := c.toNat_lt
  have hlen : (g.take (c.toNat - 1)).length = c.toNat - 1 := by
    rw [List.length_take, Nat.min_eq_left (by omega)]
  have hnonzero : ∀ x ∈ g.take (c.toNat - 1), x ≠ terminator := by
    rintro x hx rfl
    exact hg (List.mem_of_mem_take hx)
  refine ⟨⟨g.take (c.toNat - 1), by rw [hlen, maxRun]; omega, hnonzero⟩, ?_⟩
  have hcode : UInt8.ofNat ((g.take (c.toNat - 1)).length + 1) = c := by
    rw [hlen, Nat.sub_add_cancel (by omega), UInt8.ofNat_toNat]
  rw [bytes, code, hcode, List.cons_append, List.take_append_drop]

end Block

theorem terminator_notMem_blocks (bs : List Block) : terminator ∉ bs.flatMap Block.bytes := by
  intro h
  obtain ⟨b, -, hb⟩ := List.mem_flatMap.1 h
  exact b.terminator_notMem_bytes hb

/-- A string without zeros is made of blocks and, if they do not use it up, of a last code with
fewer bytes behind it than it asks for. -/
theorem blocks_or_cut {g : Bytes} (hg : terminator ∉ g) :
    (∃ bs : List Block, g = bs.flatMap Block.bytes) ∨
      ∃ (bs : List Block) (c : UInt8) (data : Bytes),
        g = bs.flatMap Block.bytes ++ c :: data ∧ data.length + 2 ≤ c.toNat := by
  -- On the length, since a whole block goes at once.
  induction hn : g.length using Nat.strongRecOn generalizing g with
  | ind n ih =>
    cases g with
    | nil => exact .inl ⟨[], rfl⟩
    | cons c g =>
      rw [List.mem_cons, not_or] at hg
      by_cases hc : g.length + 2 ≤ c.toNat
      · exact .inr ⟨[], c, g, rfl, hc⟩
      · obtain ⟨b, hb⟩ := Block.exists_bytes_append (Ne.symm hg.1) hg.2 (by omega)
        have hlen : (g.drop (c.toNat - 1)).length < n := by
          rw [List.length_drop, ← hn, List.length_cons]
          omega
        have htail : terminator ∉ g.drop (c.toNat - 1) := fun h => hg.2 (List.mem_of_mem_drop h)
        rcases ih _ hlen htail rfl with ⟨bs, hbs⟩ | ⟨bs, d, data, hbs, hd⟩
        · exact .inl ⟨b :: bs, by rw [hb, hbs, List.flatMap_cons]⟩
        · refine .inr ⟨b :: bs, d, data, ?_, hd⟩
          rw [hb, hbs, List.flatMap_cons, List.append_assoc]

/-- Blocks do not also end in a block that is cut short. -/
theorem blocks_ne_cut {bs cs : List Block} {c : UInt8} {data : Bytes}
    (h : data.length + 2 ≤ c.toNat) :
    bs.flatMap Block.bytes ≠ cs.flatMap Block.bytes ++ c :: data := by
  intro heq
  induction cs generalizing bs with
  | nil =>
    cases bs with
    | nil => exact absurd heq (by simp)
    | cons b bs =>
      rw [List.flatMap_cons, Block.bytes, List.cons_append, List.flatMap_nil,
        List.nil_append] at heq
      obtain ⟨hcode, hrest⟩ := List.cons.inj heq
      have hlen := congrArg List.length hrest
      rw [List.length_append] at hlen
      rw [← hcode, Block.toNat_code] at h
      omega
  | cons d cs ih =>
    cases bs with
    | nil => exact absurd heq (by simp [Block.bytes])
    | cons b bs =>
      rw [List.flatMap_cons, List.flatMap_cons, List.append_assoc] at heq
      exact ih (Block.bytes_append_inj heq).2

theorem closed_append {g : Bytes} (hg : terminator ∉ g) : Closed (g ++ [terminator]) :=
  ⟨List.getLast?_concat, by rwa [List.dropLast_concat]⟩

theorem eq_append_of_closed {f : Bytes} (h : Closed f) :
    ∃ g, f = g ++ [terminator] ∧ terminator ∉ g := by
  obtain ⟨g, rfl⟩ := List.getLast?_eq_some_iff.1 h.1
  exact ⟨g, rfl, by simpa using h.2⟩

theorem closed_ofBlocks (bs : List Block) : Closed (ofBlocks bs) :=
  closed_append (terminator_notMem_blocks bs)

theorem expand_block (b : Block) {rest : Bytes} (h : rest ≠ []) :
    expand (b.bytes ++ rest) = (b.text ++ (expand rest).1, (expand rest).2) := by
  have hrun : b.code.toNat - 1 = b.data.length := by rw [Block.toNat_code, Nat.add_sub_cancel]
  have hrest : 0 < rest.length := List.length_pos_iff.2 h
  have hfit : b.code.toNat ≤ (b.data ++ rest).length + 1 := by
    rw [Block.toNat_code, List.length_append]
    omega
  have hchunk : chunk b.code (b.data ++ rest) = b.text := by
    rw [chunk, hrun, List.take_left, List.length_append, Block.text]
    by_cases hb : b.Full
    · rw [if_neg (fun hz => hz.1 (b.full_iff.1 hb)), if_pos hb, List.append_nil]
    · rw [if_pos ⟨fun hz => hb (b.full_iff.2 hz), by omega⟩, if_neg hb]
  rw [Block.bytes, List.cons_append, expand_of_le hfit, hchunk, hrun, List.drop_left]

theorem expand_blocks (bs : List Block) {rest : Bytes} (h : rest ≠ []) :
    expand (bs.flatMap Block.bytes ++ rest) =
      (bs.flatMap Block.text ++ (expand rest).1, (expand rest).2) := by
  induction bs with
  | nil => rfl
  | cons b bs ih =>
    have hne : bs.flatMap Block.bytes ++ rest ≠ [] := List.append_ne_nil_of_right_ne_nil _ h
    rw [List.flatMap_cons, List.append_assoc, expand_block b hne, ih, List.flatMap_cons,
      List.append_assoc]

theorem expand_terminator : expand [terminator] = ([], true) := by
  have hchunk : chunk terminator [] = [] := by decide
  rw [expand_of_le (by decide), hchunk, List.drop_nil, expand_nil]
  rfl

theorem expand_ofBlocks (bs : List Block) :
    expand (ofBlocks bs) = (bs.flatMap Block.text, true) := by
  rw [ofBlocks, expand_blocks bs (List.cons_ne_nil _ _), expand_terminator, List.append_nil]

/-- A code that asks for one byte more than there is takes the terminator. -/
theorem expand_overrun {c : UInt8} {data : Bytes} (h : c.toNat = data.length + 2) :
    expand (c :: data ++ [terminator]) = (data ++ [terminator], true) := by
  have hlen : (data ++ [terminator]).length = data.length + 1 := by
    rw [List.length_append, List.length_singleton]
  have hrun : c.toNat - 1 = (data ++ [terminator]).length := by omega
  have hchunk : chunk c (data ++ [terminator]) = data ++ [terminator] := by
    rw [chunk, hrun, List.take_length, if_neg (fun hz => Nat.lt_irrefl _ hz.2), List.append_nil]
  rw [List.cons_append, expand_of_le (by omega), hchunk, hrun, List.drop_length, expand_nil,
    List.append_nil]

theorem expand_cut {c : UInt8} {data : Bytes} (h : data.length + 2 < c.toNat) :
    expand (c :: data ++ [terminator]) = ([], false) := by
  have hlen : (data ++ [terminator]).length = data.length + 1 := by
    rw [List.length_append, List.length_singleton]
  rw [List.cons_append, expand_of_lt (by omega)]

end Bytewire.Frame
