import Bytewire.Proofs.Entries.Sorting
import Bytewire.Value.Coding
import Bytewire.Value.Image

/-! What a writer does to its session: the image of a value goes behind the bytes that are there,
and the budget is the same afterwards. -/
namespace Bytewire
open Session
variable {l : Layout} {n : Nat} {b : Bytes}

theorem Layout.sortEntries_starts (l : Layout) (front : Bytes) (es : List Bytes) :
    l.sortEntries (Entries.starts front.length es) (front ++ es.flatten) =
      .ok (front ++ (l.arrange es).flatten) := by
  by_cases hc : l.canonical
  · simp only [sortEntries, arrange, hc, if_true, Entries.sort_starts]
  · simp only [sortEntries, arrange, hc, if_false, Bool.false_eq_true]

namespace Write

theorem emit_eq (new : Bytes) : emit new ⟨n, b⟩ = (.ok (), ⟨n, b ++ new⟩) := rfl

theorem length_eq {k : Nat} (h : k ≤ Layout.maxCompactLength) :
    length l k ⟨n, b⟩ = (.ok (), ⟨n, b ++ l.count k⟩) := by
  rw [length, Layout.lengthBytes_eq h]
  rfl

theorem counted_eq {c : Bytes} (h : c.length ≤ Layout.maxCompactLength) :
    counted l c ⟨n, b⟩ = (.ok (), ⟨n, b ++ (l.count c.length ++ c)⟩) := by
  rw [counted, Attempt.bind_ok (length_eq h), emit_eq, List.append_assoc]

theorem runCommands_one {c : Command} {s t : Session} (h : c.run l s = (.ok (), t)) :
    runCommands l [c] s = (.ok (), t) := by
  rw [runCommands, Attempt.bind_ok h]
  rfl

theorem primitive_eq {p : Primitive} (h : p.counted ≤ Layout.maxCompactLength) :
    primitive l p ⟨n, b⟩ = (.ok (), ⟨n, b ++ p.image l⟩) := by
  cases p with
  | unit => exact runCommands_one (by rw [Primitive.image, List.append_nil]; rfl)
  | bool v => exact runCommands_one (emit_eq _)
  | uint w v => exact runCommands_one (emit_eq _)
  | int w v => exact runCommands_one (emit_eq _)
  | text s => exact runCommands_one (counted_eq h)
  | bytes c => exact runCommands_one (counted_eq h)
  | option v =>
    cases v with
    | none => exact runCommands_one (emit_eq _)
    | some v =>
      have htag : (Command.tag true).run l ⟨n, b⟩ = (.ok (), ⟨n, b ++ [1]⟩) := emit_eq _
      have hword : (Command.uint .w64 v).run l ⟨n, b ++ [1]⟩ =
          (.ok (), ⟨n, b ++ [1] ++ LittleEndian.encode Width.w64.bytes v.toNat⟩) := emit_eq _
      rw [primitive, Primitive.commands, runCommands, Attempt.bind_ok htag,
        runCommands_one hword, List.append_assoc]
      rfl
  | variant i => exact runCommands_one (emit_eq _)

theorem primitives_eq {ps : List Primitive}
    (h : ∀ p ∈ ps, p.counted ≤ Layout.maxCompactLength) :
    primitives l ps ⟨n, b⟩ = (.ok (), ⟨n, b ++ ps.flatMap (Primitive.image l)⟩) := by
  induction ps generalizing b with
  | nil =>
    rw [List.flatMap_nil, List.append_nil]
    rfl
  | cons p ps ih =>
    rw [List.forall_mem_cons] at h
    rw [primitives, Attempt.bind_ok (primitive_eq h.1), ih h.2, List.flatMap_cons,
      List.append_assoc]

theorem sort_eq {offsets : List Nat} {c : Bytes} (h : l.sortEntries offsets b = .ok c) :
    (Command.sort offsets).run l ⟨n, b⟩ = (.ok (), ⟨n, c⟩) := by
  have hsort : (do .set (← .lift (l.sortEntries offsets (← .get))) : Attempt Bytes Unit) b =
      (.ok (), c) := by
    have hlift : (Attempt.lift (l.sortEntries offsets b) : Attempt Bytes Bytes) b = (.ok c, b) := by
      rw [h]
      rfl
    rw [Attempt.bind_ok (Attempt.get_run b), Attempt.bind_ok hlift]
    rfl
  exact onBytes_eq hsort

end Write

namespace Value

theorem writeAll_of_forall {vs : List Value}
    (h : ∀ v ∈ vs, ∀ b, v.write l ⟨n, b⟩ = (.ok (), ⟨n, b ++ v.image l⟩)) (b : Bytes) :
    writeAll l vs ⟨n, b⟩ = (.ok (), ⟨n, b ++ imageAll l vs⟩) := by
  induction vs generalizing b with
  | nil =>
    rw [imageAll, List.append_nil]
    rfl
  | cons v vs ih =>
    have hv := h v List.mem_cons_self b
    have hvs := ih (fun w hw => h w (List.mem_cons_of_mem v hw)) (b ++ v.image l)
    rw [writeAll, Attempt.bind_ok hv, hvs, imageAll, List.append_assoc]

theorem write_sequence_of_forall {items : List Value}
    (h : ∀ v ∈ items, ∀ b, v.write l ⟨n, b⟩ = (.ok (), ⟨n, b ++ v.image l⟩))
    (hl : items.length ≤ Layout.maxCompactLength) (hn : n < maxWord) (b : Bytes) :
    (Value.sequence items).write l ⟨n + 1, b⟩ =
      (.ok (), ⟨n + 1, b ++ (Value.sequence items).image l⟩) := by
  rw [write]
  refine container_eq hn ?_
  rw [Attempt.bind_ok (Write.length_eq hl), writeAll_of_forall h, image, List.append_assoc]

theorem length_writeEntries (l : Layout) (es : List (Value × Value)) :
    (writeEntries l es).length = es.length := by
  induction es with
  | nil => rfl
  | cons e es ih => rw [writeEntries, List.length_cons, List.length_cons, ih]

/-- The offsets noted are those at which the images of the entries begin. -/
theorem offsets_writeEntries {es : List (Value × Value)}
    (h : ∀ e ∈ es, ∀ b, e.1.write l ⟨n, b⟩ = (.ok (), ⟨n, b ++ e.1.image l⟩) ∧
      e.2.write l ⟨n, b⟩ = (.ok (), ⟨n, b ++ e.2.image l⟩)) (b : Bytes) :
    Write.offsets (writeEntries l es) ⟨n, b⟩ =
      (.ok (Entries.starts b.length (imageEntries l es)),
        ⟨n, b ++ (imageEntries l es).flatten⟩) := by
  induction es generalizing b with
  | nil =>
    rw [imageEntries, List.flatten_nil, List.append_nil]
    rfl
  | cons e es ih =>
    have hkey := (h e List.mem_cons_self b).1
    have hvalue := (h e List.mem_cons_self (b ++ e.1.image l)).2
    have hrest := ih (fun f hf => h f (List.mem_cons_of_mem e hf))
      (b ++ e.1.image l ++ e.2.image l)
    rw [writeEntries, Write.offsets, Attempt.bind_ok (Attempt.get_run _), bind_assoc,
      Attempt.bind_ok hkey, Attempt.bind_ok hvalue, Attempt.bind_ok hrest, Attempt.pure_run]
    simp only [imageEntries, Entries.starts, List.flatten_cons, List.append_assoc,
      List.length_append]

theorem write_map_of_forall {es : List (Value × Value)}
    (h : ∀ e ∈ es, ∀ b, e.1.write l ⟨n, b⟩ = (.ok (), ⟨n, b ++ e.1.image l⟩) ∧
      e.2.write l ⟨n, b⟩ = (.ok (), ⟨n, b ++ e.2.image l⟩))
    (hl : es.length ≤ Layout.maxCompactLength) (hn : n < maxWord) (b : Bytes) :
    (Value.map es).write l ⟨n + 1, b⟩ = (.ok (), ⟨n + 1, b ++ (Value.map es).image l⟩) := by
  rw [write, Write.map, length_writeEntries]
  refine container_eq hn ?_
  rw [Attempt.bind_ok (Write.length_eq hl), Attempt.bind_ok (offsets_writeEntries h _),
    Write.sort_eq (l.sortEntries_starts _ _), image, List.append_assoc]

theorem write_eq (v : Value) (hl : v.longest ≤ Layout.maxCompactLength) (hh : v.height ≤ n)
    (hn : n ≤ maxWord) (b : Bytes) :
    v.write l ⟨n, b⟩ = (.ok (), ⟨n, b ++ v.image l⟩) := by
  induction v using Value.induct generalizing n b with
  | primitive p => exact Write.primitive_eq hl
  | tuple parts ih =>
    refine writeAll_of_forall (fun v hv b => ?_) b
    exact ih v hv (longestAll_le_iff.1 hl v hv) (heightAll_le_iff.1 hh v hv) hn b
  | sequence items ih =>
    obtain ⟨m, rfl⟩ := exists_eq_succ_of_height_sequence_le hh
    rw [longest_sequence_le_iff] at hl
    rw [height_sequence_le_succ_iff] at hh
    refine write_sequence_of_forall (fun v hv b => ?_) hl.1 hn b
    exact ih v hv (hl.2 v hv) (hh v hv) (by omega) b
  | map es ih =>
    obtain ⟨m, rfl⟩ := exists_eq_succ_of_height_map_le hh
    rw [longest_map_le_iff] at hl
    rw [height_map_le_succ_iff] at hh
    refine write_map_of_forall (fun e he b => ?_) hl.1 hn b
    have hle := hl.2 e he
    have hhe := hh e he
    exact ⟨(ih e he).1 hle.1 hhe.1 (by omega) b, (ih e he).2 hle.2 hhe.2 (by omega) b⟩

theorem writeAll_eq {vs : List Value} (hl : ∀ v ∈ vs, v.longest ≤ Layout.maxCompactLength)
    (hh : ∀ v ∈ vs, v.height ≤ n) (hn : n ≤ maxWord) (b : Bytes) :
    writeAll l vs ⟨n, b⟩ = (.ok (), ⟨n, b ++ imageAll l vs⟩) :=
  writeAll_of_forall (fun v hv b => write_eq v (hl v hv) (hh v hv) hn b) b

end Value
end Bytewire
