import Bytewire.Proofs.Value.Spelling
import Bytewire.Proofs.Value.Writing

/-! Values read from whole inputs and written again. Under the fixed coding no two inputs are read
as the same value, and under the compact coding the bytes written are the shortest of those that
are. -/
namespace Bytewire
open Session

theorem Read.whole_eq_ok_iff {α : Type} {src : Read.Source} {p : Read.Program α} {a : α} :
    (Read.whole p).outcome src = .ok a ↔
      ∃ n, p.run src (.start src.limits src.input) = (.ok a, ⟨n, []⟩) := by
  rw [Read.Program.outcome, Read.whole, Read.Program.run_bind]
  constructor
  · intro h
    obtain ⟨x, ⟨n, b⟩, hx, h⟩ := Attempt.eq_ok_of_bind (Prod.ext h rfl)
    obtain ⟨_, u, hfinish, h⟩ := Attempt.eq_ok_of_bind h
    cases h
    cases b with
    | nil => exact ⟨n, hx⟩
    | cons y b => cases hfinish
  · rintro ⟨n, h⟩
    rw [Attempt.bind_ok h]
    rfl

namespace Value
variable {l : Layout} {lim wide : Limits} {s : Schema} {i : Bytes} {v : Value}

theorem takenFrom_of_whole (hlim : lim.Valid)
    (h : (Read.whole s.read).outcome ⟨l, lim, i⟩ = .ok v) :
    s.Describes v ∧ v.longest ≤ lim.length ∧ v.height ≤ lim.depth ∧ l.Spells i (v.image l) := by
  obtain ⟨n, hread⟩ := Read.whole_eq_ok_iff.1 h
  obtain ⟨hd, htaken⟩ := s.takes _ hlim.depth_le hread
  obtain ⟨d, hi, hspelled⟩ := htaken.spelled
  obtain rfl : i = d := hi.trans (List.append_nil d)
  exact ⟨hd, htaken.longest, htaken.height, hspelled⟩

theorem write_of_le (hlim : lim.Valid) (hl : v.longest ≤ lim.length) (hh : v.height ≤ wide.depth)
    (hwide : wide.Valid) : v.write l (.start wide []) = (.ok (), .start wide (v.image l)) := by
  have hcompact : lim.length ≤ Layout.maxCompactLength := Nat.le_trans hlim.length_le (by decide)
  exact write_eq v (Nat.le_trans hl hcompact) hh hwide.depth_le []

/-- Under the fixed coding, canonical or not, a value that is read from a whole input is written to
that input again, so that there is no other input it could have been read from. -/
theorem write_of_whole_fixed (hl : l.coding = .fixed) (hlim : lim.Valid)
    (h : (Read.whole s.read).outcome ⟨l, lim, i⟩ = .ok v) (hwide : wide.Valid)
    (hdepth : lim.depth ≤ wide.depth) :
    v.write l (.start wide []) = (.ok (), .start wide i) := by
  obtain ⟨-, hlongest, hheight, hspelled⟩ := takenFrom_of_whole hlim h
  rw [hspelled.eq_of_fixed hl]
  exact write_of_le hlim hlongest (Nat.le_trans hheight hdepth) hwide

def marks : Value :=
  .map [(.primitive (.uint .w8 3), .primitive (.bool true)),
    (.primitive (.uint .w8 5), .primitive (.bool false))]

def marksSchema : Schema := .map (.primitive (.uint .w8)) (.primitive .bool)

/-- A map in the order that a canonical layout wants. -/
theorem write_of_whole_fixed_marks :
    let l := Layout.mk .fixed true
    let i : Bytes := [2, 0, 0, 0, 0, 0, 0, 0, 3, 1, 5, 0]
    l.coding = .fixed ∧ Limits.Valid {} ∧
      (Read.whole marksSchema.read).outcome ⟨l, {}, i⟩ = .ok marks ∧
      ({} : Limits).depth ≤ ({} : Limits).depth ∧
      marks.write l (.start {} []) = (.ok (), .start {} i) := by
  have h : (Read.whole marksSchema.read).outcome
      ⟨⟨.fixed, true⟩, {}, [2, 0, 0, 0, 0, 0, 0, 0, 3, 1, 5, 0]⟩ = .ok marks := rfl
  have hdepth : ({} : Limits).depth ≤ ({} : Limits).depth := Nat.le_refl _
  exact ⟨rfl, Limits.valid_default, h, hdepth,
    write_of_whole_fixed rfl Limits.valid_default h Limits.valid_default hdepth⟩

/-- Under the compact coding a value that is read from a whole input can be written again. What is
written is read as the same value, and is shorter than the input unless it is the input. -/
theorem write_of_whole_compact (hlim : lim.Valid)
    (h : (Read.whole s.read).outcome ⟨⟨.compact, false⟩, lim, i⟩ = .ok v) (hwide : wide.Valid)
    (hdepth : lim.depth ≤ wide.depth) :
    ∃ b, v.write ⟨.compact, false⟩ (.start wide []) = (.ok (), .start wide b) ∧
      b.length ≤ i.length ∧ (b = i ↔ b.length = i.length) ∧
      (Read.whole s.read).outcome ⟨⟨.compact, false⟩, lim, b⟩ = .ok v := by
  obtain ⟨hd, hlongest, hheight, hspelled⟩ := takenFrom_of_whole hlim h
  refine ⟨v.image ⟨.compact, false⟩,
    write_of_le hlim hlongest (Nat.le_trans hheight hdepth) hwide, hspelled.length_le, ?_, ?_⟩
  · rw [eq_comm, hspelled.eq_iff, eq_comm]
  · have hback : ReadsBack ⟨⟨.compact, false⟩, lim, v.image ⟨.compact, false⟩⟩ lim.depth s v v :=
      readsBack hd ⟨(nomatch ·), Nat.le_trans hlongest hlim.length_le, hlongest,
        hlim.depth_le⟩ hheight
    have hread := hback []
    rw [List.append_nil] at hread
    exact Read.whole_eq_ok_iff.2 ⟨lim.depth, hread⟩

/-- The count of the sequence is said in two groups here, one more than it takes. -/
theorem write_of_whole_compact_padded :
    let l := Layout.mk .compact false
    let i : Bytes := [0x81, 0, 7, 1, 97]
    let s : Schema := .tuple [.sequence (.primitive (.uint .w8)), .primitive .bytes]
    let v : Value := .tuple [.sequence [.primitive (.uint .w8 7)], .primitive (.bytes [97])]
    Limits.Valid {} ∧ (Read.whole s.read).outcome ⟨l, {}, i⟩ = .ok v ∧
      ({} : Limits).depth ≤ ({} : Limits).depth ∧
      ∃ b, v.write l (.start {} []) = (.ok (), .start {} b) ∧ b.length ≤ i.length ∧
        (b = i ↔ b.length = i.length) ∧ (Read.whole s.read).outcome ⟨l, {}, b⟩ = .ok v := by
  intro l i s v
  have h : (Read.whole s.read).outcome ⟨l, {}, i⟩ = .ok v := rfl
  have hdepth : ({} : Limits).depth ≤ ({} : Limits).depth := Nat.le_refl _
  exact ⟨Limits.valid_default, h, hdepth,
    write_of_whole_compact Limits.valid_default h Limits.valid_default hdepth⟩

end Value
end Bytewire
