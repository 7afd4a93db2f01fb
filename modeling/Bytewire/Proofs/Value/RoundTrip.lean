import Bytewire.Proofs.Value.Reading
import Bytewire.Proofs.Value.Writing

/-! Values that are written can be read back, with any bytes behind them. -/
namespace Bytewire
open Session

/-- Writing succeeds, and from what it wrote and any tail the same values are read, exactly the
tail is left, and the reader is finished only if the tail is empty. -/
theorem readAll_writeAll (l : Layout) (vs : List Value) (hm : ∀ v ∈ vs, v.MapFree)
    (hl : ∀ v ∈ vs, v.longest ≤ maxLength) (hh : ∀ v ∈ vs, v.height ≤ maxWord) :
    ∃ b, Value.writeAll l vs (.start {} []) = (.ok (), .start {} b) ∧
      ∀ t, ∃ s, (Schema.readAll (Value.shapeAll vs)).run ⟨l, {}, b ++ t⟩ (.start {} (b ++ t)) =
          (.ok vs, s) ∧
        s.bytes = t ∧ Read.offset ⟨l, {}, b ++ t⟩ s = b.length ∧
        (Read.Query.finish.run ⟨l, {}, b ++ t⟩ s).1 =
          if t = [] then .ok () else .error (.extraData t.length) := by
  have hcompact : maxLength ≤ Layout.maxCompactLength := by decide
  refine ⟨Value.imageAll l vs, ?_, fun t => ⟨.start {} t, ?_, rfl, ?_, ?_⟩⟩
  · exact Value.writeAll_eq (fun v hv => Nat.le_trans (hl v hv) hcompact) hh (Nat.le_refl _) []
  · exact Value.readAll_image hm hl hl hh (Nat.le_refl _) t
  · exact Read.offset_append rfl _
  · exact congrArg Prod.fst (Read.finish_eq _ _ t)

def nestedSample : List Value :=
  [.primitive (.text "ab"),
    .sequence [.primitive (.int .w16 (-2)), .sequence [.primitive (.option none)]]]

theorem nestedSample_mapFree : ∀ v ∈ nestedSample, v.MapFree := by
  have hinner : (Value.sequence [.primitive (.option none)]).MapFree :=
    .sequence _ (by simpa using .primitive _)
  have houter : (Value.sequence [.primitive (.int .w16 (-2)),
      .sequence [.primitive (.option none)]]).MapFree :=
    .sequence _ (by simpa using ⟨.primitive _, hinner⟩)
  simpa [nestedSample] using ⟨.primitive _, houter⟩

/-- A text, and a number and an absent word nested twice, under the canonical compact layout. -/
theorem readAll_writeAll_nestedSample :
    (∀ v ∈ nestedSample, v.MapFree) ∧ (∀ v ∈ nestedSample, v.longest ≤ maxLength) ∧
      (∀ v ∈ nestedSample, v.height ≤ maxWord) ∧
    ∃ b, Value.writeAll ⟨.compact, true⟩ nestedSample (.start {} []) = (.ok (), .start {} b) ∧
      ∀ t, ∃ s, (Schema.readAll (Value.shapeAll nestedSample)).run ⟨⟨.compact, true⟩, {}, b ++ t⟩
          (.start {} (b ++ t)) = (.ok nestedSample, s) ∧
        s.bytes = t ∧ Read.offset ⟨⟨.compact, true⟩, {}, b ++ t⟩ s = b.length ∧
        (Read.Query.finish.run ⟨⟨.compact, true⟩, {}, b ++ t⟩ s).1 =
          if t = [] then .ok () else .error (.extraData t.length) := by
  have hl : ∀ v ∈ nestedSample, v.longest ≤ maxLength := by decide
  have hh : ∀ v ∈ nestedSample, v.height ≤ maxWord := by decide
  exact ⟨nestedSample_mapFree, hl, hh,
    readAll_writeAll ⟨.compact, true⟩ nestedSample nestedSample_mapFree hl hh⟩

end Bytewire
