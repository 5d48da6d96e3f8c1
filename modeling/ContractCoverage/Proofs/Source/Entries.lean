import ContractCoverage.Proofs.Data.Chain
import ContractCoverage.Source.Entry

/-! What reading an entry goes through.

An entry is read field by field, and its range is there when every field can be read and
neither offset nor length is negative (`decodeFields_eq_ok_iff`). -/
namespace ContractCoverage.Range

open Text

/-- Neither offset nor length is known to be negative. -/
structure IsNatural (r : Range) : Prop where
  offset : isNegative r.offset = false
  length : isNegative r.length = false

/-- A range is what an entry gives after another one, field by field. -/
structure Decodes (entry : List Char) (before now : Range) : Prop where
  atMost : (split ':' entry).length ≤ maxFields
  offset : readNumber entry 0 before.offset = .ok now.offset
  length : readNumber entry 1 before.length = .ok now.length
  fileId : readNumber entry 2 before.fileId = .ok now.fileId
  jump : readJump entry before.jump = .ok now.jump
  depth : readDepth entry before.modifierDepth = .ok now.modifierDepth
  natural : now.IsNatural

theorem isNatural_iff {r : Range} :
    r.IsNatural ↔ (isNegative r.offset || isNegative r.length) = false := by
  rw [Bool.or_eq_false_iff]
  exact ⟨fun h => ⟨h.offset, h.length⟩, fun h => ⟨h.1, h.2⟩⟩

theorem decodeFields_eq_ok_iff {entry : List Char} {before now : Range} :
    decodeFields entry before = .ok now ↔ Decodes entry before now := by
  constructor
  · intro h
    unfold decodeFields at h
    split at h
    · cases h
    · next hmost =>
      simp only [bind_eq_ok_iff] at h
      obtain ⟨offset, hoffset, length, hlength, fileId, hfile, jump, hjump, depth, hdepth, h⟩ := h
      split at h
      · cases h
      · next hnot =>
        cases h
        exact ⟨Nat.not_lt.1 hmost, hoffset, hlength, hfile, hjump, hdepth,
          isNatural_iff.2 (Bool.eq_false_iff.2 hnot)⟩
  · intro h
    rw [decodeFields, if_neg (Nat.not_lt.2 h.atMost)]
    simp only [h.offset, h.length, h.fileId, h.jump, h.depth, ok_bind, isNatural_iff.1 h.natural]
    rfl

end ContractCoverage.Range
