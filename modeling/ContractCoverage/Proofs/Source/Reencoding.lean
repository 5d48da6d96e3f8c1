import ContractCoverage.Proofs.Source.Writing

/-! Decoded source maps, written in full.

The text of a range leaves out a jump that there is none of. Where a modifier depth
follows, the field is still there and is blank, and a blank jump is read as that of the
range before: a list of ranges does not in general come back from its texts.

A decoded list does (`decode_encode_of_decode`). An entry with a depth has a field for its jump, so
it gives no jump only if that field is blank and the range before had none either
(`Follows`). This, and that every number has been read and so can be written
(`IsWritten`), is what one entry hands on to the next (`decode_follows`). Over a whole
stream it makes the texts of the ranges legal entries (`stream_write`), and these are
known to be read back. -/
namespace ContractCoverage

open Text Numeral

namespace Range

/-! ### What an entry hands on -/

/-- A range of the sources whose numbers can all be written. -/
structure IsWritten (r : Range) : Prop where
  offset : ∃ n, r.offset = some n ∧ isWritable n = true ∧ 0 ≤ n
  length : ∃ n, r.length = some n ∧ isWritable n = true ∧ 0 ≤ n
  fileId : ∃ n, r.fileId = some n ∧ isWritable n = true
  depth : ∀ n, r.modifierDepth = some n → isWritable n = true

theorem isWritten_origin : origin.IsWritten :=
  have hzero : isWritable 0 = true := by
    simpa [ofDigits] using @isWritable_ofDigits [0] (by decide) (by decide)
  { offset := ⟨0, rfl, hzero, Int.le_refl 0⟩
    length := ⟨0, rfl, hzero, Int.le_refl 0⟩
    fileId := ⟨0, rfl, hzero⟩
    depth := nofun }

theorem IsWritten.isSource {r : Range} (h : r.IsWritten) : r.IsSource := by
  obtain ⟨offset, hoffset, -, hpos⟩ := h.offset
  obtain ⟨length, hlength, -, hlpos⟩ := h.length
  obtain ⟨fileId, hfile, -⟩ := h.fileId
  exact ⟨⟨offset, hoffset, hpos⟩, ⟨length, hlength, hlpos⟩, fileId, hfile⟩

/-- A number that is read is the one before or can be written. -/
theorem readNumber_cases {entry : List Char} {place : Nat} {before now : Option Int}
    (h : readNumber entry place before = .ok now) :
    now = before ∨ ∃ n, now = some n ∧ isWritable n = true := by
  unfold readNumber at h
  split at h
  · cases h
    exact .inl rfl
  · cases h
    exact .inl rfl
  · split at h
    · next n hread =>
      cases h
      exact .inr ⟨n, rfl, isWritable_of_read? hread⟩
    · cases h

theorem known_of_readNumber {entry : List Char} {place : Nat} {before now : Option Int}
    (h : readNumber entry place before = .ok now)
    (hbefore : ∃ n, before = some n ∧ isWritable n = true) :
    ∃ n, now = some n ∧ isWritable n = true := by
  rcases readNumber_cases h with rfl | hnow
  · exact hbefore
  · exact hnow

theorem natural_of_readNumber {entry : List Char} {place : Nat} {before now : Option Int}
    (h : readNumber entry place before = .ok now)
    (hbefore : ∃ n, before = some n ∧ isWritable n = true ∧ 0 ≤ n)
    (hnot : isNegative now = false) : ∃ n, now = some n ∧ isWritable n = true ∧ 0 ≤ n := by
  obtain ⟨m, hm, hwritable, -⟩ := hbefore
  obtain ⟨n, rfl, hn⟩ := known_of_readNumber h ⟨m, hm, hwritable⟩
  exact ⟨n, rfl, hn, by simpa [isNegative] using hnot⟩

theorem isWritable_of_readDepth {entry : List Char} {before now : Option Int}
    (h : readDepth entry before = .ok now) (hbefore : ∀ n, before = some n → isWritable n = true) :
    ∀ n, now = some n → isWritable n = true := by
  unfold readDepth at h
  split at h
  · cases h
    exact nofun
  · rcases readNumber_cases h with rfl | ⟨n, rfl, hn⟩
    · exact hbefore
    · intro m hm
      cases hm
      exact hn

/-- A jump that is not said is that of the range before, or the entry has no field for a jump. -/
theorem readJump_unspecified {entry : List Char} {before : JumpKind}
    (h : readJump entry before = .ok .unspecified) :
    (split ':' entry).length ≤ 3 ∨ before = .unspecified := by
  unfold readJump at h
  split at h
  · next hnone => exact .inl (List.getElem?_eq_none_iff.1 hnone)
  · cases h
    exact .inr rfl
  · next field _ _ =>
    unfold readJumpField JumpKind.ofField? at h
    split at h
    · next hjump => split at hjump <;> cases hjump <;> cases h
    · cases h

theorem length_of_readDepth {entry : List Char} {before now : Option Int}
    (h : readDepth entry before = .ok now) (hnow : now.isSome = true) :
    4 < (split ':' entry).length := by
  unfold readDepth at h
  split at h
  · cases h
    cases hnow
  · next hlong => exact Nat.not_le.1 hlong

/-- Reading one more entry. -/
theorem decode_follows {entry : List Char} {before now : Range}
    (h : decode entry before = .ok now) (hbefore : before.IsWritten) :
    now.IsWritten ∧ before.Follows now := by
  unfold decode at h
  split at h
  · cases h
    exact ⟨hbefore, fun _ hjump => hjump⟩
  · have hdecodes := decodeFields_eq_ok_iff.1 h
    constructor
    · exact
        { offset := natural_of_readNumber hdecodes.offset hbefore.offset hdecodes.natural.offset
          length := natural_of_readNumber hdecodes.length hbefore.length hdecodes.natural.length
          fileId := known_of_readNumber hdecodes.fileId hbefore.fileId
          depth := isWritable_of_readDepth hdecodes.depth hbefore.depth }
    · intro hsome hjump
      have hlong := length_of_readDepth hdecodes.depth hsome
      rcases readJump_unspecified (hjump ▸ hdecodes.jump) with hshort | hbefore
      · omega
      · exact hbefore

/-! ### The text of a range -/

theorem IsWritten.isEmpty {r : Range} (h : r.IsWritten) : r.isEmpty = false := by
  obtain ⟨n, hn, -⟩ := h.offset
  refine beq_eq_false_iff_ne.2 ?_
  rintro rfl
  cases hn

theorem IsWritten.numerals {r : Range} (h : r.IsWritten) :
    r.numerals.all isWritable = true := by
  obtain ⟨offset, hoffset, ho, -⟩ := h.offset
  obtain ⟨length, hlength, hl, -⟩ := h.length
  obtain ⟨fileId, hfile, hf⟩ := h.fileId
  have hdepth := h.depth
  rw [Range.numerals, hoffset, hlength, hfile]
  cases hd : r.modifierDepth with
  | none => simp [ho, hl, hf]
  | some depth => simp [ho, hl, hf, hdepth depth hd]

theorem filled_of_follows {before r : Range} (h : r.IsWritten) (hfollows : before.Follows r) :
    r.filled before = r := by
  obtain ⟨offset, hoffset, -⟩ := h.offset
  obtain ⟨length, hlength, -⟩ := h.length
  obtain ⟨fileId, hfile, -⟩ := h.fileId
  refine filled_eq_self ?_ ?_ ?_ hfollows
  · exact hoffset ▸ Option.some_ne_none offset
  · exact hlength ▸ Option.some_ne_none length
  · exact hfile ▸ Option.some_ne_none fileId

theorem abbreviates_write {before r : Range} (h : r.IsWritten) (hfollows : before.Follows r) :
    before.Abbreviates r r.write.toList := by
  have hne := write_ne_nil h.isEmpty
  have hfields := legalFields_write before r
  rw [filled_of_follows h hfollows] at hfields
  rw [write_eq_join h.isEmpty] at hne ⊢
  exact .fields hfields hne


end Range

namespace SourceMap

/-! ### The whole map -/

/-- The source map in which every range of a list is written in full, if its numbers can be. -/
def encode (ranges : List Range) : Except ShapeFault String := do
  let entries ← ranges.mapM fun range => written range.numerals range.write
  return String.intercalate ";" entries

/-- The texts of decoded ranges are legal entries for them. -/
theorem stream_write {entries : List (List Char)} {before : Range} {ranges : List Range}
    (h : decodeEntries before entries = .ok ranges) (hbefore : before.IsWritten) :
    Stream before ranges (ranges.map fun range => range.write.toList) ∧
      (∀ range ∈ ranges, range.IsWritten) ∧
      ∀ range ∈ ranges, Range.IsReadable range.write.toList := by
  induction entries generalizing before ranges with
  | nil =>
    cases h
    exact ⟨.nil, nofun, nofun⟩
  | cons entry entries ih =>
    simp only [decodeEntries, bind_eq_ok_iff] at h
    obtain ⟨now, hnow, rest, hrest, h⟩ := h
    cases h
    obtain ⟨hwritten, hfollows⟩ := Range.decode_follows hnow hbefore
    obtain ⟨hstream, hall, hread⟩ := ih hrest hwritten
    exact ⟨.cons hwritten.isSource (Range.abbreviates_write hwritten hfollows) hstream,
      List.forall_mem_cons.2 ⟨hwritten, hall⟩,
      List.forall_mem_cons.2 ⟨Range.isReadable_write hwritten.isEmpty hwritten.numerals, hread⟩⟩

theorem encode_of_written {ranges : List Range} (h : ∀ range ∈ ranges, range.IsWritten) :
    encode ranges = .ok (String.intercalate ";" (ranges.map Range.write)) := by
  have hentries : ranges.mapM (fun range => written range.numerals range.write) =
      .ok (ranges.map Range.write) := by
    rw [mapM_eq_ok_iff, List.forall₂_map_right_iff, List.forall₂_same]
    exact fun range hrange => if_pos (h range hrange).numerals
  rw [encode, hentries]
  rfl

theorem join_ne_nil (sep : Char) {field : List Char} (h : field ≠ [])
    (fields : List (List Char)) : join sep (field :: fields) ≠ [] := by
  cases fields with
  | nil => exact h
  | cons next fields => exact List.append_ne_nil_of_left_ne_nil h _

/-- **Writing a decoded map in full loses nothing.** Whatever a source map was decoded to can be
written, and the text that has every range written in full is decoded to the same ranges again. -/
theorem decode_encode_of_decode {map : List Char} {ranges : List Range}
    (h : decode map = .ok ranges) :
    ∃ text, encode ranges = .ok text ∧ decode text.toList = .ok ranges := by
  unfold decode at h
  split at h
  · cases h
    exact ⟨"", rfl, rfl⟩
  · obtain ⟨hstream, hwritten, hread⟩ := stream_write h Range.isWritten_origin
    refine ⟨_, encode_of_written hwritten, ?_⟩
    rw [toList_intercalate rfl, List.map_map]
    cases ranges with
    | nil => rfl
    | cons range ranges =>
      have hfirst := Range.write_ne_nil (hwritten range (List.mem_cons_self ..)).isEmpty
      have hjoin := join_ne_nil ';' hfirst (ranges.map fun range => range.write.toList)
      refine (decode_join hjoin hstream.not_mem).trans (decodeEntries_of_stream hstream ?_)
      exact List.forall_mem_map.2 hread

/-- A modifier depth after a blank jump, twice the same, and a deeper one in a shorter range. -/
theorem decode_encode_of_decode_blank :
    ∃ ranges, decode "1:2:0::3;;:4:::5".toList = .ok ranges ∧
      ∃ text, encode ranges = .ok text ∧ decode text.toList = .ok ranges := by
  have h : decode "1:2:0::3;;:4:::5".toList =
      .ok [⟨some 1, some 2, some 0, .unspecified, some 3⟩,
        ⟨some 1, some 2, some 0, .unspecified, some 3⟩,
        ⟨some 1, some 4, some 0, .unspecified, some 5⟩] := rfl
  exact ⟨_, h, decode_encode_of_decode h⟩

/-- The same depth after a jump: it is written in the same way and read as one that jumps. -/
example :
    [⟨some 1, some 2, some 0, .into, none⟩, ⟨some 1, some 2, some 0, .unspecified, some 3⟩].map
        Range.write = ["1:2:0:i", "1:2:0::3"] ∧
      decode "1:2:0:i;1:2:0::3".toList =
        .ok [⟨some 1, some 2, some 0, .into, none⟩, ⟨some 1, some 2, some 0, .into, some 3⟩] :=
  ⟨by decide, rfl⟩

end SourceMap

end ContractCoverage
