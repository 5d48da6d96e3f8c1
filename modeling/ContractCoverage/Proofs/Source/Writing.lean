import ContractCoverage.Data.ValueText
import ContractCoverage.Proofs.Source.Compression

/-! Ranges that are written as entries.

What the text of a range leaves open is taken over from the range before, when the text is read as
an entry (`decode_write_eq_ok_iff`). So a range is read back after one that has the same there. By
itself it comes after the empty range, which takes nothing over: every range that can be written is
its own text, parsed. After any range whatever it is read back when nothing is open in its text
(`IsStandalone`). If anything is, the range `odd` shows it. -/
namespace ContractCoverage.Range

open Text Numeral

/-! ### The text of a range -/

theorem fields_plain {r : Range} (hjump : r.jump = .unspecified) (hdepth : r.modifierDepth = none) :
    r.fields = [r.offset, r.length, r.fileId].map writeNumber := by
  simp [fields, hjump, hdepth]

theorem fields_jump {r : Range} (hjump : r.jump ≠ .unspecified) (hdepth : r.modifierDepth = none) :
    r.fields = [r.offset, r.length, r.fileId].map writeNumber ++ [r.jump.write] := by
  simp [fields, hjump, hdepth]

theorem fields_depth {r : Range} {depth : Int} (hdepth : r.modifierDepth = some depth) :
    r.fields =
      [r.offset, r.length, r.fileId].map writeNumber ++ [r.jump.write, toString depth] := by
  simp [fields, hdepth]

/-- The numbers of a range, known or not. -/
def numbers (r : Range) : List (Option Int) := [r.offset, r.length, r.fileId, r.modifierDepth]

/-- A field is the jump or a number. -/
theorem mem_fields {r : Range} {field : String} (h : field ∈ r.fields) :
    field = r.jump.write ∨ ∃ n ∈ r.numbers, field = writeNumber n := by
  simp only [fields, List.mem_append] at h
  rcases h with (hnumber | hjump) | htext
  · obtain ⟨n, hn, rfl⟩ := List.mem_map.1 hnumber
    exact .inr ⟨n, List.mem_append_left [_] hn, rfl⟩
  · split at hjump
    · exact .inl (List.mem_singleton.1 hjump)
    · cases hjump
  · obtain ⟨depth, hdepth, rfl⟩ := Option.map_eq_some_iff.1 (Option.mem_toList.1 htext)
    exact .inr ⟨some depth, by simp [numbers, hdepth], rfl⟩

theorem isWritable_of_numerals {r : Range} (h : r.numerals.all isWritable = true) {n : Option Int}
    (hn : n ∈ r.numbers) : ∀ m, n = some m → isWritable m = true := fun _ hm =>
  List.all_eq_true.1 h _ (List.mem_filterMap.2 ⟨n, hn, hm⟩)

/-- A range with what its text leaves open taken over from another one. A jump is left open where
its field is blank, and it is there only with a modifier depth behind it. -/
def filled (r before : Range) : Range where
  offset := r.offset.or before.offset
  length := r.length.or before.length
  fileId := r.fileId.or before.fileId
  jump := if r.jump = .unspecified ∧ r.modifierDepth.isSome = true then before.jump else r.jump
  modifierDepth := r.modifierDepth

theorem legalNumber_write (before n : Option Int) :
    LegalNumber before (n.or before) (some (writeNumber n).toList) := by
  cases n with
  | none => rfl
  | some n => exact legalNumber_of_writes before (writes_toString n)

theorem legalJump_write (before jump : JumpKind) :
    LegalJump before (if jump = .unspecified then before else jump) (some jump.write.toList) := by
  cases jump with
  | unspecified => rfl
  | into => exact ⟨'i', rfl, rfl⟩
  | out => exact ⟨'o', rfl, rfl⟩
  | regular => exact ⟨'-', rfl, rfl⟩

/-- The fields of a range are legal for the range that is filled from the one before. -/
theorem legalFields_write (before r : Range) :
    LegalFields before (r.filled before) (r.fields.map String.toList) := by
  have hoffset := legalNumber_write before.offset r.offset
  have hlength := legalNumber_write before.length r.length
  have hfile := legalNumber_write before.fileId r.fileId
  have hletter := legalJump_write before.jump r.jump
  -- A text has three fields, a fourth one for a jump, or five with a modifier depth.
  cases hdepth : r.modifierDepth with
  | none =>
    have hown : (r.filled before).jump = r.jump := if_neg (by simp [hdepth])
    by_cases hjump : r.jump = .unspecified
    · rw [fields_plain hjump hdepth]
      exact
        { atMost := Nat.le_add_right 3 2
          offset := hoffset
          length := hlength
          fileId := hfile
          jump := hown.trans hjump
          depth := hdepth }
    · rw [if_neg hjump] at hletter
      rw [fields_jump hjump hdepth]
      exact
        { atMost := Nat.le_add_right 4 1
          offset := hoffset
          length := hlength
          fileId := hfile
          jump := hown.symm ▸ hletter
          depth := hdepth }
  | some depth =>
    have hfilled : (r.filled before).jump =
        if r.jump = .unspecified then before.jump else r.jump := by simp [filled, hdepth]
    rw [fields_depth hdepth]
    exact
      { atMost := Nat.le_refl 5
        offset := hoffset
        length := hlength
        fileId := hfile
        jump := hfilled.symm ▸ hletter
        depth := by
          rw [show (r.filled before).modifierDepth = some depth from hdepth]
          exact legalNumber_of_writes _ (writes_toString depth) }

section NotEmpty
variable {r : Range} (hsome : r.isEmpty = false)
include hsome

theorem write_eq_join : r.write.toList = join ':' (r.fields.map String.toList) := by
  rw [write, if_neg (by rw [hsome]; decide)]
  exact toList_intercalate rfl r.fields

/-- The text of a range has a separator in it, so it is never blank. -/
theorem write_ne_nil : r.write.toList ≠ [] := by
  rw [write_eq_join hsome]
  exact List.append_ne_nil_of_right_ne_nil _ (List.cons_ne_nil _ _)

theorem isReadable_write (h : r.numerals.all isWritable = true) : IsReadable r.write.toList := by
  have hne := write_ne_nil hsome
  rw [write_eq_join hsome] at hne ⊢
  rw [IsReadable, (legalFields_write r r).split_join hne]
  intro field hfield
  obtain ⟨text, htext, rfl⟩ := List.mem_map.1 hfield
  rcases mem_fields htext with rfl | ⟨n, hn, rfl⟩
  · cases r.jump <;> exact Nat.zero_le _
  · cases n with
    | none => exact Nat.zero_le _
    | some n => exact digitCount_toString_le (isWritable_of_numerals h hn n rfl)

/-- **What the text of a range is read as:** the range, filled from the one before. -/
theorem decode_write_eq_ok_iff (h : r.numerals.all isWritable = true) {before now : Range} :
    decode r.write.toList before = .ok now ↔ now = r.filled before ∧ now.IsNatural := by
  have hne := write_ne_nil hsome
  have hread := isReadable_write hsome h
  rw [decode, if_neg (by simpa using hne), decodeFields_eq_ok_iff]
  rw [write_eq_join hsome] at hne hread ⊢
  exact decodes_iff_of_legal (legalFields_write before r) hne hread

end NotEmpty

/-- A range with a modifier depth and no jump comes after a range without a jump. -/
def Follows (before now : Range) : Prop :=
  now.modifierDepth.isSome = true → now.jump = .unspecified → before.jump = .unspecified

theorem jump_filled {before r : Range} (h : before.Follows r) :
    (r.filled before).jump = r.jump := by
  show (if r.jump = .unspecified ∧ r.modifierDepth.isSome = true then before.jump else r.jump) = _
  split
  · next hopen => rw [h hopen.2 hopen.1, hopen.1]
  · rfl

/-- A range that leaves no number open gains nothing from one that it follows. -/
theorem filled_eq_self {before r : Range} (hoffset : r.offset ≠ none) (hlength : r.length ≠ none)
    (hfile : r.fileId ≠ none) (hfollows : before.Follows r) : r.filled before = r := by
  have hown : ∀ {n : Option Int} (other : Option Int), n ≠ none → n.or other = n := by
    intro n other hn
    obtain ⟨m, rfl⟩ := Option.ne_none_iff_exists'.1 hn
    rfl
  rw [filled, hown _ hoffset, hown _ hlength, hown _ hfile]
  exact congrArg (Range.mk r.offset r.length r.fileId · r.modifierDepth) (jump_filled hfollows)

/-! ### Reading it by itself -/

theorem filled_empty (r : Range) : r.filled empty = r := by
  have hjump : (r.filled empty).jump = r.jump := jump_filled fun _ _ => rfl
  rw [filled, show r.offset.or empty.offset = r.offset from Option.or_none,
    show r.length.or empty.length = r.length from Option.or_none,
    show r.fileId.or empty.fileId = r.fileId from Option.or_none]
  exact congrArg (Range.mk r.offset r.length r.fileId · r.modifierDepth) hjump

/-- A range is its own text, parsed. -/
theorem parse_write {r : Range} (h : r.numerals.all isWritable = true) (hnatural : r.IsNatural) :
    parse r.write.toList = .ok r := by
  cases hempty : r.isEmpty with
  | true =>
    obtain rfl := beq_iff_eq.1 hempty
    rfl
  | false =>
    rw [parse, relativeTo, if_neg (by simpa using write_ne_nil hempty),
      decode_write_eq_ok_iff hempty h]
    exact ⟨(filled_empty r).symm, hnatural⟩

/-! ### Reading it after any range -/

/-- The text of a range leaves nothing open. -/
structure IsStandalone (r : Range) : Prop where
  offset : r.offset ≠ none
  length : r.length ≠ none
  fileId : r.fileId ≠ none
  jump : r.modifierDepth ≠ none → r.jump ≠ .unspecified

/-- A range that differs from another one in all that the text of that one leaves open. -/
def odd : Range := { origin with jump := .into }

theorem filled_of_isStandalone {r : Range} (h : r.IsStandalone) (before : Range) :
    r.filled before = r :=
  filled_eq_self h.offset h.length h.fileId fun hsome hjump =>
    absurd hjump (h.jump (Option.isSome_iff_ne_none.1 hsome))

theorem isStandalone_of_filled_odd {r : Range} (h : r.filled odd = r) : r.IsStandalone := by
  have hknown : ∀ {n : Option Int}, n.or (some 0) = n → n ≠ none := by
    rintro _ hor rfl
    cases hor
  exact
    { offset := hknown (congrArg offset h)
      length := hknown (congrArg length h)
      fileId := hknown (congrArg fileId h)
      jump := by
        intro hdepth hjump
        have hopen := congrArg jump h
        rw [filled, if_pos ⟨hjump, Option.isSome_iff_ne_none.2 hdepth⟩, hjump] at hopen
        cases hopen }

theorem decode_write_iff_isStandalone {r : Range} (h : r.numerals.all isWritable = true)
    (hnatural : r.IsNatural) :
    (∀ before, decode r.write.toList before = .ok r) ↔ r.IsStandalone := by
  cases hempty : r.isEmpty with
  | true =>
    -- The empty range has a blank text, which repeats any range before.
    obtain rfl := beq_iff_eq.1 hempty
    refine iff_of_false (fun hall => ?_) fun hstandalone => hstandalone.offset rfl
    cases hall origin
  | false =>
    simp only [decode_write_eq_ok_iff hempty h]
    constructor
    · exact fun hall => isStandalone_of_filled_odd (hall odd).1.symm
    · exact fun hstandalone before => ⟨(filled_of_isStandalone hstandalone before).symm, hnatural⟩

/-- **A range is written and read back.** Whatever range has no negative offset or length can be
written unless one of its numbers is too long for that. Its text is parsed to the range again, and
it is read as the range after every other one exactly when it leaves nothing open. -/
theorem read_written {r : Range} (h : r.IsNatural) :
    (r.numerals.all isWritable = true → written r.numerals r.write = .ok r.write ∧
      parse r.write.toList = .ok r ∧
        ((∀ before, decode r.write.toList before = .ok r) ↔ r.IsStandalone)) ∧
      (r.numerals.all isWritable = false →
        written r.numerals r.write = .error .tooManyDigits) := by
  constructor
  · intro hall
    exact ⟨if_pos hall, parse_write hall h, decode_write_iff_isStandalone hall h⟩
  · intro hlong
    exact if_neg (by rw [hlong]; decide)

/-- A modifier depth behind a blank jump is read back by itself, and not after every range. -/
theorem read_written_blank :
    parse "1:2:0::3".toList = .ok ⟨some 1, some 2, some 0, .unspecified, some 3⟩ ∧
      ¬∀ before, decode "1:2:0::3".toList before =
        .ok ⟨some 1, some 2, some 0, .unspecified, some 3⟩ := by
  obtain ⟨-, hparse, hiff⟩ := (@read_written
    ⟨some 1, some 2, some 0, .unspecified, some 3⟩ ⟨rfl, rfl⟩).1 (by decide +kernel)
  have hwrite : write ⟨some 1, some 2, some 0, .unspecified, some 3⟩ = "1:2:0::3" := by decide
  rw [hwrite] at hparse hiff
  exact ⟨hparse, fun hall => (hiff.1 hall).jump nofun rfl⟩

/-- The first range of the sources, in the file of the least number that is too long to be
written. -/
def farFile : Range := { origin with fileId := some writingBound }

/-- It has no text, and so no text that is parsed to it. -/
theorem not_written_farFile : farFile.IsNatural ∧
    ¬∃ text, written farFile.numerals farFile.write = .ok text ∧
      parse text.toList = .ok farFile := by
  refine ⟨⟨rfl, rfl⟩, ?_⟩
  rintro ⟨text, hwritten, -⟩
  have hmem : farFile.fileId ∈ farFile.numbers := by simp [numbers]
  have hlong : ¬farFile.numerals.all isWritable = true := fun hall => by
    have hwritable := isWritable_of_numerals hall hmem writingBound rfl
    rw [not_isWritable_writingBound] at hwritable
    cases hwritable
  rw [written, if_neg hlong] at hwritten
  cases hwritten

end ContractCoverage.Range
