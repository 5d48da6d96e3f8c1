import ContractCoverage.Proofs.File.Commands

/-! The number of a file and the ranges in its listings.

A range names its file by a number, and the number of a file can become known, or change,
with any source entry. When listings come in, their ranges are measured against the file
whose number is known at that moment, and none is measured as long as no number is known.
Listings that are there already are not measured again. So the ranges of a listing that
carry the number the file had when that listing came in end within the file
(`performAll_endsWithin`). Ranges that carry the number the file has now need not
(`not_ownRangesFit_late`). -/
namespace ContractCoverage

/-- The complete range of an instruction carries the number of a file, which is known, and ends
beyond the size of the file. -/
def Entry.GoesBeyond (number : Value) (size : Nat) (e : Entry) : Prop :=
  number.isNull = false ∧ ∃ offset length, e.range.offset = some offset ∧
    e.range.length = some length ∧ Value.same ((e.range.fileId.map .int).getD .null) number = true ∧
    (size : Int) < offset + length

/-- Every complete range of a listing that carries the number of a file, where that is known, ends
within the size of the file. -/
def Listing.EndsWithin (l : Listing) (number : Value) (size : Nat) : Prop :=
  number.isNull = false → ∀ e ∈ l.entries, ∀ offset length,
    e.range.offset = some offset → e.range.length = some length →
    Value.same ((e.range.fileId.map .int).getD .null) number = true → offset + length ≤ size

theorem Listing.endsWithin_iff {l : Listing} {number : Value} {size : Nat} :
    l.EndsWithin number size ↔ ∀ e ∈ l.entries, ¬ e.GoesBeyond number size := by
  constructor
  · rintro h e he ⟨hknown, offset, length, hoffset, hlength, hsame, hbeyond⟩
    have hends := h hknown e he offset length hoffset hlength hsame
    omega
  · intro h hknown e he offset length hoffset hlength hsame
    by_contra hends
    exact h e he ⟨hknown, offset, length, hoffset, hlength, hsame, by omega⟩

theorem LineTable.size_ofText (text : String) : (ofText text).size = text.toUTF8.size :=
  Array.length_toList

/-- Marks do not matter for ranges. -/
theorem Listing.endsWithin_unmarked {l l' : Listing} (h : l.unmarked = l'.unmarked) {number : Value}
    {size : Nat} (hl : l.EndsWithin number size) : l'.EndsWithin number size := by
  intro hknown e he
  have hmem : e.unmarked ∈ l.unmarked.entries := by
    rw [h]
    exact List.mem_map_of_mem he
  obtain ⟨old, hold, hsame⟩ := List.mem_map.1 hmem
  have hunmarked : old.unmarked.range = e.unmarked.range := by rw [hsame]
  have hrange : old.range = e.range := hunmarked
  rw [← hrange]
  exact hl hknown old hold

namespace FileCoverage

/-- In all listings of a file the complete ranges that carry its number, where that is known, end
within it. -/
def OwnRangesFit (file : FileCoverage) : Prop :=
  ∀ contract artifact, file.artifact? contract = some artifact →
    ∀ part, (artifact.part part).EndsWithin file.sourceId file.text.toUTF8.size

/-- What is measured is the size of the text. -/
theorem exceeds_iff {file : FileCoverage} {number : Value} {e : Entry}
    (hknown : number.isNull = false) :
    file.exceeds number e = true ↔ e.GoesBeyond number file.text.toUTF8.size := by
  have hsize : file.lines.size = file.text.toUTF8.size := LineTable.size_ofText file.text
  simp only [exceeds, Range.isOwn, hknown, Bool.false_or, Bool.and_eq_true, Range.isComplete_iff,
    Entry.GoesBeyond, hsize, true_and]
  constructor
  · rintro ⟨⟨⟨offset, length, hoffset, hlength⟩, hsame⟩, hstop⟩
    rw [Range.stop?_of_some hoffset hlength, Option.any_some, decide_eq_true_eq] at hstop
    exact ⟨offset, length, hoffset, hlength, hsame, hstop⟩
  · rintro ⟨offset, length, hoffset, hlength, hsame, hstop⟩
    refine ⟨⟨⟨offset, length, hoffset, hlength⟩, hsame⟩, ?_⟩
    rw [Range.stop?_of_some hoffset hlength, Option.any_some, decide_eq_true_eq]
    exact hstop

/-! ### Which number a listing came in with -/

/-- The contracts that a command brings listings of, unless it is refused. -/
def installs (file : FileCoverage) : Command → List String
  | .act (.ingest s contracts source) =>
    match (file.ingest s contracts source).result, contracts with
    | .ok (), .object outputs => outputs.map (·.1)
    | _, _ => []
  | .act (.record ..) => []
  | .setResolver _ => []

/-- For each contract the number that the file had when its listings came in, after a command. -/
def renumbered (file : FileCoverage) (before : String → Option Value) (c : Command) :
    String → Option Value := fun contract =>
  if contract ∈ file.installs c then some (file.perform c).sourceId else before contract

/-- For each contract the number that the file had when its listings came in, after commands. -/
def numbers (file : FileCoverage) (before : String → Option Value) :
    List Command → String → Option Value
  | [] => before
  | c :: commands => (file.perform c).numbers (file.renumbered before c) commands

/-- Every listing that is there came in with a number, and its ranges of that number end within the
file. -/
def Numbered (file : FileCoverage) (numbers : String → Option Value) : Prop :=
  ∀ contract artifact, file.artifact? contract = some artifact →
    ∃ number, numbers contract = some number ∧
      ∀ part, (artifact.part part).EndsWithin number file.text.toUTF8.size

/-! ### One command -/

/-- Output that comes is refused, or replaces the listings of the contracts that it installs. -/
theorem ingest_installs (s : Settings) (file : FileCoverage) (contracts source : Value) :
    (file.perform (.act (.ingest s contracts source)) = file ∧
        file.installs (.act (.ingest s contracts source)) = []) ∨
      ∃ outputs, Replaced outputs file (file.perform (.act (.ingest s contracts source))) ∧
        file.installs (.act (.ingest s contracts source)) = outputs.map (·.1) := by
  simp only [perform, act, installs, ingest]
  cases hresult : (ingested s file contracts source).result with
  | error fault => exact .inl ⟨rfl, rfl⟩
  | ok file' =>
    obtain ⟨outputs, rfl, hreplaced⟩ := replaced_of_ingested hresult
    exact .inr ⟨outputs, hreplaced, rfl⟩

/-- A listing that has been measured against a file ends within it. -/
theorem endsWithin_fit (file : FileCoverage) (number : Value) (whole : Listing) :
    (file.fit number whole).EndsWithin number file.text.toUTF8.size := by
  rw [Listing.endsWithin_iff]
  intro e he hbeyond
  have hknown := hbeyond.1
  rw [fit, if_neg (by simp [hknown])] at he
  obtain ⟨old, -, rfl⟩ := List.mem_map.1 he
  by_cases hexceeds : file.exceeds number old = true
  · -- Such a range has been dropped, so it is not a complete one.
    rw [fitEntry, if_pos hexceeds] at hbeyond
    obtain ⟨-, offset, -, hoffset, -⟩ := hbeyond
    cases hoffset
  · rw [fitEntry, if_neg hexceeds] at hbeyond
    exact hexceeds ((exceeds_iff hknown).2 hbeyond)

/-- Recording a trace leaves every listing as it is, but for its marks. -/
theorem artifact?_record {s : Settings} {file : FileCoverage} {trace : Value} {contract : String}
    {artifact : Artifact} (h : (file.record s trace).state.artifact? contract = some artifact) :
    ∃ before, file.artifact? contract = some before ∧ before.unmarked = artifact.unmarked := by
  rw [record_state] at h
  unfold artifact? at h ⊢
  cases ht : file.tables with
  | none =>
    rw [ht] at h
    cases h
  | some tables =>
    rw [ht] at h
    have hmarked : (Replay.markAll (file.passages s trace) tables).get? contract =
      some artifact := h
    have hsame := congrArg (·.get? contract)
      (Replay.unmarked_markAll (file.passages s trace) tables)
    simp only [Tables.unmarked, KeyedList.get?_map, hmarked, Option.map_some] at hsame
    obtain ⟨before, hbefore, heq⟩ := Option.map_eq_some_iff.1 hsame.symm
    exact ⟨before, hbefore, heq⟩

/-- A contract that output names comes in with the number that the file has then, and the others
keep the numbers that they came in with. -/
theorem Replaced.numbered {outputs : List (String × Value)} {file file' : FileCoverage}
    (hreplaced : Replaced outputs file file') {numbers : String → Option Value}
    (h : file.Numbered numbers) {contract : String} {artifact : Artifact}
    (hartifact : file'.artifact? contract = some artifact) :
    ∃ number, (if contract ∈ outputs.map (·.1) then some file'.sourceId else numbers contract) =
        some number ∧
      ∀ part, (artifact.part part).EndsWithin number file.text.toUTF8.size := by
  by_cases hnamed : contract ∈ outputs.map (·.1)
  · rw [if_pos hnamed]
    obtain ⟨output, found, -, hfound, hreads⟩ := hreplaced.named contract hnamed
    obtain rfl : found = artifact := Option.some.inj (hfound.symm.trans hartifact)
    refine ⟨file'.sourceId, rfl, fun part => ?_⟩
    obtain ⟨⟨code, map, whole, -, -, hfit⟩, -⟩ := hreads part
    rw [hfit]
    exact endsWithin_fit file file'.sourceId whole
  · rw [if_neg hnamed]
    rw [hreplaced.others contract hnamed] at hartifact
    exact h contract artifact hartifact

theorem numbered_perform {file : FileCoverage} {numbers : String → Option Value}
    (h : file.Numbered numbers) (c : Command) :
    (file.perform c).Numbered (file.renumbered numbers c) := by
  have htext : (file.perform c).text = file.text := (perform_fixed file c).2
  intro contract artifact hartifact
  rw [htext, renumbered]
  cases c with
  | setResolver table =>
    rw [show file.installs (.setResolver table) = [] from rfl, if_neg List.not_mem_nil]
    exact h contract artifact hartifact
  | act a =>
    cases a with
    | record s trace =>
      rw [show file.installs (.act (.record s trace)) = [] from rfl, if_neg List.not_mem_nil]
      -- The listings have new marks, and marks say nothing of ranges.
      obtain ⟨before, hbefore, hsame⟩ := artifact?_record hartifact
      obtain ⟨number, hnumber, hfits⟩ := h contract before hbefore
      refine ⟨number, hnumber, fun part => Listing.endsWithin_unmarked ?_ (hfits part)⟩
      cases part with
      | creation => exact congrArg Artifact.creation hsame
      | deployed => exact congrArg Artifact.deployed hsame
    | ingest s contracts source =>
      rcases ingest_installs s file contracts source with
        ⟨hstate, hnone⟩ | ⟨outputs, hreplaced, hnames⟩
      · rw [hstate] at hartifact
        rw [hnone, if_neg List.not_mem_nil]
        exact h contract artifact hartifact
      · rw [hnames]
        exact hreplaced.numbered h hartifact

/-! ### Any number of commands -/

theorem numbered_performAll {file : FileCoverage} {before : String → Option Value}
    (h : file.Numbered before) (commands : List Command) :
    (file.performAll commands).Numbered (file.numbers before commands) := by
  induction commands generalizing file before with
  | nil => exact h
  | cons c commands ih => exact ih (numbered_perform h c)

/-- **Ranges end within the file that they were measured against.** Whatever a file has been given,
every listing that it has came in with a number of the file, perhaps an unknown one, and where it
was known every complete range of the listing that carries it ends within the file. -/
theorem performAll_endsWithin (name path text : String) (given : Option RangeTable)
    (commands : List Command) :
    ((new name path text given).performAll commands).Numbered
      ((new name path text given).numbers (fun _ => none) commands) := by
  refine numbered_performAll ?_ commands
  intro contract artifact hartifact
  cases given <;> cases hartifact

/-- A range of 999 bytes comes in while the number of the file is unknown. -/
def numberedLate : List Command :=
  [.act (.ingest { strictRanges := true } (oneContract "0:999:0") .null),
    .act (.ingest { strictRanges := true } (.object []) (.object [("id", .int 0)]))]

/-- Such a range comes in while the file has another number. -/
def numberedAnew : List Command :=
  [.act (.ingest { strictRanges := true } (oneContract "0:999:1") (.object [("id", .int 0)])),
    .act (.ingest { strictRanges := true } (.object []) (.object [("id", .int 1)]))]

/-- Whether a range in the deployed code of a contract carries the number of the file, which is
known, and goes beyond its end. -/
def hasStray (file : FileCoverage) (contract : String) : Bool :=
  !file.sourceId.isNull && (file.artifact? contract).any fun artifact =>
    artifact.deployed.entries.any (file.exceeds file.sourceId)

theorem hasStray_eq_false {file : FileCoverage} (h : file.OwnRangesFit) (contract : String) :
    file.hasStray contract = false := by
  apply Bool.eq_false_iff.2
  intro hstray
  simp only [hasStray, Bool.and_eq_true, Bool.not_eq_true', Option.any_eq_true] at hstray
  obtain ⟨hknown, artifact, hartifact, hany⟩ := hstray
  obtain ⟨e, he, hexceeds⟩ := List.any_eq_true.1 hany
  exact Listing.endsWithin_iff.1 (h contract artifact hartifact .deployed) e he
    ((exceeds_iff hknown).1 hexceeds)

/-- **A number that comes later is not held against listings that are there.** Although every range
beyond the end of its file is refused, one in a file of three bytes carries the number of this
file, because that has become known, or become another one, after the range had come in. -/
theorem not_ownRangesFit_late :
    ¬ ((new "a.sol" "a.sol" "a;\n").performAll numberedLate).OwnRangesFit ∧
      ¬ ((new "a.sol" "a.sol" "a;\n").performAll numberedAnew).OwnRangesFit := by
  have hlate : ((new "a.sol" "a.sol" "a;\n").performAll numberedLate).hasStray "A" = true := by
    decide +kernel
  have hanew : ((new "a.sol" "a.sol" "a;\n").performAll numberedAnew).hasStray "A" = true := by
    decide +kernel
  exact ⟨fun h => Bool.eq_false_iff.1 (hasStray_eq_false h "A") hlate,
    fun h => Bool.eq_false_iff.1 (hasStray_eq_false h "A") hanew⟩

end FileCoverage

end ContractCoverage
