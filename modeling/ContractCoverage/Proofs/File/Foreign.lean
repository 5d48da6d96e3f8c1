import ContractCoverage.Proofs.File.Reingestion

/-! Ranges of other files.

An instruction counts for something only if its range is complete and lies in the file
itself. A range that does not is foreign, and where the number of the file is known
foreign ranges may be taken away (`Outline.home`): in this outline every instruction
counts for the same targets (`targetsOf_home`), whatever the range table lists.

Foreign instructions are still matched, aligned with and marked, and they end the visits
of targets that are met before and after them. None of this looks at their ranges, so two
files that are alike in outline answer a trace alike and remain alike (`Alike.record`),
and no sequence of traces tells them apart (`foreign_ranges_hidden`). -/
namespace ContractCoverage

namespace FileCoverage
open Replay

/-! ### Files that are alike in outline -/

/-- Two files differ in their listings only and not in outline, in which the instructions count for
what they counted for. -/
structure Alike (o : Outline) (file file' : FileCoverage) : Prop where
  rest : file' = { file with tables := file'.tables }
  tables : (file.tables.map fun t => (o.tables t).get?) =
    file'.tables.map fun t => (o.tables t).get?
  targets (e : Entry) : file.targetsOf (o.entry e) = file.targetsOf e

section Alike
variable {o : Outline} {file file' : FileCoverage} (h : file.Alike o file')
include h

theorem Alike.cases :
    (file.tables = none ∧ file'.tables = none) ∨ ∃ t t', file.tables = some t ∧
      file'.tables = some t' ∧ (o.tables t).get? = (o.tables t').get? := by
  have htables := h.tables
  match ht : file.tables, ht' : file'.tables with
  | none, none => exact .inl ⟨rfl, rfl⟩
  | some t, some t' =>
    rw [ht, ht'] at htables
    exact .inr ⟨t, t', rfl, rfl, Option.some.inj htables⟩
  | none, some t' | some t, none =>
    rw [ht, ht'] at htables
    cases htables

theorem Alike.passages (s : Settings) (trace : Value) :
    (file.passages s trace).map o.passage = (file'.passages s trace).map o.passage := by
  rw [← passages_outlined, ← passages_outlined]
  rcases h.cases with ⟨ht, ht'⟩ | ⟨t, t', ht, ht', hget⟩
  · simp only [outlined, FileCoverage.passages, ht, ht', Option.map_none]
  · have hpassable : isPassable s (o.tables t) = isPassable s (o.tables t') := by
      funext f
      rw [isPassable, isPassable, obstacle?_congr hget]
    rw [passages_of_tables (congrArg (Option.map o.tables) ht),
      passages_of_tables (congrArg (Option.map o.tables) ht'), hpassable, follow_congr hget]

theorem Alike.refusal? (s : Settings) (trace : Value) :
    file.refusal? s trace = file'.refusal? s trace := by
  rw [← refusal?_outlined o s file, ← refusal?_outlined o s file']
  rcases h.cases with ⟨ht, ht'⟩ | ⟨t, t', ht, ht', hget⟩
  · simp only [outlined, FileCoverage.refusal?, ht, ht', Option.map_none]
  · rw [refusal?_of_tables (congrArg (Option.map o.tables) ht),
      refusal?_of_tables (congrArg (Option.map o.tables) ht'), obstacle?_congr hget]

/-- A trace adds the same to both. -/
theorem Alike.addition (s : Settings) (trace : Value) :
    file.addition s trace = file'.addition s trace := by
  have hincrement : increment file (file.passages s trace) =
      increment file' (file'.passages s trace) := by
    rw [← o.increment_passages h.targets, h.passages, o.increment_passages h.targets, h.rest]
    rfl
  rw [FileCoverage.addition, FileCoverage.addition, h.refusal?, hincrement]

/-- Both answer a trace alike, and remain alike. -/
theorem Alike.record (hmarks : o.KeepsMarks) (s : Settings) (trace : Value) :
    (file.record s trace).result = (file'.record s trace).result ∧
      (file.record s trace).state.Alike o (file'.record s trace).state := by
  have hcoverage : file'.coverage = file.coverage := by rw [h.rest]
  have hpassages : markAll (file.passages s trace) = markAll (file'.passages s trace) := by
    rw [← markAll_outlined o, h.passages, markAll_outlined]
  constructor
  · rw [record_result, record_result, h.addition, hcoverage]
  · rw [record_state, record_state]
    have htotal : file.totalAfter (file.addition s trace) =
        file'.totalAfter (file'.addition s trace) := by
      unfold totalAfter
      rw [h.addition, hcoverage]
    refine ⟨?_, ?_, h.targets⟩
    · rw [htotal, h.rest]
    · -- The same marks come to listings that are found under the same names in outline.
      rcases h.cases with ⟨ht, ht'⟩ | ⟨t, t', ht, ht', hget⟩
      · simp only [ht, ht', Option.map_none]
      · simp only [ht, ht', Option.map_some, tables_markAll hmarks, hpassages]
        congr 1
        funext contract
        rw [get?_markAll, get?_markAll, hget]

/-- Both have the same instructions marked. -/
theorem Alike.flags (hmarks : o.KeepsMarks) (part : CodePart) (contract : String) :
    file.flags part contract = file'.flags part contract := by
  rw [← flags_outlined hmarks file, ← flags_outlined hmarks file']
  unfold FileCoverage.flags listing outlined
  rcases h.cases with ⟨ht, ht'⟩ | ⟨t, t', ht, ht', hget⟩
  · simp only [ht, ht', Option.map_none]
  · simp only [ht, ht', Option.map_some, hget]

end Alike

/-! ### Runs of traces -/

/-- Recording a trace under some settings, as something that happens to a file. -/
def recording (trace : Settings × Value) : Action := .record trace.1 trace.2

/-- Files that are alike in outline answer a run of traces alike, and remain alike. -/
theorem Alike.after {o : Outline} (hmarks : o.KeepsMarks) (traces : List (Settings × Value))
    {file file' : FileCoverage} (h : file.Alike o file') :
    file.answers (traces.map recording) = file'.answers (traces.map recording) ∧
      (file.after (traces.map recording)).Alike o (file'.after (traces.map recording)) := by
  induction traces generalizing file file' with
  | nil => exact ⟨rfl, h⟩
  | cons trace traces ih =>
    obtain ⟨hresult, hstate⟩ := h.record hmarks trace.1 trace.2
    obtain ⟨hanswers, hafter⟩ := ih hstate
    exact ⟨List.cons_eq_cons.2 ⟨hresult, hanswers⟩, hafter⟩

end FileCoverage

/-! ### Foreign ranges -/

/-- A range is incomplete, or does not lie in the file of a number. -/
def Range.IsForeign (sourceId : Value) (r : Range) : Prop :=
  r.isComplete = false ∨ Value.same ((r.fileId.map .int).getD .null) sourceId = false

theorem Range.isOwn_of_isForeign {sourceId : Value} (hknown : sourceId.isNull = false) {r : Range}
    (h : r.IsForeign sourceId) : r.isOwn sourceId = false := by
  unfold isOwn
  rcases h with h | h <;> simp [h, hknown]

/-- The outline in which there are no ranges but those of the file of a number. -/
def Outline.home (sourceId : Value) : Outline where
  code := id
  entry e := { e with range := if e.range.isOwn sourceId then e.range else .empty }
  address _ := rfl
  mnemonic _ := rfl

theorem Outline.keepsMarks_home (sourceId : Value) : (home sourceId).KeepsMarks := fun _ _ => rfl

/-- An instruction of a foreign range counts for nothing, whether the range is there or not. -/
theorem FileCoverage.targetsOf_home (file : FileCoverage) (e : Entry) :
    file.targetsOf ((Outline.home file.sourceId).entry e) = file.targetsOf e := by
  unfold targetsOf Outline.home
  by_cases h : e.range.isOwn file.sourceId = true
  · simp only [h, if_true]
  · have hempty : Range.empty.isOwn file.sourceId = false := rfl
    simp only [h, hempty, Bool.false_eq_true, if_false]

/-- Two ranges are the same, or both are foreign. -/
def Range.SameAtHome (sourceId : Value) (r r' : Range) : Prop :=
  r' = r ∨ r.IsForeign sourceId ∧ r'.IsForeign sourceId

/-- Two entries differ in their ranges at most, and there only where both are foreign. -/
structure Entry.SameAtHome (sourceId : Value) (e e' : Entry) : Prop where
  instruction : e'.instruction = e.instruction
  seen : e'.seen = e.seen
  range : Range.SameAtHome sourceId e.range e'.range

/-- Two listings of one code differ in foreign ranges at most. -/
structure Listing.SameAtHome (sourceId : Value) (l l' : Listing) : Prop where
  code : l'.code = l.code
  entries : List.Forall₂ (Entry.SameAtHome sourceId) l.entries l'.entries

/-- A code with two source maps that differ in foreign ranges at most. -/
theorem Listing.sameAtHome_ofBytes {sourceId : Value} (code : List Char) (bytes : List UInt8)
    {ranges ranges' : List Range} (h : List.Forall₂ (Range.SameAtHome sourceId) ranges ranges') :
    (ofBytes code bytes ranges).SameAtHome sourceId (ofBytes code bytes ranges') where
  code := rfl
  entries := by
    show List.Forall₂ _ (pair (Instruction.walk bytes) ranges)
      (pair (Instruction.walk bytes) ranges')
    induction Instruction.walk bytes generalizing ranges ranges' with
    | nil => exact .nil
    | cons i is ih =>
      cases h with
      | nil => exact .cons ⟨rfl, rfl, .inl rfl⟩ (ih .nil)
      | cons hr hrs => exact .cons ⟨rfl, rfl, hr⟩ (ih hrs)

/-- Two files have the same contracts and differ in foreign ranges at most. -/
structure FileCoverage.SameAtHome (file file' : FileCoverage) : Prop where
  rest : file' = { file with tables := file'.tables }
  tables : Option.Rel (fun t t' : Tables => ∀ contract, Option.Rel
    (fun a a' => ∀ part, Listing.SameAtHome file.sourceId (a.part part) (a'.part part))
    (t.get? contract) (t'.get? contract)) file.tables file'.tables

section Home
variable {sourceId : Value} (hknown : sourceId.isNull = false)
include hknown

theorem Entry.SameAtHome.home_eq {e e' : Entry} (h : e.SameAtHome sourceId e') :
    (Outline.home sourceId).entry e = (Outline.home sourceId).entry e' := by
  have hrange : (if e.range.isOwn sourceId then e.range else .empty) =
      if e'.range.isOwn sourceId then e'.range else .empty := by
    rcases h.range with hsame | ⟨hforeign, hforeign'⟩
    · rw [hsame]
    · rw [Range.isOwn_of_isForeign hknown hforeign, Range.isOwn_of_isForeign hknown hforeign']
      rfl
  simp only [Outline.home, hrange, h.instruction, h.seen]

theorem Listing.SameAtHome.home_eq {l l' : Listing} (h : l.SameAtHome sourceId l') :
    (Outline.home sourceId).listing l = (Outline.home sourceId).listing l' := by
  have hentries : ∀ {es es' : List Entry}, List.Forall₂ (Entry.SameAtHome sourceId) es es' →
      es.map (Outline.home sourceId).entry = es'.map (Outline.home sourceId).entry := by
    intro es es' hall
    induction hall with
    | nil => rfl
    | cons he _ ih => rw [List.map_cons, List.map_cons, he.home_eq hknown, ih]
  rw [Outline.listing, Outline.listing, h.code, hentries h.entries]

end Home

namespace FileCoverage

theorem SameAtHome.alike {file file' : FileCoverage} (h : file.SameAtHome file')
    (hknown : file.sourceId.isNull = false) : file.Alike (.home file.sourceId) file' where
  rest := h.rest
  targets := file.targetsOf_home
  tables := by
    refine map_eq_of_rel h.tables fun t t' hcontracts => ?_
    funext contract
    rw [Outline.tables, KeyedList.get?_map, Outline.tables, KeyedList.get?_map]
    refine map_eq_of_rel (hcontracts contract) fun a a' hparts => ?_
    have hlisting := fun part => (hparts part).home_eq hknown
    exact congrArg₂ Artifact.mk (hlisting .creation) (hlisting .deployed)

/-- **Ranges of other files do not leak in.** Two files whose number is known, and which are the
same but for ranges that are foreign in both, cannot be told apart by traces: after any run of
traces, each under settings of its own, the totals are the same, all answers have been the same, and
the same instructions are marked. The range table may list the foreign ranges. -/
theorem foreign_ranges_hidden {file file' : FileCoverage} (h : file.SameAtHome file')
    (hknown : file.sourceId.isNull = false) (traces : List (Settings × Value)) :
    (file.after (traces.map recording)).coverage = (file'.after (traces.map recording)).coverage ∧
      file.answers (traces.map recording) = file'.answers (traces.map recording) ∧
      ∀ part contract, (file.after (traces.map recording)).flags part contract =
        (file'.after (traces.map recording)).flags part contract := by
  have hmarks := Outline.keepsMarks_home file.sourceId
  obtain ⟨hanswers, hafter⟩ := (h.alike hknown).after hmarks traces
  have hcoverage : (file'.after (traces.map recording)).coverage =
      (file.after (traces.map recording)).coverage := by rw [hafter.rest]
  exact ⟨hcoverage.symm, hanswers, hafter.flags hmarks⟩

/-- A range at the start of another file. -/
def foreignRange : Range := { firstRange with fileId := some 1 }

/-- The pair with a number, a statement of the other file in its table, and a range of choice for
its second instruction. -/
def abroad (r : Range) : FileCoverage :=
  { pair with
    sourceId := .int 0
    resolver := .given (twoStatements.add (.statement (.ofInt 3) (.range foreignRange))).1
    tables := some (KeyedList.empty.insert "Pair" ⟨⟨[], []⟩,
      .ofBytes ['5', 'b', '5', 'b', '0', '0'] [0x5b, 0x5b, 0] [firstRange, r, secondRange]⟩) }

/-- A foreign instruction between two of the first statement, which is visited twice therefore. -/
theorem foreign_ranges_hidden_abroad :
    (abroad foreignRange).SameAtHome (abroad .empty) ∧
      ((abroad foreignRange).after ([({}, callOf [0, 1, 0])].map recording)).coverage =
        ((abroad .empty).after ([({}, callOf [0, 1, 0])].map recording)).coverage ∧
      ((abroad foreignRange).after
        ([({}, callOf [0, 1, 0])].map recording)).coverage.statements.get? (.ofInt 1) = some 2 := by
  have hsame : (abroad foreignRange).SameAtHome (abroad .empty) :=
    { rest := rfl
      tables := .some fun contract => by
        rw [KeyedList.get?_insert, KeyedList.get?_insert]
        split
        · refine .some fun part => ?_
          cases part with
          | creation => exact ⟨rfl, .nil⟩
          | deployed =>
            exact Listing.sameAtHome_ofBytes _ _
              (.cons (.inl rfl) (.cons (.inr ⟨.inr (by decide), .inl rfl⟩) (.cons (.inl rfl) .nil)))
        · exact .none }
  exact ⟨hsame, (foreign_ranges_hidden hsame rfl _).1, by decide +kernel⟩

end FileCoverage

end ContractCoverage
