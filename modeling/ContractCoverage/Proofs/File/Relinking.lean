import ContractCoverage.Proofs.Code.Linking
import ContractCoverage.Proofs.File.History

/-! Files whose codes have been linked.

A trace comes from linked code, and the listings may come from code that has not been
linked. Without their operands and the texts of their codes (`View.bare`) the listings
are the same (`bare_of_linked`), and so is everything that is made of them: what is taken
in (`ingested_congr`) and what a trace does (`view_record`). Two files that are the same
in this view remain so step by step (`view_act`), and cannot be told apart by traces
(`agree_of_view`). -/
namespace ContractCoverage

/-! ### Listings without operands -/

/-- An entry without the operand of its instruction. -/
def Entry.bare (e : Entry) : Entry := { e with instruction := { e.instruction with operand := [] } }

/-- Listings may be looked at without operands and without the texts of the codes. -/
def View.bare : View where
  code _ := []
  entry := Entry.bare
  address _ := rfl
  mnemonic _ := rfl
  range _ := rfl

theorem Entry.Linked.bare_eq {ps : List Piece} {e e' : Entry} (h : e.Linked ps e') :
    e.bare = e'.bare := by
  obtain ⟨⟨address, opcode, operand⟩, range, seen⟩ := e
  obtain ⟨⟨address', opcode', operand'⟩, range', seen'⟩ := e'
  obtain ⟨⟨haddress, hopcode, -⟩, hrange, hseen⟩ := h
  cases haddress
  cases hopcode
  cases hrange
  cases hseen
  rfl

/-- Listings of a text before it has been linked and after it, without operands. -/
theorem Listing.bare_of_linked {ps : List Piece} {l l' : Listing}
    (h : List.Forall₂ (Entry.Linked ps) l.entries l'.entries) :
    View.bare.listing l = View.bare.listing l' := by
  obtain ⟨code, entries⟩ := l
  obtain ⟨code', entries'⟩ := l'
  have hentries : entries.map Entry.bare = entries'.map Entry.bare := by
    dsimp only at h
    induction h with
    | nil => rfl
    | cons he _ ih => rw [List.map_cons, List.map_cons, he.bare_eq, ih]
  exact congrArg (Listing.mk []) hentries

theorem View.bare_keepsMarks : View.bare.outline.KeepsMarks := fun _ _ => rfl

namespace FileCoverage
open Replay

/-- A trace does to a file without operands what it does to the file. -/
theorem view_record (s : Settings) (file : FileCoverage) (trace : Value) :
    (file.record s trace).state.view .bare = ((file.view .bare).record s trace).state := by
  have hmarks : ∀ t, View.bare.tables (markAll (file.passages s trace) t) =
      markAll ((file.passages s trace).map View.bare.passage) (View.bare.tables t) := fun t =>
    (tables_markAll View.bare_keepsMarks _ t).trans
      (congrFun (markAll_outlined View.bare.outline _).symm _)
  rw [record_state, record_state, addition_view, passages_view]
  cases h : file.tables with
  | none => simp only [view, h, Option.map_none]; rfl
  | some tables =>
    simp only [view, h, Option.map_some, hmarks]
    rfl

end FileCoverage

/-! ### Compiler output -/

/-- The listings of a contract, under its name, as they are seen. -/
def View.named (v : View) (found : String × Artifact) : String × Artifact :=
  (found.1, v.artifact found.2)

namespace CompilerOutput

/-- The texts of a code and its source map, and what linking makes of them. -/
inductive RelinkedTexts :
    (texts texts' : Except CompilerFault (List Char × List Char)) → Prop
  | same (texts : Except CompilerFault (List Char × List Char)) : RelinkedTexts texts texts
  | linked {ps : List Piece} (hl : Piece.Linkable ps) (map : List Char) :
    RelinkedTexts (.ok (Piece.unlinked ps, map)) (.ok (Piece.linked ps, map))

/-- The output of a contract, and the output after any of its codes have been linked. -/
def RelinkedContract (contract contract' : String × Value) : Prop :=
  contract'.1 = contract.1 ∧ ∀ part, RelinkedTexts (codeTexts contract.1 contract.2 part)
    (codeTexts contract'.1 contract'.2 part)

/-- The contracts of a file, and the same contracts after any of their codes have been linked. -/
inductive Relinked : Value → Value → Prop
  | same (contracts : Value) : Relinked contracts contracts
  | object {outputs outputs' : List (String × Value)}
    (h : List.Forall₂ RelinkedContract outputs outputs') :
    Relinked (.object outputs) (.object outputs')

end CompilerOutput

namespace FileCoverage
open CompilerOutput Replay

theorem bare_listing {contract contract' : String × Value} (h : RelinkedContract contract contract')
    (part : CodePart) :
    (CompilerOutput.listing contract.1 contract.2 part).result.map View.bare.listing =
      (CompilerOutput.listing contract'.1 contract'.2 part).result.map View.bare.listing := by
  have htexts := h.2 part
  rw [result_listing, result_listing]
  generalize codeTexts contract.1 contract.2 part = texts at htexts ⊢
  generalize codeTexts contract'.1 contract'.2 part = texts' at htexts ⊢
  cases htexts with
  | same => rfl
  | linked hl map =>
    show (Listing.ofText _ _).map _ = (Listing.ofText _ _).map _
    rcases Listing.ofText_linked hl map with
      ⟨fault, hbefore, hafter⟩ | ⟨l, l', hbefore, hafter, hall⟩
    · rw [hbefore, hafter]
    · rw [hbefore, hafter]
      exact congrArg Except.ok (Listing.bare_of_linked hall)

theorem bare_checkEntry (s : Settings) (file : FileCoverage) (sourceId : Value) (name : String)
    (size : Nat) (e : Entry) :
    (checkEntry s file sourceId name size e).result.map Entry.bare =
      (checkEntry s file sourceId name size e.bare).result := by
  unfold checkEntry
  show _ = (if e.range.isOwn sourceId && e.range.stop?.any _ then _ else _ : Logged Entry).result
  split
  · cases s.strictRanges <;> rfl
  · rfl

theorem bare_checkListing (s : Settings) (file : FileCoverage) (sourceId : Value) (name : String)
    (l : Listing) :
    (checkListing s file sourceId name l).result.map View.bare.listing =
      (checkListing s file sourceId name (View.bare.listing l)).result := by
  unfold checkListing
  split
  · rfl
  · rw [Logged.result_bind, Logged.result_bind, Logged.result_mapM, Logged.result_mapM]
    have hentries : (l.entries.map Entry.bare).mapM
          (fun e => (checkEntry s file sourceId name file.lines.size e).result) =
        (l.entries.mapM fun e => (checkEntry s file sourceId name file.lines.size e).result).map
          (List.map Entry.bare) := by
      rw [map_mapM, List.mapM_map]
      congr 1
      funext e
      exact (bare_checkEntry ..).symm
    show _ = (l.entries.map Entry.bare).mapM _ >>= _
    rw [hentries]
    cases l.entries.mapM fun e => (checkEntry s file sourceId name file.lines.size e).result <;> rfl

/-- The listings of a contract are read the same but for operands before and after linking. -/
theorem bare_readContract (s : Settings) (file : FileCoverage) (sourceId : Value)
    {contract contract' : String × Value} (h : RelinkedContract contract contract') :
    (readContract s file sourceId contract).result.map View.bare.named =
      (readContract s file sourceId contract').result.map View.bare.named := by
  have hread : ∀ contract : String × Value,
      (readContract s file sourceId contract).result.map View.bare.named =
        (CompilerOutput.listing contract.1 contract.2 .creation).result.map View.bare.listing >>=
          fun creation =>
        (CompilerOutput.listing contract.1 contract.2 .deployed).result.map View.bare.listing >>=
          fun deployed =>
        (checkListing s file sourceId contract.1 creation).result >>= fun creation =>
        (checkListing s file sourceId contract.1 deployed).result >>= fun deployed =>
        .ok (contract.1, ⟨creation, deployed⟩) := by
    intro contract
    simp only [readContract, Logged.result_bind, map_bind, bind_map, ← bare_checkListing]
    rfl
  rw [hread, hread, bare_listing h, bare_listing h, h.1]

theorem view_install (v : View) (file : FileCoverage) (sourceId : Value)
    (artifacts : List (String × Artifact)) (table : Option RangeTable) :
    (file.install sourceId artifacts table).view v =
      (file.view v).install sourceId (artifacts.map v.named) table := by
  have hinsert : ∀ t : Tables, v.tables (artifacts.foldl (fun t (found : String × Artifact) =>
      t.insert found.1 found.2) t) =
      (artifacts.map v.named).foldl (fun t (found : String × Artifact) =>
        t.insert found.1 found.2) (v.tables t) := by
    induction artifacts with
    | nil => exact fun _ => rfl
    | cons found artifacts ih =>
      intro t
      rw [List.foldl_cons, ih, View.tables, KeyedList.map_insert]
      rfl
  have hbefore : v.tables (file.tables.getD .empty) = (file.view v).tables.getD .empty := by
    rw [view]
    cases file.tables <;> rfl
  have hafter := hinsert (file.tables.getD .empty)
  rw [hbefore] at hafter
  cases table with
  | none =>
    exact congrArg (fun t => ({ file with sourceId, tables := some t } : FileCoverage)) hafter
  | some table =>
    exact congrArg (fun t => ({ file with
      sourceId, tables := some t, resolver := .derived table
      coverage := file.coverage.merge (table.initial (some file.path)) } : FileCoverage)) hafter

/-- Files that are the same in a view differ in their listings only. -/
theorem eq_of_view {v : View} {file file' : FileCoverage} (h : file.view v = file'.view v) :
    file' = { file with tables := file'.tables } := by
  obtain ⟨name, path, text, sourceId, tables, resolver, coverage⟩ := file
  obtain ⟨name', path', text', sourceId', tables', resolver', coverage'⟩ := file'
  simp only [view, FileCoverage.mk.injEq] at h
  obtain ⟨rfl, rfl, rfl, rfl, -, rfl, rfl⟩ := h
  rfl

/-- What taking in output makes of a file without operands: it is enough to see every contract that
is read without them. -/
theorem view_ingested (s : Settings) (file : FileCoverage) (contracts source : Value) :
    (ingested s file contracts source).result.map (view .bare) = (do
      let entry := if source.isVoid then .object [] else source
      let id ← (CompilerOutput.sourceId entry).mapError Fault.shape
      let sourceId := if id.isNull then file.sourceId else id
      let outputs ← (contractList contracts).mapError Fault.shape
      let artifacts ← outputs.mapM fun contract =>
        (readContract s file sourceId contract).result.map View.bare.named
      let tree ← (CompilerOutput.sourceTree entry).mapError Fault.shape
      let table ← (readResolver file tree).result
      .ok ((file.view .bare).install sourceId artifacts table)) := by
  simp only [ingested, Logged.result_bind, Logged.result_mapM, map_bind, Logged.result_pure, map_ok,
    view_install, ← map_mapM, bind_map]
  rfl

/-- Output before linking and output after it are refused alike, or make files that are the same
without operands, when they come to such files. -/
theorem ingested_congr {file file' : FileCoverage} (h : file.view .bare = file'.view .bare)
    {contracts contracts' : Value} (hc : Relinked contracts contracts') (s : Settings)
    (source : Value) :
    (ingested s file contracts source).result.map (view .bare) =
      (ingested s file' contracts' source).result.map (view .bare) := by
  obtain ⟨tables, rfl⟩ : ∃ tables, file' = { file with tables } := ⟨_, eq_of_view h⟩
  rw [view_ingested, view_ingested, ← h]
  cases hc with
  | same => rfl
  | object hall =>
    dsimp only
    congr 1
    funext id
    have hartifacts := mapM_congr (hall.imp fun contract contract' hcontract =>
      bare_readContract s file (if id.isNull then file.sourceId else id) hcontract)
    simp only [contractList, Except.mapError, ok_bind]
    exact congrArg (· >>= _) hartifacts

/-- Output before linking and output after it do the same to a file but for operands. -/
theorem ingest_congr {file file' : FileCoverage} (h : file.view .bare = file'.view .bare)
    {contracts contracts' : Value} (hc : Relinked contracts contracts') (s : Settings)
    (source : Value) :
    (file.ingest s contracts source).state.view .bare =
        (file'.ingest s contracts' source).state.view .bare ∧
      (file.ingest s contracts source).result = (file'.ingest s contracts' source).result := by
  have hread := ingested_congr h hc s source
  unfold ingest
  dsimp only
  cases hresult : (ingested s file contracts source).result with
  | error fault =>
    cases hresult' : (ingested s file' contracts' source).result with
    | error fault' =>
      rw [hresult, hresult'] at hread
      cases hread
      exact ⟨h, rfl⟩
    | ok after' =>
      rw [hresult, hresult'] at hread
      cases hread
  | ok after =>
    cases hresult' : (ingested s file' contracts' source).result with
    | error fault' =>
      rw [hresult, hresult'] at hread
      cases hread
    | ok after' =>
      rw [hresult, hresult'] at hread
      exact ⟨Except.ok.inj hread, rfl⟩

end FileCoverage

/-! ### Histories -/

/-- An action, and the same action with output whose codes have been linked. -/
inductive Action.Relinked : Action → Action → Prop
  | ingest (s : Settings) {contracts contracts' : Value}
    (h : CompilerOutput.Relinked contracts contracts') (source : Value) :
    Relinked (.ingest s contracts source) (.ingest s contracts' source)
  | record (s : Settings) (trace : Value) : Relinked (.record s trace) (.record s trace)

namespace FileCoverage
open Replay

theorem view_act {a a' : Action} (ha : a.Relinked a') {file file' : FileCoverage}
    (h : file.view .bare = file'.view .bare) :
    (file.act a).view .bare = (file'.act a').view .bare := by
  cases ha with
  | ingest s hc source => exact (ingest_congr h hc s source).1
  | record s trace =>
    show (file.record s trace).state.view .bare = (file'.record s trace).state.view .bare
    rw [view_record, h, view_record]

/-- Files that are the same without operands remain so, whether codes are linked or not before they
are taken in. -/
theorem view_after {actions actions' : List Action}
    (h : List.Forall₂ Action.Relinked actions actions') {file file' : FileCoverage}
    (hfile : file.view .bare = file'.view .bare) :
    (file.after actions).view .bare = (file'.after actions').view .bare := by
  induction h generalizing file file' with
  | nil => exact hfile
  | cons ha _ ih => exact ih (view_act ha hfile)

/-! ### What can be seen of a file -/

/-- The code of which contract a frame aligns with. -/
def alignment (s : Settings) (file : FileCoverage) (f : Frame) : Option (CodePart × String) :=
  (file.tables.bind (f.align s)).map fun table => (table.part, table.contract)

/-- The instructions of a code by their addresses, each with whether it has been executed. -/
def flags (file : FileCoverage) (part : CodePart) (contract : String) :
    Except ShapeFault (List (Nat × Bool)) :=
  (file.listing part contract).map fun l => l.entries.map fun e => (e.instruction.address, e.seen)

/-- Two files cannot be told apart by traces, nor by output that is the same but for linking: frames
align with the same codes, the same instructions are marked, the totals and all answers are the
same. -/
structure Agree (file file' : FileCoverage) : Prop where
  alignment (s : Settings) (f : Frame) : file.alignment s f = file'.alignment s f
  flags (part : CodePart) (contract : String) : file.flags part contract = file'.flags part contract
  coverage : file.coverage = file'.coverage
  intake (s : Settings) {contracts contracts' : Value}
    (h : CompilerOutput.Relinked contracts contracts') (source : Value) :
    (file.ingest s contracts source).result = (file'.ingest s contracts' source).result
  answer (s : Settings) (trace : Value) :
    (file.record s trace).result = (file'.record s trace).result

theorem alignment_view (v : View) (s : Settings) (file : FileCoverage) (f : Frame) :
    (file.view v).alignment s f = file.alignment s f := by
  unfold alignment view
  cases file.tables with
  | none => rfl
  | some tables =>
    simp only [Option.map_some, Option.bind_some, View.align_tables, Option.map_map]
    rfl

/-- The marks are seen in any outline that keeps them. -/
theorem flags_outlined {o : Outline} (h : o.KeepsMarks) (file : FileCoverage) (part : CodePart)
    (contract : String) : (file.outlined o).flags part contract = file.flags part contract := by
  unfold flags listing outlined
  cases file.tables with
  | none => rfl
  | some tables =>
    simp only [Option.map_some, Outline.tables, KeyedList.get?_map]
    cases tables.get? contract with
    | none => rfl
    | some artifact =>
      have hlisting : ∀ l : Listing,
          (o.listing l).entries.map (fun e => (e.instruction.address, e.seen)) =
            l.entries.map fun e => (e.instruction.address, e.seen) := by
        intro l
        simp only [Outline.listing, List.map_map, Function.comp_def, o.address, h.seen]
      cases part
      · exact congrArg Except.ok (hlisting artifact.creation)
      · exact congrArg Except.ok (hlisting artifact.deployed)

theorem flags_bare (file : FileCoverage) (part : CodePart) (contract : String) :
    (file.view .bare).flags part contract = file.flags part contract :=
  flags_outlined View.bare_keepsMarks file part contract

theorem agree_of_view {file file' : FileCoverage} (h : file.view .bare = file'.view .bare) :
    file.Agree file' where
  alignment s f := by rw [← alignment_view .bare, h, alignment_view]
  flags part contract := by rw [← flags_bare, h, flags_bare]
  coverage := congrArg (·.coverage) h
  intake s _ _ hc source := (ingest_congr h hc s source).2
  answer s trace := by
    have hcoverage : file.coverage = file'.coverage := congrArg (·.coverage) h
    rw [record_result, record_result, ← addition_view .bare, h, addition_view, hcoverage]

/-- **Linking does not move code.** A text that can be linked and the linked text have the same
instructions at the same addresses with the same ranges, and differ in nothing but the operands that
were placeholders and are addresses now. So a file that takes in output before linking and one that
takes in output after it agree whatever happens to them: frames align with the same codes, the same
instructions are marked, and the totals and all answers are the same. -/
theorem linking_keeps_code :
    (∀ ps, Piece.Linkable ps → ∀ map,
      (∃ fault, Listing.ofText (Piece.unlinked ps) map = .error fault ∧
        Listing.ofText (Piece.linked ps) map = .error fault) ∨
      ∃ l l', Listing.ofText (Piece.unlinked ps) map = .ok l ∧
        Listing.ofText (Piece.linked ps) map = .ok l' ∧
        List.Forall₂ (Entry.Linked ps) l.entries l'.entries) ∧
    ∀ (file : FileCoverage) (actions actions' : List Action),
      List.Forall₂ Action.Relinked actions actions' →
        (file.after actions).Agree (file.after actions') := by
  constructor
  · intro ps hl map
    exact Listing.ofText_linked hl map
  · intro file actions actions' h
    -- The two histories begin with the same file, so they begin with the same view of it.
    have hview : (file.after actions).view .bare = (file.after actions').view .bare :=
      view_after h rfl
    exact agree_of_view hview

/-- The output of a contract with a code, of which the first instruction is of one statement and the
second of another. -/
def outputOf (code : List Char) : String × Value :=
  ("Pair", .object [("evm", .object [("bytecode", .object [("object", .text "")]),
    ("deployedBytecode", .object [("object", .text (String.ofList code)),
      ("sourceMap", .text "0:4:0;4")])])])

/-- A file takes in such output, and a call of the first two instructions is recorded. -/
def callHistory (code : List Char) : List Action :=
  [.ingest {} (.object [outputOf code]) .null, .record {} (callOf [0, 21])]

theorem relinked_outputOf {ps : List Piece} (hl : Piece.Linkable ps) :
    CompilerOutput.RelinkedContract (outputOf (Piece.unlinked ps))
      (outputOf (Piece.linked ps)) := by
  have hcode : ∀ code, CompilerOutput.codeTexts "Pair" (outputOf code).2 .deployed =
      .ok (code, "0:4:0;4".toList) := by
    intro code
    have hfields : CompilerOutput.codeFields (outputOf code).2 .deployed =
        .ok (.text (String.ofList code), .text "0:4:0;4") := by
      show (if (String.ofList code).isEmpty then _ else _ : Except ShapeFault (Value × Value)) = _
      split <;> rfl
    rw [CompilerOutput.codeTexts, hfields]
    exact congrArg (fun code => Except.ok (code, _)) String.toList_ofList
  refine ⟨rfl, fun part => ?_⟩
  cases part with
  | creation => exact .same _
  | deployed =>
    show CompilerOutput.RelinkedTexts (CompilerOutput.codeTexts "Pair" _ .deployed)
      (CompilerOutput.codeTexts "Pair" _ .deployed)
    rw [hcode, hcode]
    exact .linked hl _

/-- A call of a code that pushes the address of a library. -/
theorem linking_keeps_code_library :
    (∃ l l', Listing.ofText (Piece.unlinked Piece.pushLibrary) "0:4:0;4".toList = .ok l ∧
      Listing.ofText (Piece.linked Piece.pushLibrary) "0:4:0;4".toList = .ok l' ∧
      List.Forall₂ (Entry.Linked Piece.pushLibrary) l.entries l'.entries) ∧
    (pair.after (callHistory (Piece.unlinked Piece.pushLibrary))).Agree
      (pair.after (callHistory (Piece.linked Piece.pushLibrary))) ∧
    (pair.after (callHistory (Piece.linked Piece.pushLibrary))).flags .deployed "Pair" =
      .ok [(0, true), (21, true), (22, false)] ∧
    Fragment.hitsOf (pair.after (callHistory (Piece.linked Piece.pushLibrary))).coverage.statements
      (.ofInt 2) = 1 := by
  have hl := Piece.linkable_pushLibrary
  obtain ⟨hlisting, hagree⟩ := linking_keeps_code
  refine ⟨?_, hagree pair _ _ ?_, ?_, ?_⟩
  · rcases hlisting _ hl "0:4:0;4".toList with ⟨fault, hfault, -⟩ | hfound
    · have hread : (Listing.ofText (Piece.unlinked Piece.pushLibrary)
          "0:4:0;4".toList).toOption.isSome = true := by decide +kernel
      rw [hfault] at hread
      cases hread
    · exact hfound
  · exact .cons (.ingest {} (.object (.cons (relinked_outputOf hl) .nil)) .null)
      (.cons (.record {} (callOf [0, 21])) .nil)
  · decide +kernel
  · decide +kernel

end FileCoverage

end ContractCoverage
