import ContractCoverage.Proofs.Coverage.Listed
import ContractCoverage.Proofs.File.Relinking

/-! Taking in the same output once more.

Reading output looks at the name, the text and the number of a file and at whether its
range table may be replaced, and at nothing that a trace changes. So output that a file
has taken in is read in the same way whenever it comes again (`ingested_again`), and
what is installed then is there already: the listings without their marks, and the range
table, which the total covers (`Current`). Nothing but marks is lost (`ingest_current`),
and traces do not look at marks, so further ingests of the output show neither in the
totals nor in the answers, wherever they stand among the traces (`after_recompiled`). -/
namespace ContractCoverage

namespace FileCoverage
open Replay

/-! ### Reading again -/

theorem readContract_congr {f file : FileCoverage} (hname : f.name = file.name)
    (htext : f.text = file.text) (s : Settings) (sourceId : Value) :
    readContract s f sourceId = readContract s file sourceId := by
  obtain ⟨name, path, text, id, tables, resolver, coverage⟩ := f
  cases hname
  cases htext
  rfl

/-- Listings as they are read have no marks. -/
theorem named_of_readContract {s : Settings} {file : FileCoverage} {sourceId : Value}
    {contract : String × Value} {found : String × Artifact}
    (h : (readContract s file sourceId contract).result = .ok found) :
    View.unmarked.named found = found := by
  have hlisting : ∀ l : Listing, (∀ e ∈ l.entries, e.seen = false) →
      View.unmarked.listing l = l := by
    intro l hl
    have hentry : ∀ e ∈ l.entries, e.unmarked = e := fun e he => by
      rw [Entry.unmarked, ← hl e he]
    exact congrArg (Listing.mk l.code) ((List.map_congr_left hentry).trans (List.map_id' _))
  have hunseen := fun part => unseen_of_reads ((readContract_of_ok h).2 part)
  obtain ⟨name, creation, deployed⟩ := found
  simp only [View.named, View.artifact]
  rw [hlisting creation (hunseen .creation), hlisting deployed (hunseen .deployed)]

/-- Output that has been taken in is read in the same way by every file of the same name and text
that has the number of the file by then. -/
theorem ingested_again {s : Settings} {file file' : FileCoverage} {contracts source : Value}
    (h : (ingested s file contracts source).result = .ok file') :
    ∃ sourceId artifacts table, file' = file.install sourceId artifacts table ∧
      artifacts.map View.unmarked.named = artifacts ∧
      (∀ t, table = some t → file.resolver.isReplaceable = true) ∧
      ∀ f : FileCoverage, f.name = file.name → f.text = file.text → f.sourceId = sourceId →
        f.resolver.isReplaceable = file.resolver.isReplaceable →
        (ingested s f contracts source).result = .ok (f.install sourceId artifacts table) := by
  obtain ⟨outputs, artifacts, rfl, hartifacts, ⟨fields, hentry⟩, hindex, rfl⟩ :=
    ingested_eq_ok_iff.1 h
  refine ⟨file.numberWith source, artifacts, file.treeTable? source, rfl, ?_, ?_, ?_⟩
  · have hread : ∀ found ∈ artifacts, View.unmarked.named found = found := by
      intro found hfound
      obtain ⟨contract, -, hcontract⟩ := (mem_of_mapM hartifacts).2 found hfound
      exact named_of_readContract hcontract
    exact (List.map_congr_left hread).trans (List.map_id' _)
  · intro t ht
    obtain ⟨-, -, hreplaceable, -⟩ := index_of_treeTable ht
    exact hreplaceable
  · intro f hname htext hsource hreplaceable
    have hnumber : f.numberWith source = file.numberWith source := by
      rw [numberWith_of_entry hentry] at hsource
      rw [numberWith_of_entry hentry, numberWith_of_entry hentry]
      simp only [numberIn] at hsource ⊢
      rw [hsource]
      split <;> rfl
    have hlines : f.lines = file.lines := congrArg LineTable.ofText htext
    have htable : f.treeTable? source = file.treeTable? source := by
      rw [treeTable?, treeTable?, hreplaceable, hlines]
    rw [ingested_eq_ok_iff, hnumber, htable, hreplaceable, hlines, readContract_congr hname htext]
    exact ⟨outputs, artifacts, rfl, hartifacts, ⟨fields, hentry⟩, hindex, rfl⟩

/-! ### Files that have taken in an output -/

/-- A file has all that an output brings to it: the listings, but for marks, the number of the file,
and the range table, which the total covers. `before` is the file that the output came to first. -/
structure Current (file before : FileCoverage) (sourceId : Value)
    (artifacts : List (String × Artifact)) (table : Option RangeTable) : Prop where
  name : file.name = before.name
  text : file.text = before.text
  replaceable : file.resolver.isReplaceable = before.resolver.isReplaceable
  sourceId : file.sourceId = sourceId
  tables : file.tables.map View.unmarked.tables =
    some (artifacts.foldl (fun t (found : String × Artifact) => t.insert found.1 found.2) .empty)
  table : ∀ t, table = some t → file.resolver = .derived t ∧
    file.coverage.Covers (t.initial (some file.path))

section Current
variable {before file : FileCoverage} {sourceId : Value} {artifacts : List (String × Artifact)}
  {table : Option RangeTable}

/-- A new file is current after it has taken in output. -/
theorem current_install (hunmarked : artifacts.map View.unmarked.named = artifacts)
    (htables : before.tables = none)
    (htable : ∀ t, table = some t → before.resolver.isReplaceable = true ∧
      before.coverage = { path := some before.path }) :
    (before.install sourceId artifacts table).Current before sourceId artifacts table where
  name := by cases table <;> rfl
  text := by cases table <;> rfl
  replaceable := by
    cases table with
    | none => rfl
    | some t => exact (htable t rfl).1.symm
  sourceId := by cases table <;> rfl
  tables := by
    have hview := congrArg (·.tables) (view_install .unmarked before sourceId artifacts table)
    rw [hunmarked] at hview
    refine hview.trans ?_
    cases table <;> simp only [FileCoverage.install, view, htables] <;> rfl
  table t ht := by
    cases ht
    refine ⟨rfl, ?_⟩
    show (before.coverage.merge (t.initial (some before.path))).Covers
      (t.initial (some before.path))
    rw [(htable t rfl).2]
    exact Fragment.covers_merge_self rfl ⟨rfl, rfl, rfl⟩

/-- Installing what a file has takes off its marks and does nothing else. -/
theorem Current.view_install (h : file.Current before sourceId artifacts table)
    (hunmarked : artifacts.map View.unmarked.named = artifacts) :
    (file.install sourceId artifacts table).view .unmarked = file.view .unmarked := by
  obtain ⟨-, -, -, hsource, htables, htable⟩ := h
  rw [FileCoverage.view_install, hunmarked]
  obtain ⟨name, path, text, id, tables, resolver, coverage⟩ := file
  cases hsource
  have hinsert := KeyedList.foldl_insert_twice .empty artifacts
  simp only [view, htables] at hinsert ⊢
  cases table with
  | none => simp only [install, Option.getD_some, hinsert]
  | some t =>
    obtain ⟨hresolver, hcovers⟩ := htable t rfl
    cases hresolver
    simp only [install, Option.getD_some, hinsert, Fragment.merge_initial_of_covers hcovers]

/-- Whether a file is current does not depend on its marks. -/
theorem Current.of_view {file' : FileCoverage} (h : file.Current before sourceId artifacts table)
    (hview : file'.view .unmarked = file.view .unmarked) :
    file'.Current before sourceId artifacts table := by
  have htables : file'.tables.map View.unmarked.tables = file.tables.map View.unmarked.tables :=
    congrArg (·.tables) hview
  obtain ⟨tables, rfl⟩ : ∃ tables, file' = { file with tables } := ⟨_, eq_of_view hview.symm⟩
  exact ⟨h.name, h.text, h.replaceable, h.sourceId, htables.trans h.tables, h.table⟩

/-- A trace changes nothing of a file but its marks and its total. -/
theorem unmarked_record (s : Settings) (file : FileCoverage) (trace : Value) :
    (file.record s trace).state.view .unmarked =
      { file.view .unmarked with coverage := file.totalAfter (file.addition s trace) } := by
  have hground := ground_record s file trace
  rw [record_state] at hground ⊢
  exact congrArg (fun g : FileCoverage =>
    { g with coverage := file.totalAfter (file.addition s trace) }) hground

/-- A trace leaves a file current. -/
theorem Current.record (h : file.Current before sourceId artifacts table) (s : Settings)
    (trace : Value) :
    ((file.record s trace).state).Current before sourceId artifacts table := by
  have hcurrent : ({ file with coverage := file.totalAfter (file.addition s trace) } :
      FileCoverage).Current before sourceId artifacts table := by
    refine ⟨h.name, h.text, h.replaceable, h.sourceId, h.tables, fun t ht => ?_⟩
    obtain ⟨hresolver, hcovers⟩ := h.table t ht
    refine ⟨hresolver, ?_⟩
    show (file.totalAfter (file.addition s trace)).Covers _
    cases ha : file.addition s trace with
    | error fault => exact hcovers
    | ok added =>
      unfold addition at ha
      split at ha
      · cases ha
      · apply hcovers.merge
        · exact (Fragment.path_hitAll ha).trans hcovers.path.symm
        · exact (Fragment.samePlaces_hitAll ha).trans ⟨rfl, rfl, rfl⟩
  exact hcurrent.of_view (unmarked_record s file trace)

/-- The output that a file is current with is accepted again, and only marks are lost. -/
theorem ingest_current {s : Settings} {contracts source : Value}
    (hunmarked : artifacts.map View.unmarked.named = artifacts)
    (hread : ∀ f : FileCoverage, f.name = before.name → f.text = before.text →
      f.sourceId = sourceId → f.resolver.isReplaceable = before.resolver.isReplaceable →
      (ingested s f contracts source).result = .ok (f.install sourceId artifacts table))
    (h : file.Current before sourceId artifacts table) :
    (file.ingest s contracts source).result = .ok () ∧
      (file.ingest s contracts source).state.view .unmarked = file.view .unmarked := by
  have hresult := hread file h.name h.text h.sourceId h.replaceable
  unfold ingest
  dsimp only
  rw [hresult]
  exact ⟨rfl, h.view_install hunmarked⟩

end Current

end FileCoverage

/-! ### Further ingests among traces -/

/-- Whether an action records a trace. -/
def Action.isRecording : Action → Bool
  | .record .. => true
  | .ingest .. => false

namespace FileCoverage

/-- The answers to the traces among some actions: totals, and faults of traces that are refused. -/
def answers (file : FileCoverage) : List Action → List (Except Fault Fragment)
  | [] => []
  | .ingest s contracts source :: actions =>
    answers (file.ingest s contracts source).state actions
  | .record s trace :: actions =>
    (file.record s trace).result :: answers (file.record s trace).state actions

/-- Files that are the same but for marks answer a trace alike and remain the same. -/
theorem record_of_view {file file' : FileCoverage}
    (h : file.view .unmarked = file'.view .unmarked) (s : Settings) (trace : Value) :
    (file.record s trace).state.view .unmarked = (file'.record s trace).state.view .unmarked ∧
      (file.record s trace).result = (file'.record s trace).result := by
  have hcoverage : file.coverage = file'.coverage := congrArg (·.coverage) h
  have haddition : file.addition s trace = file'.addition s trace := by
    rw [← addition_view .unmarked, h, addition_view]
  have htotal : file.totalAfter (file.addition s trace) =
      file'.totalAfter (file'.addition s trace) := by
    unfold totalAfter
    rw [haddition, hcoverage]
  rw [unmarked_record, unmarked_record, record_result, record_result, htotal, h, haddition,
    hcoverage]
  exact ⟨rfl, rfl⟩

/-- Two files that are the same but for marks, of which only the first takes in its output again and
again, answer alike and remain the same. -/
theorem after_current {before : FileCoverage} {sourceId : Value}
    {artifacts : List (String × Artifact)} {table : Option RangeTable} {s : Settings}
    {contracts source : Value}
    (hingest : ∀ f : FileCoverage, f.Current before sourceId artifacts table →
      (f.ingest s contracts source).state.view .unmarked = f.view .unmarked)
    {actions : List Action}
    (honly : ∀ a ∈ actions, a.isRecording = true ∨ a = .ingest s contracts source)
    {file file' : FileCoverage} (h : file.Current before sourceId artifacts table)
    (hview : file.view .unmarked = file'.view .unmarked) :
    (file.after actions).Current before sourceId artifacts table ∧
      (file.after actions).view .unmarked =
        (file'.after (actions.filter Action.isRecording)).view .unmarked ∧
      file.answers actions = file'.answers (actions.filter Action.isRecording) := by
  induction actions generalizing file file' with
  | nil => exact ⟨h, hview, rfl⟩
  | cons a actions ih =>
    obtain ⟨ha, hrest⟩ := List.forall_mem_cons.1 honly
    cases a with
    | record s' trace =>
      obtain ⟨hstate, hanswer⟩ := record_of_view hview s' trace
      obtain ⟨hcurrent, hafter, hanswers⟩ := ih hrest (h.record s' trace) hstate
      refine ⟨hcurrent, hafter, ?_⟩
      show _ :: _ = _ :: _
      rw [hanswer, hanswers]
    | ingest s' contracts' source' =>
      rcases ha with ha | ha
      · cases ha
      · cases ha
        have hstate := hingest file h
        exact ih hrest (h.of_view hstate) (hstate.trans hview)

/-- **Compiling again does not disturb the totals.** A new file has taken in output. Then it does
not show in the totals, in the places or in any answer whether the same output comes again, any
number of times anywhere among the traces: the output is accepted each time, and nothing but marks
is different afterwards. -/
theorem after_recompiled {name path text : String} {given : Option RangeTable} {s : Settings}
    {contracts source : Value} {start : FileCoverage}
    (hstart : ((new name path text given).ingest s contracts source).state = start)
    (haccepted : ((new name path text given).ingest s contracts source).result = .ok ())
    {actions : List Action}
    (honly : ∀ a ∈ actions, a.isRecording = true ∨ a = .ingest s contracts source) :
    (start.after actions).coverage = (start.after (actions.filter Action.isRecording)).coverage ∧
      start.answers actions = start.answers (actions.filter Action.isRecording) ∧
      (start.after actions).view .unmarked =
        (start.after (actions.filter Action.isRecording)).view .unmarked ∧
      ((start.after actions).ingest s contracts source).result = .ok () := by
  have hingested : (ingested s (new name path text given) contracts source).result =
      .ok start := by
    unfold ingest at hstart haccepted
    dsimp only at hstart haccepted
    split at haccepted
    · next file' hresult =>
      rw [hresult] at hstart ⊢
      exact congrArg Except.ok hstart
    · cases haccepted
  obtain ⟨sourceId, artifacts, table, rfl, hunmarked, hreplaceable, hread⟩ :=
    ingested_again hingested
  have hcurrent : ((new name path text given).install sourceId artifacts table).Current
      (new name path text given) sourceId artifacts table :=
    current_install hunmarked (by cases given <;> rfl) fun t ht => by
      have hopen := hreplaceable t ht
      cases given with
      | none => exact ⟨rfl, rfl⟩
      | some _ => cases hopen
  obtain ⟨hafter, hview, hanswers⟩ := after_current
    (fun f hf => (ingest_current hunmarked hread hf).2) honly hcurrent rfl
  have hcoverage := congrArg (·.coverage) hview
  exact ⟨hcoverage, hanswers, hview, (ingest_current hunmarked hread hafter).1⟩

/-- The contracts in the output for the chain of two branches. -/
def chainContracts : Value :=
  .object [("Chain", .object [("evm", .object
    [("bytecode", .object [("object", .text "")]),
      ("deployedBytecode", .object [("object", .text "00"), ("sourceMap", .text "9:2:0")])])])]

/-- The source entry of the chain of two branches. -/
def chainSource : Value := .object [("id", .int 0), ("ast", Tree.chain)]

/-- Calls of the statement in the first arm, with the output coming again between them and
afterwards. -/
def recompiledChain : List Action :=
  [.record {} (callOf [0]), .ingest {} chainContracts chainSource,
    .ingest {} chainContracts chainSource, .record {} (callOf [0]),
    .ingest {} chainContracts chainSource]

/-- Two hits of the first arm, however often the output comes. -/
theorem after_recompiled_chain :
    ((new "Chain.sol" "Chain.sol" Tree.chainText).ingest {} chainContracts chainSource).result =
        .ok () ∧
      (((new "Chain.sol" "Chain.sol" Tree.chainText).ingest {} chainContracts
          chainSource).state.after recompiledChain).coverage =
        (((new "Chain.sol" "Chain.sol" Tree.chainText).ingest {} chainContracts
          chainSource).state.after [.record {} (callOf [0]), .record {} (callOf [0])]).coverage ∧
      (((new "Chain.sol" "Chain.sol" Tree.chainText).ingest {} chainContracts
        chainSource).state.after recompiledChain).coverage.armHits (.ofInt 1) 0 = 2 := by
  have haccepted : ((new "Chain.sol" "Chain.sol" Tree.chainText).ingest {} chainContracts
      chainSource).result = .ok () := by
    have hnone : ((new "Chain.sol" "Chain.sol" Tree.chainText).ingest {} chainContracts
      chainSource).fault? = none := by decide +kernel
    unfold Outcome.fault? at hnone
    split at hnone
    · next hresult => exact hresult
    · cases hnone
  have honly : ∀ a ∈ recompiledChain, a.isRecording = true ∨
      a = .ingest {} chainContracts chainSource := by
    simp [recompiledChain, Action.isRecording]
  refine ⟨haccepted, (after_recompiled rfl haccepted honly).1, ?_⟩
  decide +kernel

end FileCoverage

end ContractCoverage
