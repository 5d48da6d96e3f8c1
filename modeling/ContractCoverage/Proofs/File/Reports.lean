import ContractCoverage.Project.Ingest
import ContractCoverage.Proofs.File.Ingestion
import ContractCoverage.Proofs.File.Recording
import ContractCoverage.Proofs.Tree.Stops

/-! Which bad outputs are reported as faults of compiler output.

The output of a contract always is, whatever it holds (`reported_readContract`). A syntax
tree is not: `reported_iff` says which trees end the ingestion of a file with another
fault. A project does not collect such a fault and does not get to its other files
(`not_reported_branch`). -/
namespace ContractCoverage

/-- A step that fails does so for a fault of compiler output. -/
def Reported {α : Type} (x : Except Fault α) : Prop :=
  ∀ fault, x = .error fault → ∃ cause, fault = .compiler cause

section Reported
variable {α β : Type}

theorem reported_ok (a : α) : Reported (.ok a) := fun _ h => by cases h

/-- A chain whose first step is reported is reported when the rest is, once the first has
succeeded. -/
theorem reported_bind_iff {x : Except Fault α} {f : α → Except Fault β} (hx : Reported x) :
    Reported (x >>= f) ↔ ∀ a, x = .ok a → Reported (f a) := by
  cases x with
  | error fault =>
    refine iff_of_true ?_ fun _ h => by cases h
    rintro _ ⟨⟩
    exact hx fault rfl
  | ok a => exact ⟨fun h _ ha => by cases ha; exact h, fun h => h a rfl⟩

theorem Reported.bind {x : Except Fault α} {f : α → Except Fault β} (hx : Reported x)
    (hf : ∀ a, Reported (f a)) : Reported (x >>= f) :=
  (reported_bind_iff hx).2 fun a _ => hf a

/-- A fault that is turned into one of compiler output is reported. -/
theorem reported_mapError {ε : Type} {f : ε → Fault} (hf : ∀ e, ∃ cause, f e = .compiler cause)
    (x : Except ε α) : Reported (x.mapError f) := by
  cases x with
  | error e =>
    rintro _ ⟨⟩
    exact hf e
  | ok a => exact reported_ok a

theorem reported_mapM {f : α → Except Fault β} (h : ∀ a, Reported (f a)) (as : List α) :
    Reported (as.mapM f) := by
  induction as with
  | nil => exact reported_ok []
  | cons a as ih =>
    rw [List.mapM_cons]
    exact Reported.bind (h a) fun b => Reported.bind ih fun bs => reported_ok (b :: bs)

/-- A last step that succeeds does not matter. -/
theorem reported_bind_ok {x : Except Fault α} (f : α → β) :
    Reported (x >>= fun a => .ok (f a)) ↔ Reported x := by
  cases x with
  | ok a => exact iff_of_true (reported_ok _) (reported_ok a)
  | error fault => exact ⟨fun h _ he => h _ (by cases he; rfl), fun h _ he => h _ (by cases he; rfl)⟩

end Reported

namespace FileCoverage

/-! ### Contracts -/

theorem reported_ofText (code map : List Char) : Reported (Listing.ofText code map) := by
  have htexts : Reported (Listing.readTexts code map) := by
    refine Reported.bind (reported_mapError (fun _ => ⟨_, rfl⟩) (SourceMap.decode map)) fun ranges =>
      ?_
    refine Reported.bind (reported_mapError (fun _ => ⟨_, rfl⟩) (Bytecode.decode code)) fun bytes =>
      ?_
    exact reported_ok (ranges, bytes)
  unfold Listing.ofText
  cases h : Listing.readTexts code map with
  | ok texts => exact reported_ok _
  | error fault =>
    rintro _ ⟨⟩
    exact htexts fault h

theorem reported_listing (name : String) (output : Value) (part : CodePart) :
    Reported (CompilerOutput.listing name output part).result := by
  rw [result_listing]
  apply Reported.bind (reported_mapError (fun cause => ⟨cause, rfl⟩) _)
  exact fun texts => reported_ofText texts.1 texts.2

theorem reported_checkListing (s : Settings) (file : FileCoverage) (sourceId : Value)
    (contract : String) (l : Listing) :
    Reported (checkListing s file sourceId contract l).result := by
  have hentry : ∀ e, Reported (checkEntry s file sourceId contract file.lines.size e).result := by
    intro e
    unfold checkEntry
    split
    · dsimp only
      split
      · rintro _ ⟨⟩
        exact ⟨_, rfl⟩
      · exact reported_ok _
    · exact reported_ok e
  unfold checkListing
  split
  · exact reported_ok l
  · rw [Logged.result_bind, Logged.result_mapM]
    exact Reported.bind (reported_mapM hentry l.entries) fun entries => reported_ok _

/-- Whatever the output of a contract holds, a fault in it is reported. -/
theorem reported_readContract (s : Settings) (file : FileCoverage) (sourceId : Value)
    (contract : String × Value) : Reported (readContract s file sourceId contract).result := by
  unfold readContract
  simp only [Logged.result_bind]
  refine Reported.bind (reported_listing _ _ _) fun creation => ?_
  refine Reported.bind (reported_listing _ _ _) fun deployed => ?_
  refine Reported.bind (reported_checkListing _ _ _ _ _) fun fitCreation => ?_
  refine Reported.bind (reported_checkListing _ _ _ _ _) fun fitDeployed => ?_
  exact reported_ok _

/-! ### Syntax trees -/

/-- A fault met in a syntax tree becomes one of compiler output when it is reported. -/
theorem treeFault_compiler_iff (file : FileCoverage) (fault : Fault) :
    (∃ cause, file.treeFault fault = .compiler cause) ↔ fault.isReported = true := by
  cases fault with
  | compiler cause => exact iff_of_true ⟨cause, rfl⟩ rfl
  | position cause => exact iff_of_true ⟨_, rfl⟩ rfl
  | shape cause =>
    cases cause with
    | missingField name => exact iff_of_true ⟨_, rfl⟩ rfl
    | _ => exact iff_of_false (fun ⟨_, h⟩ => by cases h) Bool.false_ne_true
  | _ => exact iff_of_false (fun ⟨_, h⟩ => by cases h) Bool.false_ne_true

theorem reported_readTree (file : FileCoverage) (tree : Value) :
    Reported (readTree file tree).result ↔ ¬ Tree.Stops file.lines [(tree, none)] := by
  rw [← Tree.escapes_index, result_readTree]
  cases h : Tree.index file.lines tree with
  | ok table => exact iff_of_true (reported_ok table) (not_escapes_ok table)
  | error fault =>
    have hresult : Reported (.error (file.treeFault fault) : Except Fault RangeTable) ↔
        ∃ cause, file.treeFault fault = .compiler cause :=
      ⟨fun hr => hr _ rfl, fun hr _ he => by cases he; exact hr⟩
    refine hresult.trans ?_
    rw [treeFault_compiler_iff, escapes_error, Bool.not_eq_false]

/-- A tree is read where its table may take the place of the one before. -/
theorem reported_readResolver (file : FileCoverage) (tree : Value) :
    Reported (readResolver file (some tree)).result ↔
      ¬ (file.resolver.isReplaceable = true ∧ Tree.Stops file.lines [(tree, none)]) := by
  unfold readResolver
  cases file.resolver.isReplaceable with
  | false => exact iff_of_true (reported_ok none) fun h => by cases h.1
  | true =>
    simp only [result_some_readTree, reported_bind_ok, reported_readTree, true_and]

/-- What a file reads of an output with a syntax tree. -/
theorem result_ingested {s : Settings} {file : FileCoverage}
    {contracts source : List (String × Value)} {tree : Value}
    (htree : source.lookup "ast" = some tree) :
    (ingested s file (.object contracts) (.object source)).result =
      contracts.mapM (fun contract => (readContract s file (file.numberIn source) contract).result)
        >>= fun artifacts => (readResolver file (some tree)).result >>= fun table =>
          .ok (file.install (file.numberIn source) artifacts table) := by
  have hsource : CompilerOutput.sourceTree (.object source) = .ok (some tree) := by
    simp only [CompilerOutput.sourceTree, Value.contains_object, htree, Option.isSome_some, ok_bind,
      if_true, Value.field]
    rfl
  have hentry := CompilerOutput.entryOf_object source
  rw [ingested_of_entry _ _ _ hentry, numberWith_of_entry hentry, hsource]
  simp only [Logged.result_bind, Logged.result_mapM, contractList]
  rfl

/-- **Which outputs are reported.** Output with a syntax tree is taken in or refused for a fault of
compiler output, unless the range table may be replaced, every contract can be read, and then the
first node of the tree that cannot be visited is malformed in a way that is not reported. -/
theorem reported_iff {s : Settings} {file : FileCoverage}
    {contracts source : List (String × Value)} {tree : Value}
    (htree : source.lookup "ast" = some tree) :
    ((file.ingest s (.object contracts) (.object source)).result = .ok () ∨
      ∃ cause, (file.ingest s (.object contracts) (.object source)).result =
        .error (.compiler cause)) ↔
    ¬ (file.resolver.isReplaceable = true ∧
      (∀ contract ∈ contracts, ∃ found,
        (readContract s file (file.numberIn source) contract).result = .ok found) ∧
      Tree.Stops file.lines [(tree, none)]) := by
  have hingest : ((file.ingest s (.object contracts) (.object source)).result = .ok () ∨
      ∃ cause, (file.ingest s (.object contracts) (.object source)).result =
        .error (.compiler cause)) ↔
      Reported (ingested s file (.object contracts) (.object source)).result := by
    unfold ingest
    dsimp only
    cases (ingested s file (.object contracts) (.object source)).result with
    | ok file' => exact iff_of_true (.inl rfl) (reported_ok file')
    | error fault =>
      constructor
      · rintro (⟨⟨⟩⟩ | ⟨cause, ⟨⟩⟩)
        rintro _ ⟨⟩
        exact ⟨cause, rfl⟩
      · intro h
        obtain ⟨cause, rfl⟩ := h fault rfl
        exact .inr ⟨cause, rfl⟩
  have hcontracts : Reported (contracts.mapM fun contract =>
      (readContract s file (file.numberIn source) contract).result) :=
    reported_mapM (reported_readContract s file (file.numberIn source)) contracts
  rw [hingest, result_ingested htree, reported_bind_iff hcontracts]
  simp only [reported_bind_ok, reported_readResolver]
  rw [← exists_mapM_iff]
  constructor
  · rintro h ⟨hreplaceable, ⟨artifacts, hread⟩, hstops⟩
    exact h artifacts hread ⟨hreplaceable, hstops⟩
  · intro h artifacts hread hboth
    exact h ⟨hboth.1, ⟨artifacts, hread⟩, hboth.2⟩

/-- A branch of which the first arm is missing. -/
def bareBranch : Value :=
  .object [("nodeType", .text "IfStatement"), ("id", .int 1), ("src", .text "0:2:0")]

/-- A branch of which the source range is missing. -/
def rangelessBranch : Value := .object [("nodeType", .text "IfStatement"), ("id", .int 1)]

/-- A missing source range is reported. -/
theorem reported_iff_rangeless :
    [("ast", rangelessBranch)].lookup "ast" = some rangelessBranch ∧
      ((new "a.sol" "a.sol" "a;\n").ingest {} (.object []) (.object [("ast", rangelessBranch)])).fault?
        = some (.compiler (.tree "a.sol" (.missingField "src"))) ∧
      ¬ Tree.Stops (new "a.sol" "a.sol" "a;\n").lines [(rangelessBranch, none)] := by
  have hfault : ((new "a.sol" "a.sol" "a;\n").ingest {} (.object [])
      (.object [("ast", rangelessBranch)])).fault? =
        some (.compiler (.tree "a.sol" (.missingField "src"))) := by decide +kernel
  have hreported := @reported_iff {} (new "a.sol" "a.sol" "a;\n") []
    [("ast", rangelessBranch)] rangelessBranch rfl
  refine ⟨rfl, hfault, fun hstops => ?_⟩
  exact hreported.1 (.inr ⟨_, Outcome.fault?_eq_some.1 hfault⟩)
    ⟨rfl, fun _ h => absurd h List.not_mem_nil, hstops⟩

end FileCoverage

namespace Project

/-- Two files without output. -/
def twoFiles : Project where
  files := (KeyedList.empty.insert "a.sol" (.new "a.sol" "a.sol" "a;\n")).insert "b.sol"
    (.new "b.sol" "b.sol" "b;\n")

/-- Output with a syntax tree of the first file, and without contracts for both files. -/
def outputWithTree (tree : Value) : Value :=
  .object
    [("contracts", .object [("a.sol", .object []), ("b.sol", .object [])]),
      ("sources", .object [("a.sol", .object [("ast", tree)])])]

/-- A branch without arms ends the ingestion of its file with a fault that is none of compiler
output. The project ends with it too, and the second file is left without its output. With a branch
that has no source range instead, the first file is reported and the second has its output. -/
theorem not_reported_branch :
    ((FileCoverage.new "a.sol" "a.sol" "a;\n").ingest {} (.object [])
        (.object [("ast", FileCoverage.bareBranch)])).fault? = some (.shape .noFields) ∧
      (twoFiles.ingest {} (outputWithTree FileCoverage.bareBranch)).fault? =
        some (.shape .noFields) ∧
      ((twoFiles.ingest {} (outputWithTree FileCoverage.bareBranch)).state.files.get? "b.sol").map
        (·.isIngested) = some false ∧
      (twoFiles.ingest {} (outputWithTree FileCoverage.rangelessBranch)).fault? =
        some (.unusable [("a.sol", .tree "a.sol" (.missingField "src"))]) ∧
      ((twoFiles.ingest {} (outputWithTree FileCoverage.rangelessBranch)).state.files.get?
        "b.sol").map (·.isIngested) = some true := by
  refine ⟨?_, ?_, ?_, ?_, ?_⟩ <;> decide +kernel

end Project

end ContractCoverage
