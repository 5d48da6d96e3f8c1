import ContractCoverage.Proofs.Coverage.Growth
import ContractCoverage.Proofs.File.History

/-! Commands: compiler output, traces and range tables, in any order.

A caller may also give a file a range table at any time. Then the table that hits are
resolved with changes, and the new table may use identifiers of the old one for other
things, with other arms and at other places. `perform_effect` says what a command can do
to the table and the total, whether it is refused or not: nothing, or it adds the hits of
a trace, or a table comes in and is listed without hits. In no case does a counter go
back, whatever tables have come and gone (`performAll_grows`). -/
namespace ContractCoverage

/-- What a caller can do to a file: an action, with settings of its own, or giving it a range
table. -/
inductive Command where
  | act (a : Action)
  | setResolver (table : RangeTable)

namespace FileCoverage

/-- A file after a command, which may also have been refused. -/
def perform (file : FileCoverage) : Command → FileCoverage
  | .act a => file.act a
  | .setResolver table => file.setResolver table

/-- A file after commands, one after the other. -/
def performAll (file : FileCoverage) (commands : List Command) : FileCoverage :=
  commands.foldl perform file

/-- The output for a contract A without creation code, whose one instruction has the given entry for
its range. -/
def oneContract (entry : String) : Value :=
  .object [("A", .object [("evm", .object
    [("bytecode", .object [("object", .text "")]),
      ("deployedBytecode", .object [("object", .text "00"), ("sourceMap", .text entry)])])])]

/-! ### Tables that come in -/

/-- The table that a command brings, unless the command is refused. -/
def brings? (file : FileCoverage) : Command → Option RangeTable
  | .act (.ingest s contracts source) =>
    match (file.ingest s contracts source).result with
    | .ok () => file.treeTable? source
    | .error _ => none
  | .act (.record ..) => none
  | .setResolver table => some table

/-- The tables that commands bring, in the order in which they come in. -/
def brought (file : FileCoverage) : List Command → List RangeTable
  | [] => []
  | c :: commands => (file.brings? c).toList ++ (file.perform c).brought commands

/-! ### What a command does -/

/-- What a command can do to the table and the total of a file, with the table that it brings. -/
inductive Effect (file : FileCoverage) : Option RangeTable → Resolver → Fragment → Prop
  | kept : Effect file none file.resolver file.coverage
  | recorded {s : Settings} {trace : Value} {added : Fragment}
      (h : Fragment.hitAll { path := some file.path } (file.credits s trace) = .ok added) :
    Effect file none file.resolver (file.coverage.merge added)
  | listed {table : RangeTable} {resolver : Resolver} (h : resolver.table? = some table) :
    Effect file (some table) resolver (file.coverage.merge (table.initial (some file.path)))

theorem perform_effect (file : FileCoverage) (c : Command) :
    Effect file (file.brings? c) (file.perform c).resolver (file.perform c).coverage := by
  cases c with
  | setResolver table => exact .listed rfl
  | act a =>
    cases a with
    | record s trace =>
      have hresolver : (file.record s trace).state.resolver = file.resolver := by rw [record_state]
      show Effect file none (file.record s trace).state.resolver
        (file.record s trace).state.coverage
      rw [hresolver]
      cases h : (file.record s trace).result with
      | error fault =>
        rw [coverage_of_refused h]
        exact .kept
      | ok answer =>
        obtain ⟨added, hadded, htotal⟩ := coverage_of_record h
        rw [htotal]
        exact .recorded hadded
    | ingest s contracts source =>
      simp only [perform, act, brings?, ingest]
      cases h : (ingested s file contracts source).result with
      | error fault => exact .kept
      | ok file' =>
        -- Only a table changes the total; listings and the number of the file do not.
        obtain ⟨_, artifacts, -, -, -, -, rfl⟩ := ingested_eq_ok_iff.1 h
        cases file.treeTable? source with
        | none => exact .kept
        | some table => exact .listed rfl

/-- A command changes neither the path nor the text of a file. -/
theorem perform_fixed (file : FileCoverage) (c : Command) :
    (file.perform c).path = file.path ∧ (file.perform c).text = file.text := by
  cases c with
  | setResolver table => exact ⟨rfl, rfl⟩
  | act a =>
    cases a with
    | record s trace =>
      rw [perform, act, record_state]
      exact ⟨rfl, rfl⟩
    | ingest s contracts source =>
      simp only [perform, act]
      rcases ingest_cases s file contracts source with hsame | ⟨id, artifacts, table, hnew, -⟩
      · rw [hsame]
        exact ⟨rfl, rfl⟩
      · rw [hnew]
        cases table <;> exact ⟨rfl, rfl⟩

/-- What every command keeps, of a file together with the tables that have come in, is kept by all
of them. -/
theorem performAll_keeps {P : FileCoverage → List RangeTable → Prop} {file : FileCoverage}
    {tables : List RangeTable} {commands : List Command} (h : P file tables)
    (hstep : ∀ c ∈ commands, ∀ (file : FileCoverage) tables, P file tables →
      P (file.perform c) (tables ++ (file.brings? c).toList)) :
    P (file.performAll commands) (tables ++ file.brought commands) := by
  induction commands generalizing file tables with
  | nil => rwa [brought, List.append_nil]
  | cons c commands ih =>
    obtain ⟨hfirst, hrest⟩ := List.forall_mem_cons.1 hstep
    rw [brought, ← List.append_assoc]
    exact ih (hfirst file tables h) hrest

/-! ### Counters never go back -/

/-- A trace is credited with no negative number of visits. -/
theorem nonNegative_credits (s : Settings) (file : FileCoverage) (trace : Value) :
    ∀ credit ∈ file.credits s trace, 0 ≤ credit.2 := by
  intro credit hc
  obtain ⟨⟨target, visits⟩, -, rfl⟩ := List.mem_map.1 hc
  exact Int.natCast_nonneg visits

/-- What a command adds to a total is not negative. -/
theorem Effect.exists_added {file : FileCoverage} {brought : Option RangeTable}
    {resolver : Resolver} {total : Fragment} (h : Effect file brought resolver total) :
    total = file.coverage ∨ ∃ added : Fragment, added.NonNegative ∧
      total = file.coverage.merge added := by
  cases h with
  | kept => exact .inl rfl
  | recorded hadded =>
    exact .inr ⟨_, Fragment.nonNegative_hitAll (Fragment.nonNegative_unlisted _)
      (nonNegative_credits _ _ _) hadded, rfl⟩
  | listed => exact .inr ⟨_, Fragment.nonNegative_initial _ _, rfl⟩

/-- A command lets counters grow and makes none negative. -/
theorem perform_grows (file : FileCoverage) (c : Command) :
    file.coverage.GrowsTo (file.perform c).coverage ∧
      (file.coverage.NonNegative → (file.perform c).coverage.NonNegative) := by
  rcases (perform_effect file c).exists_added with hsame | ⟨added, hadded, htotal⟩
  · rw [hsame]
    exact ⟨.refl _, id⟩
  · rw [htotal]
    exact ⟨Fragment.growsTo_merge _ hadded, fun h => h.merge hadded⟩

theorem growsTo_performAll (file : FileCoverage) (commands : List Command) :
    file.coverage.GrowsTo (file.performAll commands).coverage :=
  @performAll_keeps (fun later _ => file.coverage.GrowsTo later.coverage) file [] commands
    (.refl _) fun c _ later _ hlater => hlater.trans (perform_grows later c).1

theorem nonNegative_performAll {file : FileCoverage} (h : file.coverage.NonNegative)
    (commands : List Command) : (file.performAll commands).coverage.NonNegative :=
  @performAll_keeps (fun later _ => later.coverage.NonNegative) file [] commands h
    fun c _ later _ hlater => (perform_grows later c).2 hlater

theorem nonNegative_new (name path text : String) (given : Option RangeTable) :
    (new name path text given).coverage.NonNegative := by
  cases given with
  | none => exact Fragment.nonNegative_unlisted _
  | some table => exact (Fragment.nonNegative_unlisted _).merge (Fragment.nonNegative_initial _ _)

/-- **Counters never go back.** Whatever has been done to a file, no counter is negative, and
whatever is done to it later, refused or not and with whatever tables, every counter that is there
remains and no count goes back, and neither does the number of arms of a branch. -/
theorem performAll_grows (name path text : String) (given : Option RangeTable)
    (commands later : List Command) :
    ((new name path text given).performAll commands).coverage.NonNegative ∧
      ((new name path text given).performAll commands).coverage.GrowsTo
        ((new name path text given).performAll (commands ++ later)).coverage := by
  refine ⟨nonNegative_performAll (nonNegative_new _ _ _ _) commands, ?_⟩
  have hrun : (new name path text given).performAll (commands ++ later) =
      ((new name path text given).performAll commands).performAll later := List.foldl_append
  rw [hrun]
  exact growsTo_performAll _ later

end FileCoverage

end ContractCoverage
