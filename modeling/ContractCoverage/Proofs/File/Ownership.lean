import ContractCoverage.Proofs.File.Commands

/-! Whose range table a file uses.

A table that a caller has given is never replaced by compiler output: as long as it is
there syntax trees are not even looked at, so an output comes out as it would without its
tree (`ingest_withoutTree`) and leaves table and total alone. Where no table has been
given, each accepted output that has a tree replaces the table. One command tells what it
makes of both (`comesFrom_perform`), and a run of any commands follows (`performAll_owner`). -/
namespace ContractCoverage

/-- The table that has been given last by commands, the one before them counting too. -/
def lastGiven (before : Option RangeTable) : List Command → Option RangeTable
  | [] => before
  | .setResolver table :: commands => lastGiven (some table) commands
  | .act _ :: commands => lastGiven before commands

/-- The fields of a source entry, without its syntax tree. -/
def withoutTree (fields : List (String × Value)) : List (String × Value) :=
  fields.filter fun e => e.1 ≠ "ast" ∧ e.1 ≠ "legacyAST"

/-- A range table is the given one or, where none is, the one of a syntax tree. -/
def Resolver.ComesFrom (lines : LineTable) : Option RangeTable → Option Value → Resolver → Prop
  | some table, _, resolver => resolver = .given table
  | none, some tree, resolver => ∃ table, Tree.index lines tree = .ok table ∧
      resolver = .derived table
  | none, none, resolver => resolver = .absent

theorem lookup_withoutTree {name : String} (hname : name ≠ "ast" ∧ name ≠ "legacyAST")
    (fields : List (String × Value)) : (withoutTree fields).lookup name = fields.lookup name := by
  unfold withoutTree
  induction fields with
  | nil => rfl
  | cons e fields ih =>
    rw [List.filter_cons, List.lookup_cons]
    by_cases he : name = e.1
    · rw [if_pos (by simpa [← he] using hname), List.lookup_cons, he]
      simp
    · rw [beq_false_of_ne he]
      split
      · rw [List.lookup_cons, beq_false_of_ne he]
        exact ih
      · exact ih

namespace FileCoverage
open CompilerOutput

/-- The syntax tree in output that a file accepts. -/
def acceptedTree? (file : FileCoverage) : Command → Option Value
  | .act (.ingest s contracts source) =>
    match (file.ingest s contracts source).result, treeOf source with
    | .ok (), .ok tree => tree
    | _, _ => none
  | .act (.record ..) => none
  | .setResolver _ => none

/-- The last syntax tree in output that a file has accepted, the one before the commands counting
too. -/
def lastTree (file : FileCoverage) (before : Option Value) : List Command → Option Value
  | [] => before
  | c :: commands => (file.perform c).lastTree ((file.acceptedTree? c).or before) commands

/-! ### Output for a file with a given table -/

section Given
variable {file : FileCoverage} (hgiven : file.resolver.isReplaceable = false)
include hgiven

theorem treeTable_of_given (source : Value) : file.treeTable? source = none := by
  cases h : file.treeTable? source with
  | none => rfl
  | some table =>
    obtain ⟨_, -, hreplaceable, -⟩ := index_of_treeTable h
    cases hgiven.symm.trans hreplaceable

/-- Where a table has been given, output leaves it alone, and the total too. -/
theorem ingest_given (s : Settings) (contracts source : Value) :
    (file.ingest s contracts source).state.resolver = file.resolver ∧
      (file.ingest s contracts source).state.coverage = file.coverage := by
  cases h : (ingested s file contracts source).result with
  | error fault => simp only [ingest, h, and_self]
  | ok file' =>
    obtain ⟨-, artifacts, -, -, -, -, rfl⟩ := ingested_eq_ok_iff.1 h
    simp only [ingest, h, treeTable_of_given hgiven]
    exact ⟨rfl, rfl⟩

/-- What is read of output then: only its contracts. -/
theorem ingested_given (s : Settings) (contracts : Value) (fields : List (String × Value)) :
    ingested s file contracts (.object fields) = (do
      let outputs ← (contractList contracts : Except Fault _)
      let artifacts ← outputs.mapM (readContract s file (file.numberIn fields))
      return file.install (file.numberIn fields) artifacts none) := by
  have hread : ∀ tree, readResolver file tree = pure none := by
    intro tree
    unfold readResolver
    rw [hgiven]
    cases tree <;> rfl
  obtain ⟨tree, htree⟩ := exists_sourceTree fields
  rw [ingested_of_entry s file contracts (entryOf_object fields),
    numberWith_of_entry (entryOf_object fields), htree]
  simp only [hread]
  rfl

/-- Where a table has been given, a syntax tree makes no difference, whether it can be indexed or
not. -/
theorem ingest_withoutTree (s : Settings) (contracts : Value) (fields : List (String × Value)) :
    file.ingest s contracts (.object fields) =
      file.ingest s contracts (.object (withoutTree fields)) := by
  have hnumber : file.numberIn (withoutTree fields) = file.numberIn fields := by
    rw [numberIn, numberIn, lookup_withoutTree (by decide)]
  unfold ingest
  rw [ingested_given hgiven, ingested_given hgiven, hnumber]

end Given

/-! ### One command and many -/

/-- Output replaces the table by the one of its syntax tree, if it is accepted, has one and no table
has been given. -/
theorem comesFrom_ingest {file : FileCoverage} {given : Option RangeTable} {tree : Option Value}
    (h : file.resolver.ComesFrom file.lines given tree) (s : Settings) (contracts source : Value) :
    (file.ingest s contracts source).state.resolver.ComesFrom file.lines given
      ((file.acceptedTree? (.act (.ingest s contracts source))).or tree) := by
  cases hread : (ingested s file contracts source).result with
  | error fault =>
    simp only [acceptedTree?, ingest, hread, Option.none_or]
    exact h
  | ok file' =>
    obtain ⟨_, artifacts, -, -, ⟨fields, hentry⟩, hindex, rfl⟩ := ingested_eq_ok_iff.1 hread
    obtain ⟨found, htree⟩ : ∃ found, treeOf source = .ok found := by
      rw [treeOf, ← entryOf, hentry]
      exact exists_sourceTree fields
    simp only [acceptedTree?, ingest, hread, htree]
    cases given with
    | some table =>
      have hgiven : file.resolver.isReplaceable = false := by
        rw [show file.resolver = .given table from h]
        rfl
      rw [treeTable_of_given hgiven]
      exact h
    | none =>
      have hreplaceable : file.resolver.isReplaceable = true := by
        cases tree with
        | none => rw [show file.resolver = .absent from h]; rfl
        | some before =>
          obtain ⟨table, -, hresolver⟩ := h
          rw [hresolver]
          rfl
      unfold treeTable?
      rw [htree, hreplaceable]
      cases found with
      | none => exact h
      | some new =>
        obtain ⟨table, htable⟩ := hindex new htree hreplaceable
        simp only [htable]
        exact ⟨table, htable, rfl⟩

theorem comesFrom_perform {file : FileCoverage} {given : Option RangeTable} {tree : Option Value}
    (h : file.resolver.ComesFrom file.lines given tree) (c : Command) :
    (file.perform c).resolver.ComesFrom file.lines (lastGiven given [c])
      ((file.acceptedTree? c).or tree) := by
  cases c with
  | setResolver table => exact rfl
  | act a =>
    cases a with
    | ingest s contracts source => exact comesFrom_ingest h s contracts source
    | record s trace =>
      have hresolver : (file.record s trace).state.resolver = file.resolver := by rw [record_state]
      show (file.record s trace).state.resolver.ComesFrom file.lines given tree
      rw [hresolver]
      exact h

theorem lastGiven_cons (given : Option RangeTable) (c : Command) (commands : List Command) :
    lastGiven given (c :: commands) = lastGiven (lastGiven given [c]) commands := by
  cases c <;> rfl

theorem comesFrom_performAll {file : FileCoverage} {given : Option RangeTable}
    {tree : Option Value} (h : file.resolver.ComesFrom file.lines given tree)
    (commands : List Command) :
    (file.performAll commands).resolver.ComesFrom file.lines (lastGiven given commands)
      (file.lastTree tree commands) := by
  induction commands generalizing file given tree with
  | nil => exact h
  | cons c commands ih =>
    have hlines : (file.perform c).lines = file.lines :=
      congrArg LineTable.ofText (perform_fixed file c).2
    have hstep := comesFrom_perform h c
    rw [lastGiven_cons, ← hlines]
    rw [← hlines] at hstep
    exact ih hstep

/-- Output has no say in the table of a file: it changes neither the table nor the total, and comes
out as it does without its syntax tree. -/
structure TableFixed (file : FileCoverage) : Prop where
  kept : ∀ s contracts source,
    (file.ingest s contracts source).state.resolver = file.resolver ∧
      (file.ingest s contracts source).state.coverage = file.coverage
  treeless : ∀ s contracts fields, file.ingest s contracts (.object fields) =
    file.ingest s contracts (.object (withoutTree fields))

/-- A file uses the given table, and output has no say in it. Where none has been given, it uses the
one of a syntax tree of a text with these lines, or none. -/
def Owns (file : FileCoverage) (lines : LineTable) (given : Option RangeTable)
    (tree : Option Value) : Prop :=
  file.resolver.ComesFrom lines given tree ∧ (given.isSome = true → file.TableFixed)

/-- **A given table stays.** Whatever has been done to a file, it uses the table that it has been
given last, at its start or by a command, and no output that comes then replaces the table, changes
the total or fails for its syntax tree. If it has been given none, it uses the table of the syntax
tree in the last output that it accepted with one, and no table before there has been such an
output. -/
theorem performAll_owns (name path text : String) (given : Option RangeTable)
    (commands : List Command) :
    ((new name path text given).performAll commands).Owns (.ofText text)
      (lastGiven given commands) ((new name path text given).lastTree none commands) := by
  have hlines : (new name path text given).lines = .ofText text := by cases given <;> rfl
  have hnew : (new name path text given).resolver.ComesFrom (new name path text given).lines
      given none := by
    cases given <;> exact rfl
  have hrun := comesFrom_performAll hnew commands
  rw [hlines] at hrun
  refine ⟨hrun, fun hsome => ?_⟩
  obtain ⟨table, htable⟩ := Option.isSome_iff_exists.1 hsome
  rw [htable] at hrun
  have hgiven :
      ((new name path text given).performAll commands).resolver.isReplaceable = false := by
    rw [show _ = Resolver.given table from hrun]
    rfl
  exact ⟨ingest_given hgiven, ingest_withoutTree hgiven⟩

end FileCoverage

end ContractCoverage
