import ContractCoverage.CompilerOutput
import ContractCoverage.File.Basic
import ContractCoverage.Tree.Index

/-! Taking in compiler output.

`ingested` reads the output of one file and gives the file with its new listings. All
that can fail happens while reading, so a file is replaced as a whole or not at all
(`ingest`). Contracts that the output does not name keep their listings, and hits
collected so far are kept. -/
namespace ContractCoverage.FileCoverage

/-- Checks the range of an instruction. One that lies beyond the end of the file is a fault under
strict settings and otherwise dropped. -/
def checkEntry (s : Settings) (file : FileCoverage) (sourceId : Value) (contract : String)
    (size : Nat) (e : Entry) : Logged Entry :=
  if e.range.isOwn sourceId && e.range.stop?.any (fun stop => (size : Int) < stop) then
    let fault := CompilerFault.outOfFile e.range contract file.name size
    if s.strictRanges then .fail (.compiler fault)
    else do
      .write .warning fault.message
      return { e with range := .empty }
  else return e

/-- Checks the ranges of a listing, when it is known which ones lie in the file. -/
def checkListing (s : Settings) (file : FileCoverage) (sourceId : Value) (contract : String)
    (l : Listing) : Logged Listing :=
  if sourceId.isNull then return l
  else do
    let entries ← l.entries.mapM (checkEntry s file sourceId contract file.lines.size)
    return { l with entries }

/-- Reads the two listings of a contract. -/
def readContract (s : Settings) (file : FileCoverage) (sourceId : Value)
    (contract : String × Value) : Logged (String × Artifact) := do
  let (name, output) := contract
  let creation ← CompilerOutput.listing name output .creation
  let deployed ← CompilerOutput.listing name output .deployed
  let creation ← checkListing s file sourceId name creation
  let deployed ← checkListing s file sourceId name deployed
  .write .debug
    s!"Disassembled {name}: {creation.size} creation and {deployed.size} runtime instructions"
  return (name, ⟨creation, deployed⟩)

/-- A fault of a syntax tree as a fault of the compiler output, where it is one. -/
def treeFault (file : FileCoverage) : Fault → Fault
  | .position fault => .compiler (.tree file.name (.position fault))
  | .shape (.missingField field) => .compiler (.tree file.name (.missingField field))
  | fault => fault

/-- Derives the range table of a file from its syntax tree. -/
def readTree (file : FileCoverage) (tree : Value) : Logged RangeTable := do
  let table ← ((Tree.index file.lines tree).mapError file.treeFault : Except Fault _)
  .write .debug (s!"Indexed {table.statements.size} statements, {table.branches.size} branches " ++
    s!"and {table.functions.size} functions")
  return table

/-- The range table that compiler output brings, unless one has been given. -/
def readResolver (file : FileCoverage) (tree : Option Value) : Logged (Option RangeTable) :=
  match tree, file.resolver.isReplaceable with
  | some tree, true => some <$> readTree file tree
  | _, _ => return none

/-- The contracts in the output of a file. -/
def contractList : Value → Except ShapeFault (List (String × Value))
  | .object contracts => .ok contracts
  | _ => .error .noFields

/-- A file with what has been read. -/
def install (file : FileCoverage) (sourceId : Value) (artifacts : List (String × Artifact))
    (table : Option RangeTable) : FileCoverage :=
  let tables := artifacts.foldl (fun t (name, a) => t.insert name a) (file.tables.getD .empty)
  let file := { file with sourceId, tables := some tables }
  match table with
  | none => file
  | some table =>
    { file with
      resolver := .derived table
      coverage := file.coverage.merge (table.initial (some file.path)) }

/-- A file after compiler output: its contracts, and its source entry unless that says nothing. -/
def ingested (s : Settings) (file : FileCoverage) (contracts source : Value) :
    Logged FileCoverage := do
  let source := if source.isVoid then .object [] else source
  let id ← (CompilerOutput.sourceId source : Except Fault _)
  let sourceId := if id.isNull then file.sourceId else id
  let contracts ← (contractList contracts : Except Fault _)
  let artifacts ← contracts.mapM (readContract s file sourceId)
  let tree ← (CompilerOutput.sourceTree source : Except Fault _)
  let table ← readResolver file tree
  return file.install sourceId artifacts table

/-- Takes in compiler output; a file whose output cannot be read stays as it is. -/
def ingest (s : Settings) (file : FileCoverage) (contracts source : Value) :
    Outcome FileCoverage Unit :=
  let reading := ingested s file contracts source
  match reading.result with
  | .ok file' => ⟨file', reading.events, .ok ()⟩
  | .error fault => ⟨file, reading.events, .error fault⟩

end ContractCoverage.FileCoverage
