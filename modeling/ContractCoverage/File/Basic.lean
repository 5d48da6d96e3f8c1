import ContractCoverage.Coverage.RangeTable
import ContractCoverage.File.Tables
import ContractCoverage.Source.LineTable

/-! The coverage of one file.

A file has a text, the listings that the compiler made of it, a range table that says
what its ranges count for, and the running total of hits. The range table is given by
the caller or derived from the compiler's syntax tree; one that was given stays. -/
namespace ContractCoverage

/-- The range table of a file, and where it comes from. -/
inductive Resolver where
  | absent
  | given (table : RangeTable)
  | derived (table : RangeTable)

namespace Resolver

/-- The range table that is there. -/
def table? : Resolver → Option RangeTable
  | .absent => none
  | .given table | .derived table => some table

/-- Whether a table derived from a syntax tree may take its place. -/
def isReplaceable : Resolver → Bool
  | .given _ => false
  | .absent | .derived _ => true

end Resolver

/-- Coverage of one file. -/
structure FileCoverage where
  name : String
  path : String
  text : String
  sourceId : Value := .null
  tables : Option Tables := none
  resolver : Resolver := .absent
  coverage : Fragment := {}

/-- Whether a complete range lies in the file of that number; an unknown number is any file. -/
def Range.isOwn (sourceId : Value) (r : Range) : Bool :=
  r.isComplete && (sourceId.isNull || Value.same ((r.fileId.map .int).getD .null) sourceId)

namespace FileCoverage

/-- The lines of the text. -/
def lines (file : FileCoverage) : LineTable := .ofText file.text

/-- Gives a file the range table that its hits are resolved with from now on. -/
def setResolver (file : FileCoverage) (table : RangeTable) : FileCoverage :=
  { file with
    resolver := .given table
    coverage := file.coverage.merge (table.initial (some file.path)) }

/-- A file without compiler output, perhaps with a range table. -/
def new (name path text : String) (table : Option RangeTable := none) : FileCoverage :=
  let file : FileCoverage := { name, path, text, coverage := { path := some path } }
  match table with
  | none => file
  | some table => file.setResolver table

/-- Whether there has been compiler output. -/
def isIngested (file : FileCoverage) : Bool := file.tables.isSome

/-- Whether there has been compiler output, and no code in it. -/
def isInterface (file : FileCoverage) : Bool :=
  match file.tables with
  | none => false
  | some tables => tables.inOrder.all (·.listing.isEmpty)

/-- The place of an entry that stands by itself. -/
def locate (file : FileCoverage) (entry : List Char) : Except Fault Span := do
  let range ← Range.parse entry
  file.lines.resolveRange range

/-- A listing of a contract. -/
def listing (file : FileCoverage) (part : CodePart) (contract : String) :
    Except ShapeFault Listing :=
  match file.tables with
  | none => .error .wrongKind
  | some tables =>
    match tables.get? contract with
    | some artifact => .ok (artifact.part part)
    | none => .error (.missingField contract)

end FileCoverage

end ContractCoverage
