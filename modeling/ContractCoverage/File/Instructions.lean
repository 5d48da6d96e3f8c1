import ContractCoverage.File.Basic
import ContractCoverage.Journal
import ContractCoverage.Text.Percent

/-! Instruction coverage: how much of each code has been executed. -/
namespace ContractCoverage

/-- How many instructions of a code have been executed. -/
structure CodeCoverage where
  hash : String
  covered : Nat
  total : Nat
  deriving DecidableEq, Repr

namespace Table

/-- The instruction coverage of a listing. -/
def coverage (t : Table) : CodeCoverage :=
  ⟨t.listing.hash, t.listing.seenCount, t.listing.size⟩

/-- What is reported of the instruction coverage of a listing. -/
def coverageEvent (t : Table) : Event :=
  let percent := Text.Percent.write t.listing.seenCount t.listing.size
  ⟨.info, s!"Achieved {percent}% instruction coverage for {t.part.name} code of {t.contract}"⟩

end Table

namespace FileCoverage

/-- The instruction coverage of the codes of each contract, in the order of the listings. -/
abbrev InstructionCoverage := KeyedList String (List (CodePart × CodeCoverage))

/-- Adds the instruction coverage of a listing. -/
def addCoverage (found : InstructionCoverage) (t : Table) : InstructionCoverage :=
  found.update t.contract fun parts => parts.getD [] ++ [(t.part, t.coverage)]

/-- The instruction coverage of all codes that are not empty. -/
def instructionCoverage (file : FileCoverage) : Logged InstructionCoverage :=
  match file.tables with
  | none => .fail .notIngested
  | some tables =>
    { events := tables.nonempty.map Table.coverageEvent
      result := .ok (tables.nonempty.foldl addCoverage .empty) }

end FileCoverage

end ContractCoverage
