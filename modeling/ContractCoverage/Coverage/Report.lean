import ContractCoverage.Coverage.Fragment

/-! Reports: a fragment with everything in the order of its keys.

Identifiers that have no common order, such as a number and a text, cannot be
reported together, and every identifier has to be one that can be written. -/
namespace ContractCoverage

/-- The counters of a fragment in order. -/
structure Counters where
  statements : List (Ident × Int)
  branches : List (Ident × List Int)
  functions : List (Ident × Int)
  lines : List (Ident × Int)

/-- A fragment in order. -/
structure Report where
  path : Option String
  counters : Counters
  statementMap : List (Ident × Span)
  functionMap : List (Ident × FunctionInfo)
  branchMap : List (Ident × BranchInfo)

namespace Fragment

/-- Entries in the order of their keys, provided that these can be written. -/
def inOrder {α : Type} (m : KeyedList Ident α) : Except ShapeFault (List (Ident × α)) := do
  let entries ← Ident.sort m.entries
  let _ ← entries.mapM fun e => e.1.value.displayed
  return entries

/-- The counters of a fragment in the order of their keys. -/
def counters (f : Fragment) : Except ShapeFault Counters := do
  let statements ← inOrder f.statements
  let branches ← inOrder f.branches
  let functions ← inOrder f.functions
  let lines ← inOrder f.lines
  return { statements, branches, functions, lines }

/-- A fragment in the order of its keys. -/
def report (f : Fragment) : Except ShapeFault Report := do
  let counters ← f.counters
  let statementMap ← inOrder f.statementMap
  let functionMap ← inOrder f.functionMap
  let branchMap ← inOrder f.branchMap
  return { path := f.path, counters, statementMap, functionMap, branchMap }

end Fragment

end ContractCoverage
