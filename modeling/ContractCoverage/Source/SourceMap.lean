import ContractCoverage.Source.Entry

/-! Source maps: one range per instruction, each written relative to the one before.

A source map is a text of entries with semicolons between them, read from left to
right from the range `Range.origin`. The empty text holds no entry. -/
namespace ContractCoverage.SourceMap

/-- The ranges of a list of entries, the first of which follows `previous`. -/
def decodeEntries (previous : Range) : List (List Char) → Except EntryFault (List Range)
  | [] => .ok []
  | entry :: entries => do
    let range ← Range.decode entry previous
    let ranges ← decodeEntries range entries
    return range :: ranges

/-- The ranges of a source map. -/
def decode (map : List Char) : Except EntryFault (List Range) :=
  if map.isEmpty then .ok [] else decodeEntries .origin (Text.split ';' map)

end ContractCoverage.SourceMap
