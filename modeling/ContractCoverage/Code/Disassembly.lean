import ContractCoverage.Code.Listing
import ContractCoverage.Journal
import ContractCoverage.Source.SourceMap

/-! Disassembly: from the texts of a code and its source map to a listing.

The source map is read before the code, so of two faults that of the map is reported.
Entries of the map beyond the last instruction are left out, with a line in the
journal. -/
namespace ContractCoverage.Listing

/-- The ranges and the bytes that the texts of a source map and of a code stand for. -/
def readTexts (code map : List Char) : Except Fault (List Range × List UInt8) := do
  let ranges ← SourceMap.decode map
  let bytes ← Bytecode.decode code
  return (ranges, bytes)

/-- The listing of a code and its source map, both read from text. -/
def ofText (code map : List Char) : Except Fault Listing :=
  (readTexts code map).map fun (ranges, bytes) => .ofBytes code bytes ranges

/-- Reports a source map that has more entries than the code has instructions. -/
def reportSurplus (entries : Nat) (l : Listing) : Logged Unit :=
  if l.size < entries then
    .write .debug s!"Source map has {entries} entries for {l.size} instructions"
  else pure ()

/-- Reads a listing and reports a surplus of the source map. -/
def disassemble (code map : List Char) : Logged Listing := do
  let (ranges, bytes) ← readTexts code map
  let l := ofBytes code bytes ranges
  reportSurplus ranges.length l
  return l

@[simp] theorem result_reportSurplus (entries : Nat) (l : Listing) :
    (reportSurplus entries l).result = .ok () := by
  unfold reportSurplus
  split <;> rfl

theorem result_disassemble (code map : List Char) :
    (disassemble code map).result = ofText code map := by
  unfold disassemble ofText
  rw [Logged.result_bind]
  show readTexts code map >>= _ = _
  cases readTexts code map with
  | error fault => rfl
  | ok texts =>
    show (reportSurplus _ _ >>= fun _ => pure _).result = _
    rw [Logged.result_bind, result_reportSurplus]
    rfl

end ContractCoverage.Listing
