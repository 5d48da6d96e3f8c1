/-! Locations: lines and columns.

Lines count from one, columns from zero. A span goes from one location to another
and touches every line from the first to the last. -/
namespace ContractCoverage

/-- A place in a text. -/
structure Location where
  line : Int
  column : Int
  deriving DecidableEq, Repr

/-- The text of a location. -/
def Location.write (l : Location) : String :=
  s!"<Location {l.line}:{l.column}>"

/-- The integers in the text of a location. -/
def Location.numerals (l : Location) : List Int := [l.line, l.column]

/-- From one place in a text to another. -/
structure Span where
  start : Location
  stop : Location
  deriving DecidableEq, Repr

namespace Span

/-- The lines that a span touches, in increasing order. -/
def lines (s : Span) : List Int :=
  (List.range (s.stop.line + 1 - s.start.line).toNat).map fun (k : Nat) => s.start.line + k

/-- The text of a span. -/
def write (s : Span) : String :=
  s!"<LocationRange {s.start.write} - {s.stop.write}>"

/-- The integers in the text of a span. -/
def numerals (s : Span) : List Int := s.start.numerals ++ s.stop.numerals

theorem mem_lines {s : Span} {n : Int} :
    n ∈ s.lines ↔ s.start.line ≤ n ∧ n ≤ s.stop.line := by
  simp only [lines, List.mem_map, List.mem_range]
  constructor
  · rintro ⟨k, hk, rfl⟩
    omega
  · intro h
    exact ⟨(n - s.start.line).toNat, by omega, by omega⟩

end Span

end ContractCoverage
