import ContractCoverage.Source.Range

/-! What can be wrong with an entry of a source map or with a position. -/
namespace ContractCoverage

/-- Why an entry of a source map cannot be read. -/
inductive EntryFault where
  /-- The entry has more fields than there are. -/
  | tooManyFields (entry : String)
  /-- A field is not an integer. -/
  | badField (field entry : String)
  /-- A jump field is not a known letter. -/
  | unknownJump (field : String)
  /-- Offset or length is below zero. -/
  | negative (entry : String)
  deriving DecidableEq, Repr

/-- The text of a fault. -/
def EntryFault.message : EntryFault → String
  | .tooManyFields entry => s!"Too many fields in entry '{entry}'"
  | .badField field entry => s!"Invalid source map field '{field}' in entry '{entry}'"
  | .unknownJump field => s!"Unknown jump type '{field}'"
  | .negative entry => s!"Negative offset or length in '{entry}'"

/-- Why a position or a range does not fit into a text or into another range. -/
inductive PositionFault where
  /-- A range that has to be complete is not. -/
  | incompleteSubtraction
  /-- The range to take away starts before the range it is taken from. -/
  | startsBefore (inner outer : Range)
  /-- An offset lies outside of the text. -/
  | outside (offset : Int) (size : Nat)
  /-- A range without offset or length has no position. -/
  | incomplete (range : Range)
  deriving DecidableEq, Repr

/-- The text of a fault. -/
def PositionFault.message : PositionFault → String
  | .incompleteSubtraction => "Cannot subtract incomplete source ranges"
  | .startsBefore inner outer => s!"Range {inner.write} starts before range {outer.write}"
  | .outside offset size => s!"Offset {offset} is outside of the file (size {size})"
  | .incomplete range => s!"Cannot resolve the incomplete source range '{range.write}'"

/-- The integers in the text of a fault. -/
def PositionFault.numerals : PositionFault → List Int
  | .incompleteSubtraction => []
  | .startsBefore inner outer => inner.numerals ++ outer.numerals
  | .outside offset size => [offset, size]
  | .incomplete range => range.numerals

end ContractCoverage
