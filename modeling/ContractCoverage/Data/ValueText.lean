import ContractCoverage.Data.Value
import ContractCoverage.Text.Numeral
import ContractCoverage.Text.Quoted

/-! The text of a value.

`display` writes a value into a message: a text stands as it is. `literal` writes it
as part of another value: a text stands in quotes, a list in square brackets, an
object in braces. A text can only be made when all integers in it can be written;
`written` checks that. -/
namespace ContractCoverage

/-- A text in which the given integers stand. -/
def written (numerals : List Int) (text : String) : Except ShapeFault String :=
  if numerals.all Text.Numeral.isWritable then .ok text else .error .tooManyDigits

namespace Value

/-- Texts with a comma and a space between them. -/
def commaSeparated (parts : List String) : String :=
  String.intercalate ", " parts

mutual

/-- A value as it is written inside another one. -/
def literal : Value → String
  | .null => "None"
  | .flag b => if b then "True" else "False"
  | .int n => toString n
  | .real x => x.write
  | .text s => Text.Quoted.write s
  | .list items => "[" ++ commaSeparated (literalItems items) ++ "]"
  | .object fields => "\x7b" ++ commaSeparated (literalFields fields) ++ "\x7d"

/-- The items of a list as they are written. -/
def literalItems : List Value → List String
  | [] => []
  | v :: vs => literal v :: literalItems vs

/-- The fields of an object as they are written. -/
def literalFields : List (String × Value) → List String
  | [] => []
  | (name, v) :: rest => (Text.Quoted.write name ++ ": " ++ literal v) :: literalFields rest

end

/-- A value as it is written into a message. -/
def display : Value → String
  | .text s => s
  | v => literal v

mutual

/-- The integers in the text of a value. -/
def numerals : Value → List Int
  | .int n => [n]
  | .list items => numeralsOfItems items
  | .object fields => numeralsOfFields fields
  | .null | .flag _ | .real _ | .text _ => []

/-- The integers in the text of a list. -/
def numeralsOfItems : List Value → List Int
  | [] => []
  | v :: vs => numerals v ++ numeralsOfItems vs

/-- The integers in the text of an object. -/
def numeralsOfFields : List (String × Value) → List Int
  | [] => []
  | (_, v) :: rest => numerals v ++ numeralsOfFields rest

end

/-- A value as it is written into a message, if it can be. -/
def displayed (v : Value) : Except ShapeFault String := written v.numerals v.display

end Value

end ContractCoverage
