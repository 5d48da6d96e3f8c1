import ContractCoverage.Code.Disassembly

/-! Compiler output: where the parts are that coverage needs.

For a file the compiler gives a source entry, with the number of the file and its
syntax tree, and its contracts, each with a code and a source map for creation and for
running. A contract whose code is blank may lack the source map. -/
namespace ContractCoverage.CompilerOutput

/-- The number of a file; null when the source entry has none. -/
def sourceId (source : Value) : Except ShapeFault Value :=
  (source.get? "id").map (·.getD .null)

/-- The syntax tree of a file, under its new or its old name. -/
def sourceTree (source : Value) : Except ShapeFault (Option Value) := do
  if ← source.contains (.text "ast") then return some (← source.field "ast")
  else if ← source.contains (.text "legacyAST") then return some (← source.field "legacyAST")
  else return none

/-- The values in the places of code and source map. -/
def codeFields (contract : Value) (part : CodePart) : Except ShapeFault (Value × Value) := do
  let bytecode ← (← contract.field "evm").field part.field
  let code ← bytecode.field "object"
  if code.isVoid then
    return (code, (← bytecode.get? "sourceMap").getD (.text ""))
  else
    return (code, ← bytecode.field "sourceMap")

/-- The texts of code and source map of a contract. -/
def codeTexts (name : String) (contract : Value) (part : CodePart) :
    Except CompilerFault (List Char × List Char) :=
  match codeFields contract part with
  | .error _ => .error (.noCode name part)
  | .ok (.text code, .text map) => .ok (code.toList, map.toList)
  | .ok _ => .error (.malformedCode name part)

/-- The listing of a code of a contract. -/
def listing (name : String) (contract : Value) (part : CodePart) : Logged Listing := do
  let (code, map) ← ((codeTexts name contract part).mapError .compiler : Except Fault _)
  Listing.disassemble code map

end ContractCoverage.CompilerOutput
