/-! Settings. -/
namespace ContractCoverage

/-- What a caller can switch off. -/
structure Settings where
  /-- Traces may align with the code that creates a contract. -/
  includeCreationCode : Bool := true
  /-- A step matches an instruction only when their mnemonics agree. -/
  verifyOpcodes : Bool := true
  /-- A project does not report files without code. -/
  skipInterfaces : Bool := true
  /-- Source ranges beyond the end of their file are refused and not just dropped. -/
  strictRanges : Bool := true
  deriving DecidableEq, Repr, Inhabited

end ContractCoverage
