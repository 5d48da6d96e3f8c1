import ContractCoverage.Code.Bytecode
import ContractCoverage.Data.Value
import ContractCoverage.Source.Fault
import ContractCoverage.Text.Numeral

/-! Faults: every cause for which a step is refused, and its text.

A fault names its cause. The faults of compiler output stand together in
`CompilerFault`, since a project collects those and goes on with its other files;
every other fault ends the step. -/
namespace ContractCoverage

/-- The two codes of a contract: the one that creates it and the one it runs. -/
inductive CodePart where
  | creation
  | deployed
  deriving DecidableEq, Repr

namespace CodePart

/-- The name of a part in reports. -/
def name : CodePart → String
  | .creation => "creation"
  | .deployed => "deployed"

/-- The field of the compiler's output that holds a part. -/
def field : CodePart → String
  | .creation => "bytecode"
  | .deployed => "deployedBytecode"

end CodePart

/-- Why a syntax tree cannot be used. -/
inductive TreeFault where
  /-- A node lies at no position of the file. -/
  | position (fault : PositionFault)
  /-- A node lacks a field. -/
  | missingField (name : String)
  deriving DecidableEq, Repr

/-- The text of a fault. -/
def TreeFault.message : TreeFault → String
  | .position fault => fault.message
  | .missingField name => s!"'{name}'"

/-- Why compiler output cannot be taken in. -/
inductive CompilerFault where
  /-- A source map cannot be read. -/
  | entry (fault : EntryFault)
  /-- A bytecode cannot be read. -/
  | bytecode (fault : BytecodeFault)
  /-- A contract has no code or no source map. -/
  | noCode (contract : String) (part : CodePart)
  /-- A code or a source map is not a text. -/
  | malformedCode (contract : String) (part : CodePart)
  /-- An instruction claims source beyond the end of its file. -/
  | outOfFile (range : Range) (contract file : String) (size : Nat)
  /-- A syntax tree cannot be used. -/
  | tree (file : String) (fault : TreeFault)
  deriving DecidableEq, Repr

/-- The text of a fault. -/
def CompilerFault.message : CompilerFault → String
  | .entry fault => fault.message
  | .bytecode fault => fault.message
  | .noCode contract part => s!"Contract {contract} has no {part.field} object or source map"
  | .malformedCode contract part => s!"Contract {contract} has a malformed {part.field}"
  | .outOfFile range contract file size =>
    s!"Source range '{range.write}' of {contract} exceeds {file} ({size} bytes)"
  | .tree file fault => s!"Invalid AST for {file}: {fault.message}"

/-- Why a trace holds no steps. -/
inductive TraceFault where
  /-- The tracer answered with an error. -/
  | tracerError (error : String)
  /-- The answer holds no list of steps. -/
  | noSteps
  deriving DecidableEq, Repr

/-- The text of a fault. -/
def TraceFault.message : TraceFault → String
  | .tracerError error => s!"Tracer returned an error: {error}"
  | .noSteps => "Tracer response holds no structLogs"

/-- Why there is no such coverage target. -/
inductive TargetFault where
  | unknownKind (kind : String)
  | branchWithoutArm
  deriving DecidableEq, Repr

/-- The text of a fault. -/
def TargetFault.message : TargetFault → String
  | .unknownKind kind => s!"Unknown coverage target kind '{kind}'"
  | .branchWithoutArm => "Branch targets need an arm index"

/-- Why a file cannot be read; `path` is the path in quotes. -/
inductive FileFault where
  | missing (path : String)
  | isDirectory (path : String)
  | notADirectory (path : String)
  | notText (path : String)
  /-- A path with a NUL character in it names no file. -/
  | notAPath
  deriving DecidableEq, Repr

/-- The text of a fault. -/
def FileFault.message : FileFault → String
  | .missing path => s!"[Errno 2] No such file or directory: {path}"
  | .isDirectory path => s!"[Errno 21] Is a directory: {path}"
  | .notADirectory path => s!"[Errno 20] Not a directory: {path}"
  | .notText path => s!"{path} is not UTF-8 text"
  | .notAPath => "embedded null byte"

/-- Why a step is refused. -/
inductive Fault where
  | compiler (fault : CompilerFault)
  | position (fault : PositionFault)
  | trace (fault : TraceFault)
  | target (fault : TargetFault)
  | file (fault : FileFault)
  /-- Data does not have the shape it should have. -/
  | shape (fault : ShapeFault)
  /-- A value in a syntax tree is not a node. -/
  | notANode
  /-- A branch has no arm of that number. -/
  | noSuchArm
  /-- Coverage was asked for before there was compiler output. -/
  | notIngested
  /-- The compiler output of some files of a project could not be taken in. -/
  | unusable (failed : List (String × CompilerFault))
  deriving DecidableEq, Repr

namespace Fault

/-- A file with the reason for which it was refused. -/
def describeFailure (failure : String × CompilerFault) : String :=
  s!"{failure.1} ({failure.2.message})"

/-- The text of a fault. -/
def message : Fault → String
  | .compiler fault => fault.message
  | .position fault => fault.message
  | .trace fault => fault.message
  | .target fault => fault.message
  | .file fault => fault.message
  | .shape .wrongKind => "a value is of the wrong kind"
  | .shape .noFields => "a value has no fields"
  | .shape (.missingField name) => s!"a value lacks the field '{name}'"
  | .shape .tooManyDigits =>
    s!"Exceeds the limit ({Text.Numeral.maxDigits} digits) for integer string conversion; " ++
      "use sys.set_int_max_str_digits() to increase the limit"
  | .notANode => "Unknown AST type has been fed to SolcAST"
  | .noSuchArm => "a branch has no such arm"
  | .notIngested => "Error generating coverage: solc output was not assigned"
  | .unusable failed =>
    "Could not ingest compiler output for " ++
      String.intercalate ", " (failed.map describeFailure)

/-- The fault of compiler output that a fault is. -/
def compiler? : Fault → Option CompilerFault
  | .compiler fault => some fault
  | _ => none

/-- A fault of a position, unless it cannot be put into words. -/
def ofPosition (fault : PositionFault) : Fault :=
  if fault.numerals.all Text.Numeral.isWritable then .position fault else .shape .tooManyDigits

end Fault

/-! ### Faults of parts as faults of the whole -/

instance : MonadLift (Except ShapeFault) (Except Fault) := ⟨fun x => x.mapError .shape⟩

instance : MonadLift (Except PositionFault) (Except Fault) := ⟨fun x => x.mapError .ofPosition⟩

instance : MonadLift (Except EntryFault) (Except Fault) :=
  ⟨fun x => x.mapError fun fault => .compiler (.entry fault)⟩

instance : MonadLift (Except BytecodeFault) (Except Fault) :=
  ⟨fun x => x.mapError fun fault => .compiler (.bytecode fault)⟩

theorem lift_ok {α : Type} (a : α) :
    (liftM (.ok a : Except ShapeFault α) : Except Fault α) = .ok a := rfl

theorem lift_error {α : Type} (fault : ShapeFault) :
    (liftM (.error fault : Except ShapeFault α) : Except Fault α) = .error (.shape fault) := rfl

theorem eq_ok_of_lift {α : Type} {x : Except ShapeFault α} {a : α}
    (h : (liftM x : Except Fault α) = .ok a) : x = .ok a := by
  cases x <;> cases h
  rfl

end ContractCoverage
