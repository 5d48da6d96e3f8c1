import ContractCoverage.Code.Opcode
import ContractCoverage.Data.ValueText
import ContractCoverage.Fault

/-! Traces: the instructions that were executed, one step each.

A tracer's answer is a list of steps, an object that holds such a list, or a response
around such an object. A step has a program counter, a mnemonic and a call depth. A
missing depth is one; a program counter or depth of another kind than a number is
kept and may be refused later, where it is used. -/
namespace ContractCoverage

/-- One executed instruction. -/
structure Step where
  pc : Value
  op : Option String := none
  depth : Value := .int 1

namespace Step

/-- The mnemonic of a step in its canonical spelling, when the tracer gives one. -/
def readOp (v : Value) : Except ShapeFault (Option String) :=
  if v.isVoid then .ok none
  else match v with
    | .text name => .ok (some (Opcode.canonicalName name))
    | _ => .error .noFields

/-- A step as the tracer writes it. -/
def ofValue (v : Value) : Except ShapeFault Step := do
  let pc ← v.get? "pc"
  let op ← v.get? "op"
  let depth ← v.get? "depth"
  return { pc := pc.getD .null, op := ← readOp (op.getD .null), depth := depth.getD (.int 1) }

/-- The text of a step. -/
def write (s : Step) : String :=
  "<TraceStep " ++ s.pc.display ++ " " ++ s.op.getD "None" ++ " @" ++ s.depth.display ++ ">"

/-- The integers in the text of a step. -/
def numerals (s : Step) : List Int := s.pc.numerals ++ s.depth.numerals

end Step

namespace Trace

/-- The field of an object that holds the steps, or an empty list when there is none. -/
def stepsField (fields : List (String × Value)) : Value :=
  (fields.lookup "structLogs").getD (.list [])

/-- What is wrong when the tracer answers with an error. -/
def errorFault (error : Value) : Fault :=
  match error.displayed with
  | .ok text => .trace (.tracerError text)
  | .error fault => .shape fault

/-- The part of a tracer's answer that lists the steps. -/
def stepsPart : Value → Except Fault Value
  | .object fields =>
    match fields.lookup "error", fields.lookup "result" with
    | some error, _ => .error (errorFault error)
    | none, some (.object inner) => .ok (stepsField inner)
    | none, some _ => .error (.trace .noSteps)
    | none, none => .ok (stepsField fields)
  | v => .ok v

/-- The steps of a tracer's answer. -/
def load (v : Value) : Except Fault (List Step) := do
  let part ← stepsPart v
  let steps ← (part.elements : Except Fault _)
  (steps.mapM Step.ofValue : Except ShapeFault _)

end Trace

end ContractCoverage
