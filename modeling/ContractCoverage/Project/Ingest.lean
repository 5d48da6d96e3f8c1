import ContractCoverage.Project.Basic

/-! Taking in the compiler's output of a whole project.

The output has contracts by file and source entries by file. Every file of the project
that it names takes in its part. A file whose part cannot be taken in stays as it is;
the others go on, and at the end the failed files are reported together. -/
namespace ContractCoverage.Project

/-- A part of the output, empty when it is missing. -/
def outputPart (output : Value) (name : String) : Except ShapeFault Value :=
  (output.get? name).map (·.getD (.object []))

/-- The names in the output: those with contracts, then those with a source entry only. -/
def outputNames (contracts sources : Value) : Except ShapeFault (List Value) := do
  let first ← contracts.elements
  let second ← (← sources.elements).filterM fun name => (contracts.contains name).map (!·)
  return first ++ second

/-- The file of that name, if the project has one. -/
def tracked? (p : Project) : Value → Except ShapeFault (Option (String × FileCoverage))
  | .text name => .ok ((p.files.get? name).map (name, ·))
  | name => if name.isScalar then .ok none else .error .wrongKind

/-- The contracts and the source entry of a file; null when there is no entry. -/
def filePart (contracts sources : Value) (name : String) : Except ShapeFault (Value × Value) := do
  let contracts ← outputPart contracts name
  let source ← sources.get? name
  return (contracts, source.getD .null)

/-- What is reported of output for a file that is not in the project. -/
def untrackedEvent (name : Value) : Except ShapeFault Event := do
  return ⟨.warning, s!"Compiler output for untracked file {← name.displayed}"⟩

/-- What is reported of a file whose output cannot be taken in. -/
def failureEvent (name : String) (fault : CompilerFault) : Event :=
  ⟨.error, s!"Could not ingest compiler output for {name}: {fault.message}"⟩

/-- Takes in the output of the named files in turn and gives the files that failed. -/
def ingestFiles (s : Settings) (contracts sources : Value) (p : Project) :
    List Value → Outcome Project (List (String × CompilerFault))
  | [] => ⟨p, [], .ok []⟩
  | name :: rest =>
    match p.tracked? name with
    | .error fault => ⟨p, [], .error (.shape fault)⟩
    | .ok none =>
      match untrackedEvent name with
      | .error fault => ⟨p, [], .error (.shape fault)⟩
      | .ok event =>
        let out := ingestFiles s contracts sources p rest
        { out with events := event :: out.events }
    | .ok (some (name, file)) =>
      match filePart contracts sources name with
      | .error fault => ⟨p, [], .error (.shape fault)⟩
      | .ok (part, source) =>
        let step := file.ingest s part source
        match step.result with
        | .ok () =>
          let p := { p with files := p.files.insert name step.state }
          let out := ingestFiles s contracts sources p rest
          { out with events := step.events ++ out.events }
        | .error (.compiler fault) =>
          let out := ingestFiles s contracts sources p rest
          { out with
            events := step.events ++ failureEvent name fault :: out.events
            result := out.result.map ((name, fault) :: ·) }
        | .error fault => ⟨p, step.events, .error fault⟩

/-- The contracts, the source entries and the names in the compiler's output. -/
def readOutput (output : Value) : Except ShapeFault (Value × Value × List Value) := do
  let contracts ← outputPart output "contracts"
  let sources ← outputPart output "sources"
  return (contracts, sources, ← outputNames contracts sources)

/-- Takes in the compiler's output. -/
def ingest (s : Settings) (p : Project) (output : Value) : Outcome Project Unit :=
  match readOutput output with
  | .error fault => ⟨p, [], .error (.shape fault)⟩
  | .ok (contracts, sources, names) =>
    let out := ingestFiles s contracts sources p names
    { out with
      result := match out.result with
        | .error fault => .error fault
        | .ok [] => .ok ()
        | .ok failed => .error (.unusable failed) }

end ContractCoverage.Project
