import ContractCoverage.Coverage.Report
import ContractCoverage.File.Ingest
import ContractCoverage.File.Instructions
import ContractCoverage.File.Replay
import ContractCoverage.Project.Workspace

/-! Projects: the coverage of files that are compiled together.

A project knows its files by name. It hands every file its part of the compiler's
output and every trace to all files. Unless the settings say otherwise, files without
code are left out of recording and reports. -/
namespace ContractCoverage

/-- Files by the names the compiler knows them by. -/
structure Project where
  files : KeyedList String FileCoverage := .empty

namespace Project

/-- Adds the file that a path leads to. -/
def addFile (w : Workspace) (base : Option String) (p : Project) (path : String) :
    Except FileFault Project :=
  (w.readText path).map fun text =>
    let name := w.nameOf base path
    { p with files := p.files.insert name (.new name path text) }

/-- The project of the files that paths lead to. -/
def load (w : Workspace) (paths : List String) (base : Option String) :
    Except FileFault Project :=
  paths.foldlM (addFile w base) {}

/-- The texts of all files, for the compiler. -/
def compilerInputs (p : Project) : List (String × String) :=
  p.files.entries.map fun (name, file) => (name, file.text)

/-- Whether a file is left out of recording and reports. -/
def isSkipped (s : Settings) (file : FileCoverage) : Bool :=
  s.skipInterfaces && file.isInterface

/-- What is reported of a file that is left out. -/
def skipEvent (name : String) : Event :=
  ⟨.debug, s!"Skipping {name}, it contains no code"⟩

/-! ### Recording -/

/-- Adds the hits of a trace to the total of each file in turn. -/
def recordFiles (s : Settings) (steps : List Step) (p : Project) :
    List (String × FileCoverage) → Outcome Project (List (String × Fragment))
  | [] => ⟨p, [], .ok []⟩
  | (name, file) :: rest =>
    if isSkipped s file then
      let out := recordFiles s steps p rest
      { out with events := skipEvent name :: out.events }
    else
      let step := file.recordSteps s steps
      let p := { p with files := p.files.insert name step.state }
      match step.result with
      | .error fault => ⟨p, step.events, .error fault⟩
      | .ok coverage =>
        let out := recordFiles s steps p rest
        { out with
          events := step.events ++ out.events
          result := out.result.map ((name, coverage) :: ·) }

/-- Adds the hits of a trace, as the tracer writes it, to the totals of all files. The first file
that fails ends the recording; the files before it have recorded the trace. -/
def record (s : Settings) (p : Project) (trace : Value) :
    Outcome Project (List (String × Fragment)) :=
  match Trace.load trace with
  | .error fault => ⟨p, [], .error fault⟩
  | .ok steps => recordFiles s steps p p.files.entries

/-! ### Reporting -/

/-- The report of a file, unless it is left out. -/
def reportFile (s : Settings) (file : String × FileCoverage) :
    Logged (Option (String × Report)) :=
  let (name, file) := file
  if isSkipped s file then ⟨[skipEvent name], .ok none⟩
  else ⟨[], (file.coverage.report.map fun report => some (name, report)).mapError .shape⟩

/-- The reports of all files that are not left out. -/
def report (s : Settings) (p : Project) : Logged (List (String × Report)) := do
  let reports ← p.files.entries.mapM (reportFile s)
  return reports.filterMap id

end Project

end ContractCoverage
