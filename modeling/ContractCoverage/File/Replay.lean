import ContractCoverage.File.Basic
import ContractCoverage.Journal

/-! Replaying a trace against a file.

Every call frame is aligned with a listing, and the steps that match it are followed.
An instruction counts for the targets that its range resolves to; a target is visited
once for as long as consecutive matched steps of a frame keep counting for it. The
visits of a trace become hits, and the hits are added to the running total.

The listings of a file are only read here and marked at the end, so what a trace adds
depends on nothing that earlier traces have marked. -/
namespace ContractCoverage

namespace FileCoverage

/-- The targets that executing an instruction counts for. Jumps into and out of a function carry the
range of the function but do not enter it. -/
def targetsOf (file : FileCoverage) (e : Entry) : List Target :=
  match file.resolver.table? with
  | none => []
  | some table =>
    if e.range.isOwn file.sourceId then
      (table.resolve e.range).filter fun t => !(t.key.isFunction && e.range.jump != .unspecified)
    else []

end FileCoverage

/-! ### Visits -/

namespace Replay

/-- The targets met step by step, each with whether this begins a visit: whether the step before did
not count for it. -/
def sightings (previous : List TargetKey) : List (List Target) → List (Target × Bool)
  | [] => []
  | targets :: rest =>
    targets.map (fun t => (t, !previous.contains t.key)) ++ sightings (targets.map (·.key)) rest

/-- Visits of each key, with the target that was met last under it. -/
abbrev Tally := KeyedList TargetKey (Target × Nat)

/-- Adds a sighting. -/
def count (tally : Tally) (sighting : Target × Bool) : Tally :=
  let (target, begins) := sighting
  tally.update target.key fun old =>
    (target, (old.map (·.2)).getD 0 + if begins then 1 else 0)

/-- A frame with the listing it aligns with and the instructions it executed there. -/
structure Passage where
  frame : Frame
  table : Option Table
  entries : List Entry

/-- Follows a frame. -/
def follow (s : Settings) (t : Tables) (f : Frame) : Passage :=
  match f.align s t with
  | none => ⟨f, none, []⟩
  | some table => ⟨f, some table, table.listing.matches s f⟩

/-- The sightings of a frame. -/
def Passage.sightings (file : FileCoverage) (p : Passage) : List (Target × Bool) :=
  Replay.sightings [] (p.entries.map file.targetsOf)

/-- Marks the instructions that a frame executed. -/
def Passage.mark (p : Passage) (t : Tables) : Tables :=
  match p.table with
  | none => t
  | some table => t.mark table (p.entries.map (·.instruction.address))

/-- What is reported of a frame: that it has been skipped. -/
def Passage.events (file : FileCoverage) (p : Passage) : List Event :=
  match p.table with
  | none =>
    [⟨.debug, s!"Skipping {p.frame.size} steps at depth {p.frame.depth.display} in {file.name}"⟩]
  | some _ => []

/-- Why a frame cannot be followed: a program counter has to be looked up that cannot be, or the
depth of a frame to be skipped has to be written. -/
def obstacle? (s : Settings) (t : Tables) (f : Frame) : Option ShapeFault :=
  if f.isUnreadable && !(t.candidates s).isEmpty then some .wrongKind
  else match f.depth.displayed with
    | .ok _ => none
    | .error fault => if (f.align s t).isNone then some fault else none

/-- Whether a frame can be followed. -/
def isPassable (s : Settings) (t : Tables) (f : Frame) : Bool := (obstacle? s t f).isNone

/-- The hits of a file in the frames of a trace. -/
def hits (file : FileCoverage) (passages : List Passage) : List (Target × Int) :=
  let tally := (passages.flatMap (·.sightings file)).foldl count KeyedList.empty
  tally.values.map fun (t, n) => (t, (n : Int))

/-- What the hits of a trace add to the total. -/
def increment (file : FileCoverage) (passages : List Passage) : Except Fault Fragment :=
  Fragment.hitAll { path := some file.path } (hits file passages)

/-- The number of steps that have been followed. -/
def replayed (passages : List Passage) : Nat := (passages.flatMap (·.entries)).length

end Replay

/-! ### Recording -/

namespace FileCoverage
open Replay

/-- Replays the frames of a number of steps. The frames before one that cannot be followed leave
their marks and their events, but no hits. -/
def replay (s : Settings) (file : FileCoverage) (tables : Tables) (total : Nat)
    (frames : List Frame) : Outcome FileCoverage Fragment :=
  let passages := (frames.takeWhile (isPassable s tables)).map (follow s tables)
  let marked := { file with tables := some (passages.foldl (fun t p => p.mark t) tables) }
  let events := passages.flatMap (·.events file)
  match frames.findSome? (obstacle? s tables) with
  | some fault => ⟨marked, events, .error (.shape fault)⟩
  | none =>
    let events := events ++
      [⟨.info, s!"Replayed {replayed passages} of {total} steps against {file.name}"⟩]
    match increment file passages with
    | .error fault => ⟨marked, events, .error fault⟩
    | .ok added =>
      let coverage := file.coverage.merge added
      ⟨{ marked with coverage }, events, .ok coverage⟩

/-- Adds the hits of a trace to the total of a file. -/
def recordSteps (s : Settings) (file : FileCoverage) (steps : List Step) :
    Outcome FileCoverage Fragment :=
  match file.tables with
  | none => ⟨file, [], .error .notIngested⟩
  | some tables =>
    match Frame.ofSteps steps with
    | .error fault => ⟨file, [], .error (.shape fault)⟩
    | .ok frames => file.replay s tables steps.length frames

/-- Adds the hits of a trace, as the tracer writes it, to the total of a file. -/
def record (s : Settings) (file : FileCoverage) (trace : Value) : Outcome FileCoverage Fragment :=
  match file.isIngested, Trace.load trace with
  | false, _ => ⟨file, [], .error .notIngested⟩
  | true, .error fault => ⟨file, [], .error fault⟩
  | true, .ok steps => file.recordSteps s steps

end FileCoverage

end ContractCoverage
