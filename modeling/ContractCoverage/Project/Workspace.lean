import ContractCoverage.Data.KeyedList
import ContractCoverage.Fault
import ContractCoverage.Project.Path
import ContractCoverage.Text.Quoted

/-! Workspaces: a directory with the files that paths lead to from there.

A workspace holds files by the parts that lead to them from the root, not only those in
its own directory. The directories are those that lead to a file or to the directory of
the workspace, and there are no links. Reading a path follows it part by part, so every
directory on the way has to be there, also one that two dots leave again. -/
namespace ContractCoverage

/-- Files with the bytes they hold, and the directory that paths are used in. -/
structure Workspace where
  directory : String
  files : KeyedList (List Path.Part) (List UInt8)

namespace Workspace

/-- The workspace of files given by path and bytes. -/
def ofFiles (files : List (String × List UInt8)) (directory : String := "/project") : Workspace :=
  ⟨directory, .ofList (files.map fun (path, bytes) => (Path.resolve directory path, bytes))⟩

/-- The name that a file of the workspace is known by. -/
def nameOf (w : Workspace) (base : Option String) (path : String) : String :=
  Path.displayName w.directory path base

/-- Where a path has led to so far. -/
inductive Place where
  /-- A directory. -/
  | directory (parts : List Path.Part)
  /-- A file. -/
  | file (bytes : List UInt8)

/-- Whether a directory is there: a file or the directory of the workspace lies in it or below
it. -/
def hasDirectory (w : Workspace) (parts : List Path.Part) : Bool :=
  parts.isPrefixOf (Path.follow [] w.directory) ||
    w.files.keys.any fun key => parts.length < key.length && parts.isPrefixOf key

/-- Follows one part of a path, which is needed in full for the text of a fault. -/
def follow (w : Workspace) (path : String) (place : Place) (p : Path.Part) :
    Except FileFault Place :=
  match place with
  | .file _ => .error (.notADirectory (Text.Quoted.write path))
  | .directory parts =>
    if Path.isIdle p then .ok place
    else if p == Path.up then .ok (.directory parts.dropLast)
    else
      let parts := parts ++ [p]
      match w.files.get? parts with
      | some bytes => .ok (.file bytes)
      | none =>
        if w.hasDirectory parts then .ok (.directory parts)
        else .error (.missing (Text.Quoted.write path))

/-- The bytes of the file that a path leads to. -/
def read (w : Workspace) (path : String) : Except FileFault (List UInt8) :=
  if path.toList.contains '\x00' then .error .notAPath
  else if path.isEmpty then .error (.missing (Text.Quoted.write path))
  else
    let start := Place.directory (Path.start w.directory path)
    match (Path.parts path).foldlM (w.follow path) start with
    | .error fault => .error fault
    | .ok (.file bytes) => .ok bytes
    | .ok _ => .error (.isDirectory (Text.Quoted.write path))

/-- The text of the file that a path leads to. -/
def readText (w : Workspace) (path : String) : Except FileFault String :=
  match w.read path with
  | .error fault => .error fault
  | .ok bytes =>
    match String.fromUTF8? ⟨bytes.toArray⟩ with
    | some text => .ok text
    | none => .error (.notText (Text.Quoted.write path))

end Workspace

end ContractCoverage
