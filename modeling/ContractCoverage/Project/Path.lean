import ContractCoverage.Text.Fields

/-! Paths.

A path is a list of parts with slashes between them. It starts from the root when it
begins with a slash, and otherwise from the directory that it is used in. Blank parts
and single dots say nothing, and two dots take back the part before; the root has
nothing above it. A file is known by the last part of its path, or by the way that leads
to it from a base directory. -/
namespace ContractCoverage.Path

/-- A part of a path. -/
abbrev Part := List Char

/-- The part that leads to the directory above. -/
def up : Part := ['.', '.']

/-- Whether a part leads nowhere. -/
def isIdle (p : Part) : Bool := p == [] || p == ['.']

/-- The parts of a path. -/
def parts (path : String) : List Part := Text.split '/' path.toList

/-- Appends a part to parts in reverse order, where two dots take back the part before. -/
def push (done : List Part) (p : Part) : List Part :=
  if isIdle p then done
  else if p == up then done.tail
  else p :: done

/-- Whether a path starts from the root. -/
def isAbsolute (path : String) : Bool := path.toList.head? == some '/'

/-- The parts from the root to where a path leads that starts from other parts. -/
def follow (start : List Part) (path : String) : List Part :=
  ((parts path).foldl push start.reverse).reverse

/-- The parts from the root to the directory that a path starts from. -/
def start (directory path : String) : List Part :=
  if isAbsolute path then [] else follow [] directory

/-- The parts from the root to where a path leads that is used in a directory. -/
def resolve (directory path : String) : List Part := follow (start directory path) path

/-- The last part of a path. -/
def baseName (path : String) : String :=
  String.ofList ((parts path).getLastD [])

/-- The parts that remain of two lists after the parts they begin with in common. -/
def diverge : List Part → List Part → List Part × List Part
  | a :: as, b :: bs => if a == b then diverge as bs else (a :: as, b :: bs)
  | as, bs => (as, bs)

/-- The parts of the way from one place to another. -/
def way (base path : List Part) : List Part :=
  (diverge base path).1.map (fun _ => up) ++ (diverge base path).2

/-- The text of a way, where no way at all is a single dot. -/
def writeWay : List Part → String
  | [] => "."
  | way => String.ofList (Text.join '/' way)

/-- The way to a path from a base directory, both used in a directory. -/
def relative (directory path base : String) : String :=
  writeWay (way (resolve directory base) (resolve directory path))

/-- The name that a file is known by. -/
def displayName (directory path : String) (base : Option String) : String :=
  match base with
  | none => baseName path
  | some base => relative directory path base

end ContractCoverage.Path
