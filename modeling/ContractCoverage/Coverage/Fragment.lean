import ContractCoverage.Coverage.Target
import ContractCoverage.Data.KeyedList

/-! Fragments: the hit counters of one file.

A fragment counts hits of statements, branch arms, functions and lines, and says where
those statements, branches and functions are. `hit` adds hits of one target, `merge`
adds up two fragments. Merging takes counters key by key and arms place by place, so
it does not matter in which order fragments come together. -/
namespace ContractCoverage

/-- Name and header of a function. -/
structure FunctionInfo where
  name : Value
  line : Int
  span : Span

/-- Kind, guard and arms of a branch. -/
structure BranchInfo where
  kind : String
  line : Int
  span : Span
  arms : List Span
  deriving DecidableEq, Repr

/-- Counters of a file and the places of what they count. -/
structure Fragment where
  path : Option String := none
  statements : KeyedList Ident Int := .empty
  branches : KeyedList Ident (List Int) := .empty
  functions : KeyedList Ident Int := .empty
  lines : KeyedList Ident Int := .empty
  statementMap : KeyedList Ident Span := .empty
  functionMap : KeyedList Ident FunctionInfo := .empty
  branchMap : KeyedList Ident BranchInfo := .empty

/-! ### Arms of a branch -/

/-- Counts with zeros added up to a length. -/
def padCounts (counts : List Int) (length : Nat) : List Int :=
  counts ++ List.replicate (length - counts.length) 0

/-- Counts added up place by place, the shorter ones padded with zeros. -/
def addCounts (a b : List Int) : List Int :=
  let length := max a.length b.length
  List.zipWith (· + ·) (padCounts a length) (padCounts b length)

/-- The place of an arm among counts of some length. A negative arm counts from the end, and an arm
beyond the end makes room for itself. -/
def armPlace? (length : Nat) (arm : Int) : Option Nat :=
  if 0 ≤ arm then some arm.toNat
  else if -arm ≤ length then some (length - (-arm).toNat)
  else none

/-- Adds hits to an arm; counts without such an arm stay as they are. -/
def bumpArm (counts : List Int) (arm n : Int) : List Int :=
  match armPlace? counts.length arm with
  | some place => (padCounts counts (arm + 1).toNat).modify place (· + n)
  | none => counts

namespace Fragment

/-! ### Hits -/

/-- Adds to a counter that starts at zero. -/
def bump (counters : KeyedList Ident Int) (k : Ident) (n : Int) : KeyedList Ident Int :=
  counters.update k fun count => count.getD 0 + n

/-- The counts of the arms of a branch; none when the branch is unknown. -/
def armCounts (f : Fragment) (branch : Ident) : List Int :=
  (f.branches.get? branch).getD []

/-- Whether hits of an arm can be counted. -/
def hasArm (f : Fragment) (a : BranchArm) : Bool :=
  (armPlace? (f.armCounts a.branch).length a.arm).isSome

/-- Adds hits of an arm. The branch is listed afterwards, also when it has no such arm. -/
def hitArm (f : Fragment) (a : BranchArm) (n : Int) : Fragment × Except Fault Unit :=
  match a.branch.check with
  | .error fault => (f, .error (.shape fault))
  | .ok () =>
    let branches := f.branches.update a.branch fun counts => bumpArm (counts.getD []) a.arm n
    ({ f with branches }, if f.hasArm a then .ok () else .error .noSuchArm)

/-- Adds hits of lines. -/
def hitLines (f : Fragment) (lines : List Int) (n : Int) : Fragment :=
  { f with lines := lines.foldl (fun m line => bump m (.ofInt line) n) f.lines }

/-- Adds hits of the statement, branch arm or function that a key names. -/
def hitKey (f : Fragment) (key : TargetKey) (n : Int) : Fragment × Except Fault Unit :=
  match key.id.check with
  | .error fault => (f, .error (.shape fault))
  | .ok () =>
    match key with
    | .statement id _ => ({ f with statements := bump f.statements id n }, .ok ())
    | .function id _ => ({ f with functions := bump f.functions id n }, .ok ())
    | .branch id arm => f.hitArm ⟨id, arm⟩ n

/-- Adds hits of a target: of the target itself, of its lines and of the arm it stands for, in this
order up to the first that cannot be counted. -/
def hit (f : Fragment) (t : Target) (n : Int) : Fragment × Except Fault Unit :=
  match f.hitKey t.key n with
  | (own, .error fault) => (own, .error fault)
  | (own, .ok ()) =>
    let own := own.hitLines t.lines n
    match t.parent with
    | none => (own, .ok ())
    | some a => own.hitArm a n

/-- Adds the hits of several targets, or fails at the first that cannot be counted. -/
def hitAll (f : Fragment) : List (Target × Int) → Except Fault Fragment
  | [] => .ok f
  | (t, n) :: rest =>
    match f.hit t n with
    | (f, .ok ()) => f.hitAll rest
    | (_, .error fault) => .error fault

/-! ### Merging -/

/-- Counters added up key by key. -/
def addCounters (a b : KeyedList Ident Int) : KeyedList Ident Int :=
  a.mergeWith (fun count n => count.getD 0 + n) b

/-- Counts of arms added up branch by branch. -/
def addBranches (a b : KeyedList Ident (List Int)) : KeyedList Ident (List Int) :=
  a.mergeWith (fun counts more => addCounts (counts.getD []) more) b

/-- The entries of both lists, those of the second first; where both have a key, the value of the
first list counts. -/
def union {ν : Type} (a b : KeyedList Ident ν) : KeyedList Ident ν :=
  b.mergeWith (fun _ value => value) a

/-- The first path, unless it is missing or empty. -/
def firstPath (a b : Option String) : Option String :=
  match a with
  | some path => if path.isEmpty then b else some path
  | none => b

/-- Two fragments added up. -/
def merge (a b : Fragment) : Fragment where
  path := firstPath a.path b.path
  statements := addCounters a.statements b.statements
  branches := addBranches a.branches b.branches
  functions := addCounters a.functions b.functions
  lines := addCounters a.lines b.lines
  statementMap := union a.statementMap b.statementMap
  functionMap := union a.functionMap b.functionMap
  branchMap := union a.branchMap b.branchMap

/-! ### Questions -/

/-- Whether nothing has been hit. Lines are hit only together with something else. -/
def isEmpty (f : Fragment) : Bool :=
  f.statements.values.all (· == 0) && f.branches.values.all (·.all (· == 0)) &&
    f.functions.values.all (· == 0)

/-- Whether two fragments have the same counters. -/
def sameCounters (a b : Fragment) : Bool :=
  a.statements.same b.statements && a.branches.same b.branches &&
    a.functions.same b.functions && a.lines.same b.lines

/-- Entries in braces, each key with its value after a colon. -/
def writeEntries {ν : Type} (value : ν → String) (m : KeyedList Ident ν) : String :=
  "\x7b" ++ Value.commaSeparated (m.entries.map fun (k, v) => k.literal ++ ": " ++ value v) ++
    "\x7d"

/-- The text of a list of counts. -/
def writeCounts (counts : List Int) : String :=
  "[" ++ Value.commaSeparated (counts.map toString) ++ "]"

/-- The text of a fragment. -/
def write (f : Fragment) : String :=
  "<CoverageFragment " ++ f.path.getD "None" ++
    " s=" ++ writeEntries toString f.statements ++
    " b=" ++ writeEntries writeCounts f.branches ++
    " f=" ++ writeEntries toString f.functions ++ ">"

/-- The integers in the text of a fragment. -/
def numerals (f : Fragment) : List Int :=
  f.statements.entries.flatMap (fun (k, n) => k.numerals ++ [n]) ++
    f.branches.entries.flatMap (fun (k, counts) => k.numerals ++ counts) ++
    f.functions.entries.flatMap (fun (k, n) => k.numerals ++ [n])

end Fragment

end ContractCoverage
