import ContractCoverage.Coverage.Fragment
import ContractCoverage.Data.ValueText
import ContractCoverage.Source.Entry

/-! Range tables: which targets a source range counts for.

A table lists statements, functions and branches and knows, for each key of a source
range, the targets registered under it in the order of their registration. The jump
and the modifier depth of a range do not matter. Adding to a table first lists what is
named, which fails for an identifier that is no key, and then registers a target, which
fails for a source range that cannot be read. `resolve` looks a range up; `initial` is
the fragment that lists everything with zero hits.

A caller gives a table its ranges from outside, with numbers of any size. Keys are kept in
writing, so a caller who adds (`accept`) or looks up (`find`) a range with a number that
cannot be written is refused. -/
namespace ContractCoverage

/-- A source range, given as such or as the entry that stands for it. -/
inductive SourceRef where
  | entry (text : List Char)
  | range (r : Range)
  deriving DecidableEq, Repr

/-- The key of a source range. -/
def SourceRef.key : SourceRef → Except EntryFault RangeKey
  | .entry text => (Range.parse text).map Range.key
  | .range r => .ok r.key

/-- The text of a key, if its numbers can be written. -/
def RangeKey.text (k : RangeKey) : Except ShapeFault String := written k.numerals k.write

/-- Refuses a source range whose key cannot be written. The numbers of an entry have been read and
so can be written. -/
def SourceRef.check : SourceRef → Except ShapeFault Unit
  | .entry _ => .ok ()
  | .range r => r.key.text.map fun _ => ()

/-- A step that adds to a table. -/
inductive Registration where
  | statement (id : Ident) (src : SourceRef) (location : Option Span := none)
      (parent : Option BranchArm := none)
  | function (id : Ident) (src : SourceRef) (name : Value := .null) (location : Option Span := none)
  | branch (id : Ident) (arms : Int := 2) (kind : String := "if") (guard : Option Span := none)
      (locations : List (Option Span) := [])
  | arm (id : Ident) (place : Int) (src : SourceRef)

/-- Statements, functions, branches and the targets registered for source ranges. -/
structure RangeTable where
  registered : List (RangeKey × Target) := []
  statements : KeyedList Ident (Option Span) := .empty
  functions : KeyedList Ident (Option FunctionInfo) := .empty
  branches : KeyedList Ident (Int × Option BranchInfo) := .empty

namespace RangeTable

/-- The table without entries. -/
def empty : RangeTable := {}

/-- Registers a target under a key. -/
def register (t : RangeTable) (key : RangeKey) (target : Target) : RangeTable :=
  { t with registered := t.registered ++ [(key, target)] }

/-- What is listed of a function with a header. -/
def functionInfo (name : Value) (span : Span) : FunctionInfo :=
  ⟨name, span.start.line, span⟩

/-- What is listed of a branch with a guard, whose arms all need a location. -/
def branchInfo (kind : String) (guard : Span) (locations : List (Option Span)) :
    Except ShapeFault BranchInfo :=
  match locations.mapM id with
  | some arms => .ok ⟨kind, guard.start.line, guard, arms⟩
  | none => .error .noFields

/-- What is listed of a branch that may lack a guard. -/
def branchInfo? (kind : String) (guard : Option Span) (locations : List (Option Span)) :
    Except ShapeFault (Option BranchInfo) :=
  match guard with
  | none => .ok none
  | some guard => (branchInfo kind guard locations).map some

/-- The number of arms of a branch and what is listed of it; an unknown branch has two arms. -/
def branchEntry (t : RangeTable) (id : Ident) : Int × Option BranchInfo :=
  (t.branches.get? id).getD (2, none)

/-- Lists what a step names, before its source range is looked at. -/
def list (t : RangeTable) : Registration → Except ShapeFault RangeTable
  | .statement id _ location _ => do
    id.check
    return { t with statements := t.statements.insert id location }
  | .function id _ name location => do
    id.check
    return { t with functions := t.functions.insert id (location.map (functionInfo name)) }
  | .branch id arms kind guard locations => do
    let info ← branchInfo? kind guard locations
    id.check
    return { t with branches := t.branches.insert id (arms, info) }
  | .arm id place _ => do
    id.check
    let (arms, info) := t.branchEntry id
    return { t with branches := t.branches.insert id (max arms (place + 1), info) }

end RangeTable

/-- The target that a step registers, with the range it is registered for. -/
def Registration.target? : Registration → Option (SourceRef × Target)
  | .statement id src location parent => some (src, ⟨.statement id, location, parent⟩)
  | .function id src _ location => some (src, ⟨.function id, location, none⟩)
  | .branch .. => none
  | .arm id place src => some (src, ⟨.branch id place, none, none⟩)

/-- Refuses a step that registers a target for a source range whose key cannot be written. -/
def Registration.check (step : Registration) : Except ShapeFault Unit :=
  match step.target? with
  | none => .ok ()
  | some (src, _) => src.check

namespace RangeTable

/-- Registers the target of a step. -/
def enroll (t : RangeTable) (step : Registration) : Except EntryFault RangeTable :=
  match step.target? with
  | none => .ok t
  | some (src, target) => src.key.map (t.register · target)

/-- Takes a step. A step whose source range cannot be read registers no target, but what it names
has been listed. -/
def add (t : RangeTable) (step : Registration) : RangeTable × Except Fault Unit :=
  match t.list step with
  | .error fault => (t, .error (.shape fault))
  | .ok listed =>
    match listed.enroll step with
    | .error fault => (listed, .error (.compiler (.entry fault)))
    | .ok t => (t, .ok ())

/-- Takes steps up to the first that fails. -/
def addAll (t : RangeTable) : List Registration → Except Fault RangeTable
  | [] => .ok t
  | step :: steps =>
    match t.add step with
    | (t, .ok ()) => t.addAll steps
    | (_, .error fault) => .error fault

/-- Takes a step of a caller. One whose source range has no key in writing registers no target, but
what it names has been listed. -/
def accept (t : RangeTable) (step : Registration) : RangeTable × Except Fault Unit :=
  match t.list step, step.check with
  | .ok listed, .error fault => (listed, .error (.shape fault))
  | _, _ => t.add step

/-- Takes the steps of a caller who goes on after one that fails. -/
def acceptEach (t : RangeTable) (steps : List Registration) : RangeTable :=
  steps.foldl (fun t step => (t.accept step).1) t

/-- The targets of a key in the order of their registration. -/
def targetsOf (t : RangeTable) (key : RangeKey) : List Target :=
  (t.registered.filter (·.1 == key)).map (·.2)

/-- The targets that executing an instruction of a range counts for. -/
def resolve (t : RangeTable) (r : Range) : List Target :=
  if r.isComplete then t.targetsOf r.key else []

/-- The targets that a caller finds under the text of a range's key. -/
def find (t : RangeTable) (r : Range) : Except ShapeFault (List Target) :=
  if r.isComplete then do
    let text ← r.key.text
    return (t.registered.filter (·.1.write == text)).map (·.2)
  else .ok []

/-- Zero hits of keys. -/
def zeros (keys : List Ident) : KeyedList Ident Int :=
  .ofList (keys.map (·, 0))

/-- The values that are there. -/
def known {ν : Type} (m : KeyedList Ident (Option ν)) : KeyedList Ident ν :=
  .ofList (m.entries.filterMap fun (k, v) => v.map (k, ·))

/-- The lines of all registered targets. -/
def lines (t : RangeTable) : List Int :=
  t.registered.flatMap (·.2.lines)

/-- The fragment that lists everything with zero hits. -/
def initial (t : RangeTable) (path : Option String := none) : Fragment where
  path := path
  statements := zeros t.statements.keys
  branches := t.branches.map fun (arms, _) => List.replicate arms.toNat 0
  functions := zeros t.functions.keys
  lines := zeros (t.lines.map .ofInt)
  statementMap := known t.statements
  functionMap := known t.functions
  branchMap := known (t.branches.map (·.2))

/-! ### What a step does -/

/-- A step that succeeds has listed what it names and then registered its target. -/
theorem add_eq_ok_iff {t t' : RangeTable} {step : Registration} :
    t.add step = (t', .ok ()) ↔
      ∃ listed, t.list step = .ok listed ∧ listed.enroll step = .ok t' := by
  unfold add
  cases t.list step with
  | error fault => simp
  | ok listed =>
    simp only [Except.ok.injEq, exists_eq_left']
    cases listed.enroll step <;> simp

/-- Listing registers nothing. -/
theorem registered_of_list {t listed : RangeTable} {step : Registration}
    (h : t.list step = .ok listed) : listed.registered = t.registered := by
  have bindOk : ∀ {α β : Type} {x : Except ShapeFault α} {f : α → Except ShapeFault β} {b : β},
      (x >>= f) = .ok b → ∃ a, f a = .ok b := by
    intro α β x f b h
    cases x with
    | error fault => cases h
    | ok a => exact ⟨a, h⟩
  cases step with
  | branch id arms kind guard locations =>
    obtain ⟨info, h⟩ := bindOk h
    obtain ⟨_, h⟩ := bindOk h
    cases h
    rfl
  | statement => obtain ⟨_, h⟩ := bindOk h; cases h; rfl
  | function => obtain ⟨_, h⟩ := bindOk h; cases h; rfl
  | arm => obtain ⟨_, h⟩ := bindOk h; cases h; rfl

end RangeTable

end ContractCoverage
