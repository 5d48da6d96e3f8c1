import ContractCoverage.Data.Ident
import ContractCoverage.Fault
import ContractCoverage.Source.Location

/-! Coverage targets: what hits are counted for.

A target is a statement, an arm of a branch or a function. Its key says which one; hits
of equal keys are hits of one target. A statement may stand for an arm of a branch, its
parent: executing the statement is then taking that arm. -/
namespace ContractCoverage

/-- Which statement, branch arm or function. Only a branch needs its arm. -/
inductive TargetKey where
  | statement (id : Ident) (arm : Option Int := none)
  | branch (id : Ident) (arm : Int)
  | function (id : Ident) (arm : Option Int := none)

namespace TargetKey

/-- The letter of a kind of target. -/
def kind : TargetKey → String
  | .statement .. => "s"
  | .branch .. => "b"
  | .function .. => "f"

/-- The identifier of a target among those of its kind. -/
def id : TargetKey → Ident
  | .statement id _ | .branch id _ | .function id _ => id

/-- The arm that a key names. -/
def arm? : TargetKey → Option Int
  | .statement _ arm | .function _ arm => arm
  | .branch _ arm => some arm

/-- Whether a key names an arm of a branch. -/
def isBranch : TargetKey → Bool
  | .branch .. => true
  | _ => false

/-- Whether a key names a function. -/
def isFunction : TargetKey → Bool
  | .function .. => true
  | _ => false

/-- The key of a kind given by its letter. -/
def ofKind (kind : String) (id : Ident) (arm : Option Int) : Except TargetFault TargetKey :=
  match kind, arm with
  | "s", arm => .ok (.statement id arm)
  | "f", arm => .ok (.function id arm)
  | "b", some arm => .ok (.branch id arm)
  | "b", none => .error .branchWithoutArm
  | kind, _ => .error (.unknownKind kind)

/-- What equal target keys have in common. -/
def identity (key : TargetKey) : String × Option Key × Option Int :=
  (key.kind, key.id.key?, key.arm?)

/-- Target keys are equal when they are of one kind and their identifiers are the same key. -/
instance : BEq TargetKey := ⟨fun a b => a.identity == b.identity⟩

theorem beq_iff {a b : TargetKey} : (a == b) = true ↔ a.identity = b.identity := by
  show (a.identity == b.identity) = true ↔ _
  exact beq_iff_eq

instance : EquivBEq TargetKey where
  rfl := beq_iff.2 rfl
  symm h := beq_iff.2 (beq_iff.1 h).symm
  trans h h' := beq_iff.2 ((beq_iff.1 h).trans (beq_iff.1 h'))

theorem ofKind_self (key : TargetKey) : ofKind key.kind key.id key.arm? = .ok key := by
  cases key <;> rfl

end TargetKey

/-- An arm of a branch. -/
structure BranchArm where
  branch : Ident
  arm : Int

/-- Something that hits are counted for, with where it is and which arm it stands for. -/
structure Target where
  key : TargetKey
  location : Option Span := none
  parent : Option BranchArm := none

/-- The text of a target. -/
def Target.write (t : Target) : String :=
  "<CoverageTarget " ++ t.key.kind ++ t.key.id.display ++
    ((t.key.arm?.map fun arm => s!"[{arm}]").getD "") ++ ">"

/-- The integers in the text of a target. -/
def Target.numerals (t : Target) : List Int := t.key.id.numerals ++ t.key.arm?.toList

/-- The lines that count a hit of a target: those of its location, unless it is a branch arm. -/
def Target.lines (t : Target) : List Int :=
  if t.key.isBranch then [] else (t.location.map Span.lines).getD []

end ContractCoverage
