/-! Source ranges: where in the sources an instruction comes from.

A range has an offset and a length in bytes, the number of the file it lies in, the
way its instruction jumps and the depth of the modifier it stands in. A number may be
unknown; the range that knows nothing is the empty one, for instructions without a
source. `write` gives the compact text of a range, `key` the part of it that says
which piece of source it is. -/
namespace ContractCoverage

/-- How an instruction jumps: into a function, out of one, in the ordinary way, or not said. -/
inductive JumpKind where
  | into
  | out
  | regular
  | unspecified
  deriving DecidableEq, Repr

namespace JumpKind

/-- The letter of a jump kind; none for the unspecified one. -/
def letter? : JumpKind → Option Char
  | .into => some 'i'
  | .out => some 'o'
  | .regular => some '-'
  | .unspecified => none

/-- The text of a jump kind in an entry. -/
def write (j : JumpKind) : String :=
  String.ofList j.letter?.toList

/-- The jump kind that a field of one letter stands for. -/
def ofField? : List Char → Option JumpKind
  | ['i'] => some .into
  | ['o'] => some .out
  | ['-'] => some .regular
  | _ => none

theorem ofField?_letter {j : JumpKind} {c : Char} (h : j.letter? = some c) :
    ofField? [c] = some j := by
  cases j <;> cases h <;> rfl

end JumpKind

/-- A piece of source text. -/
structure Range where
  offset : Option Int
  length : Option Int
  fileId : Option Int := none
  jump : JumpKind := .unspecified
  modifierDepth : Option Int := none
  deriving DecidableEq, Repr

/-- What tells one piece of source from another: offset, length and file. -/
structure RangeKey where
  offset : Option Int
  length : Option Int
  fileId : Option Int
  deriving DecidableEq, Repr

/-- The text of a key, in which an unknown number has a name. -/
def RangeKey.write (k : RangeKey) : String :=
  let number : Option Int → String := fun n => (n.map toString).getD "None"
  number k.offset ++ ":" ++ number k.length ++ ":" ++ number k.fileId

/-- The integers in the text of a key. -/
def RangeKey.numerals (k : RangeKey) : List Int := [k.offset, k.length, k.fileId].filterMap id

namespace Range

/-- The range of instructions without a source. -/
def empty : Range := { offset := none, length := none }

/-- The range that a stream of entries starts from. -/
def origin : Range := { offset := some 0, length := some 0, fileId := some 0 }

/-- Whether nothing is known. -/
def isEmpty (r : Range) : Bool := r == empty

/-- Whether both offset and length are known. -/
def isComplete (r : Range) : Bool := r.offset.isSome && r.length.isSome

/-- The offset just after a complete range. -/
def stop? (r : Range) : Option Int := do
  let offset ← r.offset
  let length ← r.length
  return offset + length

/-- Which piece of source it is. -/
def key (r : Range) : RangeKey := ⟨r.offset, r.length, r.fileId⟩

/-- A number in an entry, blank when unknown. -/
def writeNumber (n : Option Int) : String :=
  (n.map toString).getD ""

/-- The fields of a range. The last two are left out when they say nothing. -/
def fields (r : Range) : List String :=
  [r.offset, r.length, r.fileId].map writeNumber ++
    (if r.jump ≠ .unspecified ∨ r.modifierDepth.isSome then [r.jump.write] else []) ++
    (r.modifierDepth.map toString).toList

/-- The compact text of a range. -/
def write (r : Range) : String :=
  if r.isEmpty then "" else String.intercalate ":" r.fields

/-- The integers in the text of a range. -/
def numerals (r : Range) : List Int :=
  [r.offset, r.length, r.fileId, r.modifierDepth].filterMap id

theorem isComplete_iff (r : Range) :
    r.isComplete = true ↔ ∃ offset length, r.offset = some offset ∧ r.length = some length := by
  simp [isComplete, Option.isSome_iff_exists]

theorem stop?_of_some {r : Range} {offset length : Int} (ho : r.offset = some offset)
    (hl : r.length = some length) : r.stop? = some (offset + length) := by
  simp [stop?, ho, hl]

end Range

end ContractCoverage
