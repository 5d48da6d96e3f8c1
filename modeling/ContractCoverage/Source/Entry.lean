import ContractCoverage.Source.Fault
import ContractCoverage.Text.Fields
import ContractCoverage.Text.Numeral

/-! Entries of a source map.

An entry is a text of up to five fields with colons between them: offset, length,
file, jump and modifier depth. A field that is blank or missing takes its value from
the entry before, save that a missing jump or modifier depth means that there is
none. Offset and length may not be negative, wherever they come from. -/
namespace ContractCoverage.Range

/-- The most fields that an entry may have. -/
def maxFields : Nat := 5

/-- A number of an entry: the field in that place, or the inherited one when the field is blank or
missing. -/
def readNumber (entry : List Char) (place : Nat) (inherited : Option Int) :
    Except EntryFault (Option Int) :=
  match (Text.split ':' entry)[place]? with
  | none | some [] => .ok inherited
  | some field =>
    match Text.Numeral.read? field with
    | some n => .ok (some n)
    | none => .error (.badField (String.ofList field) (String.ofList entry))

/-- The jump kind that a field names. -/
def readJumpField (field : List Char) : Except EntryFault JumpKind :=
  match JumpKind.ofField? field with
  | some jump => .ok jump
  | none => .error (.unknownJump (String.ofList field))

/-- The jump kind of an entry. -/
def readJump (entry : List Char) (inherited : JumpKind) : Except EntryFault JumpKind :=
  match (Text.split ':' entry)[3]? with
  | none => .ok .unspecified
  | some [] => .ok inherited
  | some field => readJumpField field

/-- The modifier depth of an entry. -/
def readDepth (entry : List Char) (inherited : Option Int) : Except EntryFault (Option Int) :=
  if (Text.split ':' entry).length ≤ 4 then .ok none else readNumber entry 4 inherited

/-- Whether a number is known and below zero. -/
def isNegative (n : Option Int) : Bool := n.any (· < 0)

/-- The range that an entry of at least one character stands for after the range `previous`. -/
def decodeFields (entry : List Char) (previous : Range) : Except EntryFault Range := do
  if maxFields < (Text.split ':' entry).length then
    throw (.tooManyFields (String.ofList entry))
  let offset ← readNumber entry 0 previous.offset
  let length ← readNumber entry 1 previous.length
  let fileId ← readNumber entry 2 previous.fileId
  let jump ← readJump entry previous.jump
  let modifierDepth ← readDepth entry previous.modifierDepth
  if isNegative offset || isNegative length then
    throw (.negative (String.ofList entry))
  return { offset, length, fileId, jump, modifierDepth }

/-- The range that an entry stands for after the range `previous`; a blank entry repeats it. -/
def decode (entry : List Char) (previous : Range) : Except EntryFault Range :=
  if entry.isEmpty then .ok previous else decodeFields entry previous

/-- The range that an entry stands for relative to a base; a blank entry is the empty range. -/
def relativeTo (base : Range) (entry : List Char) : Except EntryFault Range :=
  if entry.isEmpty then .ok empty else decode entry base

/-- The range that an entry stands for by itself. -/
def parse (entry : List Char) : Except EntryFault Range :=
  relativeTo empty entry

/-- The part of a range that precedes a range nested in it. A range that starts after the end takes
nothing away. -/
def before (r inner : Range) : Except PositionFault Range :=
  match r.offset, r.length, inner.offset with
  | some offset, some length, some start =>
    if start < offset then .error (.startsBefore inner r)
    else .ok { offset := some offset, length := some (min (start - offset) length),
               fileId := r.fileId }
  | _, _, _ => .error .incompleteSubtraction

end ContractCoverage.Range
