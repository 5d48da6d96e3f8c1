import ContractCoverage.Data.Binary64

/-! Values of unknown shape.

Compiler output, syntax trees and traces arrive as trees of values whose shape
nobody promises. A `Value` is such a tree, and reading it is asking for a field, for
its elements or for its truth. Each question has an answer for some kinds of value
and a `ShapeFault` for the others. The fields of an object keep their order. -/
namespace ContractCoverage

/-- Data whose shape has to be found out. -/
inductive Value where
  | null
  | flag (b : Bool)
  | int (n : Int)
  | real (x : Binary64)
  | text (s : String)
  | list (items : List Value)
  | object (fields : List (String × Value))
  deriving Inhabited

/-- Why a value cannot be used as it was meant to be. -/
inductive ShapeFault where
  /-- The kind of the value does not have the operation. -/
  | wrongKind
  /-- Fields were asked of a value that is not an object. -/
  | noFields
  /-- An object lacks a field it needs. -/
  | missingField (name : String)
  /-- An integer has too many digits to be written. -/
  | tooManyDigits
  deriving DecidableEq, Repr

namespace Value

/-- The number that a value counts as; flags count as zero and one. -/
def number? : Value → Option Number
  | .flag b => some (.int (if b then 1 else 0))
  | .int n => some (.int n)
  | .real x => some x.number
  | _ => none

/-- The integer that a value counts as, when it counts as one. -/
def int? (v : Value) : Option Int := v.number?.bind Number.int?

/-- Whether a value says nothing: null, false, zero and everything empty. -/
def isVoid : Value → Bool
  | .null => true
  | .flag b => !b
  | .int n => n == 0
  | .real x => x.isZero
  | .text s => s.isEmpty
  | .list items => items.isEmpty
  | .object fields => fields.isEmpty

/-- Whether a value is null. -/
def isNull : Value → Bool
  | .null => true
  | _ => false

/-- Whether a value can serve as a key; lists and objects cannot. -/
def isScalar : Value → Bool
  | .list _ | .object _ => false
  | _ => true

/-- The field of an object, when it has one of that name. -/
def get? (v : Value) (name : String) : Except ShapeFault (Option Value) :=
  match v with
  | .object fields => .ok (fields.lookup name)
  | _ => .error .noFields

/-- The field of an object, which has to be there. -/
def field (v : Value) (name : String) : Except ShapeFault Value :=
  match v with
  | .object fields =>
    match fields.lookup name with
    | some w => .ok w
    | none => .error (.missingField name)
  | _ => .error .wrongKind

/-- What a value yields when it is gone through: the items of a list, the characters of a text, the
names of the fields of an object. -/
def elements : Value → Except ShapeFault (List Value)
  | .list items => .ok items
  | .text s => .ok (s.toList.map fun c => .text (String.singleton c))
  | .object fields => .ok (fields.map fun e => .text e.1)
  | _ => .error .wrongKind

theorem lookup_of_field {fields : List (String × Value)} {name : String} {v : Value}
    (h : field (.object fields) name = .ok v) : fields.lookup name = some v := by
  simp only [field] at h
  split at h <;> cases h
  assumption

/-! ### Equality and order

Numbers are equal by value, whatever their kind; objects are equal in any order of
their fields. Only numbers, texts and lists have an order. -/

/-- Whether two values are equal as numbers. -/
def sameNumber (x y : Value) : Bool :=
  match x.number?, y.number? with
  | some a, some b => a == b
  | _, _ => false

/-- Numbers are ordered by value. -/
def lessNumber (x y : Value) : Except ShapeFault Bool :=
  match x.number?, y.number? with
  | some a, some b => .ok (a.less b)
  | _, _ => .error .wrongKind

mutual

/-- Whether two values are equal. -/
def same : Value → Value → Bool
  | .null, .null => true
  | .text s, .text t => s == t
  | .list xs, .list ys => sameItems xs ys
  | .object xs, .object ys => xs.length == ys.length && sameFields xs ys
  | .flag b, y => sameNumber (.flag b) y
  | .int n, y => sameNumber (.int n) y
  | .real x, y => sameNumber (.real x) y
  | _, _ => false

/-- Whether two lists hold equal values. -/
def sameItems : List Value → List Value → Bool
  | [], [] => true
  | x :: xs, y :: ys => same x y && sameItems xs ys
  | _, _ => false

/-- Whether every field of one list is, by name, a field of the other. -/
def sameFields : List (String × Value) → List (String × Value) → Bool
  | [], _ => true
  | (name, x) :: xs, ys =>
    (match ys.lookup name with
      | some y => same x y
      | none => false) && sameFields xs ys

end

mutual

/-- Whether one value comes before another. -/
def less : Value → Value → Except ShapeFault Bool
  | .text s, .text t => .ok (s < t)
  | .list xs, .list ys => lessItems xs ys
  | .flag b, y => lessNumber (.flag b) y
  | .int n, y => lessNumber (.int n) y
  | .real x, y => lessNumber (.real x) y
  | _, _ => .error .wrongKind

/-- Lists are ordered by their first items that differ, then by length. -/
def lessItems : List Value → List Value → Except ShapeFault Bool
  | [], ys => .ok !ys.isEmpty
  | _ :: _, [] => .ok false
  | x :: xs, y :: ys => if same x y then lessItems xs ys else less x y

end

/-- Whether a run of characters occurs in a text. -/
def holdsPart (part : List Char) : List Char → Bool
  | [] => part.isEmpty
  | c :: cs => part.isPrefixOf (c :: cs) || holdsPart part cs

/-- Whether a value is found in another: among the items of a list, as a part of a text, as the name
of a field. -/
def contains (v item : Value) : Except ShapeFault Bool :=
  match v, item with
  | .list items, x => .ok (items.any (same · x))
  | .text s, .text part => .ok (holdsPart part.toList s.toList)
  | .object fields, .text name => .ok (fields.any (·.1 == name))
  | .object _, x => if x.isScalar then .ok false else .error .wrongKind
  | _, _ => .error .wrongKind

/-- The names of an object are those that can be looked up. -/
theorem contains_object (fields : List (String × Value)) (name : String) :
    (Value.object fields).contains (.text name) = .ok (fields.lookup name).isSome := by
  have hany : fields.any (·.1 == name) = (fields.lookup name).isSome := by
    induction fields with
    | nil => rfl
    | cons e fields ih =>
      rw [List.any_cons, List.lookup_cons, ih, BEq.comm]
      cases name == e.1 <;> rfl
  rw [contains, hany]

end Value

end ContractCoverage
