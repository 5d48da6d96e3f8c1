import ContractCoverage.Data.Sorting
import ContractCoverage.Data.ValueText

/-! Identifiers.

Statements, branches and functions are known by an identifier: in practice an integer,
but any value will do. Two identifiers are the same key when they are the same number,
of whatever kind, or the same text; a list or an object is no key at all. A report
lists counters in the order of their identifiers, which exists only when all are
numbers or all are texts (a single one is always in order). -/
namespace ContractCoverage

/-- What a statement, a branch or a function is known by. -/
structure Ident where
  value : Value
  deriving Inhabited

/-- What equal identifiers have in common. -/
inductive Key where
  | null
  | number (n : Number)
  | text (s : String)
  deriving DecidableEq, Repr

namespace Ident

/-- The key that an identifier is, which a list or an object is not. -/
def key? (i : Ident) : Option Key :=
  match i.value with
  | .null => some .null
  | .text s => some (.text s)
  | .list _ | .object _ => none
  | v => v.number?.map .number

/-- Whether an identifier can be looked up. -/
def isKey (i : Ident) : Bool := i.key?.isSome

/-- Whether two identifiers are the same key. -/
def same (a b : Ident) : Bool :=
  match a.value, b.value with
  | .int m, .int n => m == n
  | _, _ => a.key? == b.key?

/-- Identifiers are equal when they are the same key. -/
instance : BEq Ident := ⟨same⟩

theorem beq_iff {a b : Ident} : (a == b) = true ↔ a.key? = b.key? := by
  show same a b = true ↔ _
  unfold same
  split
  · next hm hn => simp [key?, hm, hn, Value.number?]
  · exact beq_iff_eq

instance : EquivBEq Ident where
  rfl := beq_iff.2 rfl
  symm h := beq_iff.2 (beq_iff.1 h).symm
  trans h h' := beq_iff.2 ((beq_iff.1 h).trans (beq_iff.1 h'))

/-- An integer as an identifier. -/
def ofInt (n : Int) : Ident := ⟨.int n⟩

/-- Refuses an identifier that is no key. -/
def check (i : Ident) : Except ShapeFault Unit :=
  if i.isKey then .ok () else .error .wrongKind

/-- The text of an identifier. -/
def display (i : Ident) : String := i.value.display

/-- The text of an identifier inside a list of entries. -/
def literal (i : Ident) : String := i.value.literal

/-- The integers in the text of an identifier. -/
def numerals (i : Ident) : List Int := i.value.numerals

/-- The number that an identifier is. -/
def number? (i : Ident) : Option Number := i.value.number?

/-- The text that an identifier is. -/
def text? (i : Ident) : Option String :=
  match i.value with
  | .text s => some s
  | _ => none

/-! ### Laws -/

theorem isKey_eq_isScalar (i : Ident) : i.isKey = i.value.isScalar := by
  obtain ⟨v⟩ := i
  cases v <;> rfl

theorem ofInt_beq_ofInt (m n : Int) : (ofInt m == ofInt n) = (m == n) := by
  apply Bool.eq_iff_iff.2
  rw [beq_iff, beq_iff_eq]
  show some (Key.number (.int m)) = some (Key.number (.int n)) ↔ _
  simp

/-! ### Order -/

/-- Pairs a value with a key that all entries have to have. -/
def keyed? {α β : Type} (key : Ident → Option β) (es : List (Ident × α)) :
    Option (List (β × Ident × α)) :=
  es.mapM fun e => (key e.1).map (·, e)

/-- Entries in increasing order of their identifiers. -/
def sort {α : Type} (es : List (Ident × α)) : Except ShapeFault (List (Ident × α)) :=
  if es.length ≤ 1 then .ok es
  else match keyed? number? es with
    | some ks => .ok ((Sorting.sort (fun a b => a.1.less b.1) ks).map (·.2))
    | none =>
      match keyed? text? es with
      | some ks => .ok ((Sorting.sort (fun a b => a.1 < b.1) ks).map (·.2))
      | none => .error .wrongKind

end Ident

end ContractCoverage
