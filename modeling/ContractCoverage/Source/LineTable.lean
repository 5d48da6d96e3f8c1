import ContractCoverage.Source.Fault
import ContractCoverage.Source.Location

/-! Line tables: from byte offsets to lines and columns.

Lines end at the byte 0x0A and nowhere else. Every line but the last counts its
terminator, so the lengths of the lines add up to the size of the text. The offset
just after the last byte is the end of the last line. -/
namespace ContractCoverage

/-- The byte that ends a line. -/
def newline : UInt8 := 0x0a

/-- The lengths of the lines of a text, their terminators included. -/
def lineLengths : List UInt8 → List Nat
  | [] => [0]
  | b :: bytes =>
    match lineLengths bytes with
    | [] => []
    | n :: ns => if b = newline then 1 :: n :: ns else (n + 1) :: ns

/-- The sums of the lengths before each entry. -/
def lineStarts (start : Nat) : List Nat → List Nat
  | [] => []
  | n :: ns => start :: lineStarts (start + n) ns

/-- Size and lines of a text. -/
structure LineTable where
  size : Nat
  lengths : List Nat
  starts : List Nat
  deriving Repr

namespace LineTable

/-- The line table of the bytes of a text. -/
def ofBytes (bytes : List UInt8) : LineTable :=
  let lengths := lineLengths bytes
  { size := bytes.length, lengths, starts := lineStarts 0 lengths }

/-- The line table of a text, in its UTF-8 bytes. -/
def ofText (s : String) : LineTable :=
  ofBytes s.toUTF8.data.toList

/-- The location of an offset: the last line that starts at or before it. -/
def resolve (t : LineTable) (offset : Int) : Except PositionFault Location :=
  if offset < 0 ∨ t.size < offset then .error (.outside offset t.size)
  else
    let started := t.starts.filter fun (s : Nat) => (s : Int) ≤ offset
    .ok ⟨started.length, offset - started.getLastD 0⟩

/-- The locations of the two ends of a range. -/
def resolveRange (t : LineTable) (r : Range) : Except PositionFault Span :=
  match r.offset, r.length with
  | some offset, some length => do
    let start ← t.resolve offset
    let stop ← t.resolve (offset + length)
    return ⟨start, stop⟩
  | _, _ => .error (.incomplete r)

end LineTable

/-! ### Lengths and starts -/

theorem lineLengths_ne_nil (bytes : List UInt8) : lineLengths bytes ≠ [] := by
  induction bytes with
  | nil => simp [lineLengths]
  | cons b bytes ih =>
    cases h : lineLengths bytes with
    | nil => exact absurd h ih
    | cons n ns => rw [lineLengths, h]; dsimp only; split <;> simp

/-- The lengths of the lines add up to the size of the text. -/
theorem foldr_lineLengths (bytes : List UInt8) :
    (lineLengths bytes).foldr (· + ·) 0 = bytes.length := by
  induction bytes with
  | nil => rfl
  | cons b bytes ih =>
    cases h : lineLengths bytes with
    | nil => exact absurd h (lineLengths_ne_nil bytes)
    | cons n ns =>
      rw [h] at ih
      rw [lineLengths, h]
      dsimp only
      split <;> simp only [List.foldr_cons, List.length_cons] at * <;> omega

/-- There is one line more than there are terminators. -/
theorem length_lineLengths (bytes : List UInt8) :
    (lineLengths bytes).length = bytes.count newline + 1 := by
  induction bytes with
  | nil => rfl
  | cons b bytes ih =>
    cases h : lineLengths bytes with
    | nil => exact absurd h (lineLengths_ne_nil bytes)
    | cons n ns =>
      rw [h] at ih
      rw [lineLengths, h]
      dsimp only
      split
      · next hb => simp [hb, ← ih]
      · next hb => rw [List.count_cons_of_ne hb]; simpa using ih

theorem length_lineStarts (start : Nat) (ns : List Nat) :
    (lineStarts start ns).length = ns.length := by
  induction ns generalizing start with
  | nil => rfl
  | cons n ns ih => simp [lineStarts, ih]

end ContractCoverage
