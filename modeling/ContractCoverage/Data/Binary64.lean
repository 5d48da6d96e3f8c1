import ContractCoverage.Data.Decimal
import ContractCoverage.Data.Number
import ContractCoverage.Data.Rounding

/-! Numbers of the binary64 format.

A finite number is a sign and a number of units of 2^-1074, the least positive number.
A quotient becomes the number nearest to it that has a significand of 53 bits, from
halfway the one with the even significand (`nearestUnits`); from 2^1024 on it becomes
infinite. All of it is exact integer arithmetic. -/
namespace ContractCoverage

/-- A number of the binary64 format. Zero has a sign, too. -/
inductive Binary64 where
  | nan
  | infinite (negative : Bool)
  /-- A number of units of `2 ^ -1074`. -/
  | finite (negative : Bool) (units : Nat)
  deriving DecidableEq, Repr

namespace Binary64

/-- The units nearest to `n / d` among those whose significand has 53 bits. -/
def nearestUnits (n d : Nat) : Nat :=
  let n := n * Number.unitsPerOne
  let scale := (n / d).log2 - 52
  roundDiv n (d <<< scale) <<< scale

/-- The number nearest to `n / d`. -/
def ofRatio (negative : Bool) (n d : Nat) : Binary64 :=
  let units := nearestUnits n d
  if units < Number.unitsPerOne <<< 1024 then .finite negative units else .infinite negative

/-- The number nearest to a decimal. Decimals far beyond the largest and the least number are not
computed. -/
def ofDecimal (negative : Bool) (d : Decimal) : Binary64 :=
  if d.digits = 0 ∨ d.point < -330 then .finite negative 0
  else if 310 < d.point then .infinite negative
  else ofRatio negative d.fraction.1 d.fraction.2

/-- Whether a number is zero, of either sign. -/
def isZero : Binary64 → Bool
  | .finite _ units => units == 0
  | _ => false

/-- What a number is when it is compared. -/
def number : Binary64 → Number
  | .nan => .nan
  | .infinite negative => .infinite negative
  | .finite negative units =>
    let sign : Int := if negative then -1 else 1
    if units % Number.unitsPerOne = 0 then .int (sign * ↑(units / Number.unitsPerOne))
    else .fraction (sign * units)

/-! ### The shortest decimal

A number is written with the fewest digits that read back to it. On the grid of all
decimals with a number of digits only the two neighbours of the number need a look:
the nearer one first, from halfway the even one. -/

/-- The neighbours of `n / d` among the integers, the nearer one first. -/
def neighbours (n d : Nat) : List Nat :=
  let below := n / d
  if roundDiv n d = below then [below, below + 1] else [below + 1, below]

/-- The decimal of some exponent that reads back to a number of units, when there is one. -/
def onGrid? (units : Nat) (exponent : Int) : Option Decimal :=
  let n := units * Nat.pow 10 (-exponent).toNat
  let d := Number.unitsPerOne * Nat.pow 10 exponent.toNat
  ((neighbours n d).map (⟨·, exponent⟩)).find? fun decimal =>
    ofDecimal false decimal == .finite false units

/-- The decimal place before the first digit of a positive number of units. -/
def magnitude (units : Nat) : Int :=
  let shifted := units * Nat.pow 10 400 / Number.unitsPerOne
  ((Decimal.digitsOf shifted).length : Int) - 400

/-- The decimal that a number of units is exactly. -/
def exactly (units : Nat) : Decimal := ⟨units * Nat.pow 5 1074, -1074⟩

/-- The decimal with the fewest digits that reads back to a number of units. Seventeen digits are
always enough. -/
def shortest (units : Nat) : Decimal :=
  ((List.range 17).findSome? fun (i : Nat) => onGrid? units (magnitude units - (i + 1))).getD
    (exactly units)

/-- The text of a number. -/
def write : Binary64 → String
  | .nan => "nan"
  | .infinite negative => if negative then "-inf" else "inf"
  | .finite negative units =>
    let body := if units = 0 then ['0', '.', '0'] else (shortest units).write
    String.ofList (if negative then '-' :: body else body)

/-! ### Laws -/

theorem number_zero (negative : Bool) : (finite negative 0).number = .int 0 := by
  simp [number]

/-- What is found on a grid reads back. -/
theorem ofDecimal_of_onGrid? {units : Nat} {exponent : Int} {d : Decimal}
    (h : onGrid? units exponent = some d) : ofDecimal false d = .finite false units := by
  have := List.find?_some h
  exact eq_of_beq this

end Binary64

end ContractCoverage
