/-! Numbers, as they are compared.

A number is an integer, a fraction in units of 2^-1074, infinite, or not a number at
all. No integer is given as a fraction, so equal numbers are equal values. Numbers are
ordered by size, except that what is not a number comes neither before nor after
anything. -/
namespace ContractCoverage

/-- An integer or a number of the binary64 format. -/
inductive Number where
  | int (n : Int)
  /-- A number of units of `2 ^ -1074` that makes no integer. -/
  | fraction (units : Int)
  | infinite (negative : Bool)
  | nan
  deriving DecidableEq, Repr

namespace Number

/-- The units of `2 ^ -1074` in one. -/
def unitsPerOne : Nat := 1 <<< 1074

/-- The number of units in a finite number. -/
def units : Number → Int
  | .int n => n * unitsPerOne
  | .fraction units => units
  | .infinite _ | .nan => 0

/-- The integer that a number is. -/
def int? : Number → Option Int
  | .int n => some n
  | _ => none

/-- Whether one number is smaller than another. -/
def less : Number → Number → Bool
  | .nan, _ | _, .nan => false
  | .infinite s, .infinite t => s && !t
  | .infinite s, _ => s
  | _, .infinite t => !t
  | .int m, .int n => m < n
  | a, b => a.units < b.units

theorem less_int (m n : Int) : less (.int m) (.int n) = decide (m < n) := rfl

/-- No number is smaller than itself. -/
theorem less_self (a : Number) : a.less a = false := by
  cases a <;> simp [less]

theorem int?_eq_some_iff {a : Number} {n : Int} : a.int? = some n ↔ a = .int n := by
  cases a <;> simp [int?]

end Number

end ContractCoverage
