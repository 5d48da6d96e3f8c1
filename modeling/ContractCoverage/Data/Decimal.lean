/-! Decimal numbers: significant digits and a power of ten.

A positive decimal is written with its significant digits and at least one digit on
either side of the point. Numbers that are 10^16 or more, or below 10^-4, are written
with an exponent of at least two digits. -/
namespace ContractCoverage

/-- The number `digits * 10 ^ exponent`. -/
structure Decimal where
  digits : Nat
  exponent : Int
  deriving DecidableEq, Repr

namespace Decimal

/-- The digits of a number, the most significant one first. -/
def digitsOf (n : Nat) : List Char := (toString n).toList

/-- The place of the point in a decimal, counted from before its first digit. -/
def point (d : Decimal) : Int := (digitsOf d.digits).length + d.exponent

/-- A decimal as a numerator and a denominator. -/
def fraction (d : Decimal) : Nat × Nat :=
  (d.digits * Nat.pow 10 d.exponent.toNat, Nat.pow 10 (-d.exponent).toNat)

/-- Takes the zeros off the end of a run of digits. -/
def dropTrailingZeros (ds : List Char) : List Char :=
  (ds.reverse.dropWhile (· == '0')).reverse

/-- Digits and the place of their point, written positionally. -/
def writePositional (ds : List Char) (point : Int) : List Char :=
  if point ≤ 0 then '0' :: '.' :: (List.replicate (-point).toNat '0' ++ ds)
  else
    let whole := ds.take point.toNat
    let zeros := List.replicate (point.toNat - whole.length) '0'
    let rest := ds.drop point.toNat
    whole ++ zeros ++ '.' :: (if rest.isEmpty then ['0'] else rest)

/-- Digits and the place of their point, written with an exponent. -/
def writeScientific (ds : List Char) (point : Int) : List Char :=
  let e := point - 1
  let size := digitsOf e.natAbs
  let padded := List.replicate (2 - size.length) '0' ++ size
  let tail := 'e' :: (if e < 0 then '-' else '+') :: padded
  match ds with
  | [] => '0' :: tail
  | [d] => d :: tail
  | d :: rest => d :: '.' :: rest ++ tail

/-- The text of a positive decimal. -/
def write (d : Decimal) : List Char :=
  let ds := dropTrailingZeros (digitsOf d.digits)
  if -4 < d.point ∧ d.point ≤ 16 then writePositional ds d.point else writeScientific ds d.point

end Decimal

end ContractCoverage
