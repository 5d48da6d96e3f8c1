import ContractCoverage.Data.Binary64

/-! Percentages with two places.

A share is computed with significands of 53 bits: the quotient is rounded to the
nearest such number, a hundred times that is rounded again, and the result is
rounded to hundredths. Every rounding goes to the nearest value and, from halfway,
to the even one. -/
namespace ContractCoverage.Text.Percent

/-- The hundredths of a percent that `part` is of `whole`. -/
def hundredths (part whole : Nat) : Nat :=
  let share := Binary64.nearestUnits part whole
  let percent := Binary64.nearestUnits (100 * share) Number.unitsPerOne
  roundDiv (100 * percent) Number.unitsPerOne

/-- The percentage that `part` is of `whole`, with two places after the point. -/
def write (part whole : Nat) : String :=
  let h := hundredths part whole
  let places := h % 100
  s!"{h / 100}.{places / 10}{places % 10}"

end ContractCoverage.Text.Percent
