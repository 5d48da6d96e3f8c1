/-! Rounding: the integer nearest to a quotient.

A quotient that lies halfway between two integers goes to the even one. The statements
say that the rounded quotient is at most half a unit away and that an integer stays as
it is. -/
namespace ContractCoverage

/-- The integer nearest to `n / d`; from halfway, the even one. -/
def roundDiv (n d : Nat) : Nat :=
  let q := n / d
  let r := n % d
  if 2 * r < d then q
  else if d < 2 * r then q + 1
  else if q % 2 = 0 then q
  else q + 1

theorem roundDiv_one (n : Nat) : roundDiv n 1 = n := by
  simp [roundDiv, Nat.mod_one]

theorem roundDiv_mul_self (n d : Nat) (h : 0 < d) : roundDiv (n * d) d = n := by
  simp [roundDiv, h]

/-- A rounded quotient is within half a unit of the exact one. -/
theorem roundDiv_near (n d : Nat) (h : 0 < d) :
    2 * (roundDiv n d * d) ≤ 2 * n + d ∧ 2 * n ≤ 2 * (roundDiv n d * d) + d := by
  have hn : d * (n / d) + n % d = n := Nat.div_add_mod n d
  have hr : n % d < d := Nat.mod_lt _ h
  have hq : n / d * d = d * (n / d) := Nat.mul_comm ..
  have hs : (n / d + 1) * d = d * (n / d) + d := by rw [Nat.add_mul, hq, Nat.one_mul]
  simp only [roundDiv]
  repeat' split
  all_goals omega

/-- A half goes to the even neighbour. -/
theorem roundDiv_half : [1, 3, 5, 7].map (roundDiv · 2) = [0, 2, 2, 4] := by decide

end ContractCoverage
