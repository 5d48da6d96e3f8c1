/-! Searching for the end of a stretch.

A stretch is what a list begins with and passes a test. Its end is found by leaps that
become longer and then by halving, so a long stretch is measured without testing all of
its items. Where the test holds up to some place and nowhere after it, that place is
found; otherwise the answer is a place where the test was seen to end. A list may have
been turned round, which only matters for which of two middle places is looked at. -/
namespace ContractCoverage.Sorting

variable {α : Type}

/-- Whether a list is in its own order or has been turned round. -/
inductive Direction where
  | forward
  | backward
  deriving DecidableEq, Repr

/-- The place half-way between two places. Of two such places it is the one that comes later in the
list's own order. -/
def Direction.middle : Direction → Nat → Nat → Nat
  | .forward, lo, hi => (lo + hi) / 2
  | .backward, lo, hi => (lo + hi - 1) / 2

theorem Direction.le_middle (d : Direction) {lo hi : Nat} (h : lo < hi) : lo ≤ d.middle lo hi := by
  cases d <;> simp only [middle] <;> omega

theorem Direction.middle_lt (d : Direction) {lo hi : Nat} (h : lo < hi) : d.middle lo hi < hi := by
  cases d <;> simp only [middle] <;> omega

/-- Whether there is an item at a place and it passes. -/
def passesAt (test : α → Bool) (items : List α) (i : Nat) : Bool := items[i]?.any test

theorem lt_length_of_passesAt {test : α → Bool} {items : List α} {i : Nat}
    (h : passesAt test items i = true) : i < items.length := by
  refine Nat.lt_of_not_le fun hi => ?_
  simp [passesAt, List.getElem?_eq_none hi] at h

/-- The place from `lo` up to `hi` before which the items pass, found by halving. -/
def halve (d : Direction) (test : α → Bool) (items : List α) (lo hi : Nat) : Nat :=
  if _h : lo < hi then
    if passesAt test items (d.middle lo hi) then halve d test items (d.middle lo hi + 1) hi
    else halve d test items lo (d.middle lo hi)
  else lo
termination_by hi - lo
decreasing_by
  · have := d.le_middle _h
    omega
  · have := d.middle_lt _h
    omega

/-- Two places, of which the item at the first passes and the item at the second does not or is
missing. Each leap takes about twice as many items as the one before. -/
def leap (test : α → Bool) (items : List α) (last next : Nat) : Nat × Nat :=
  if _h : passesAt test items next = true then leap test items next (2 * next + 1)
  else (last, min next items.length)
termination_by items.length - next
decreasing_by
  have := lt_length_of_passesAt _h
  omega

/-- The length of the stretch that a list begins with. -/
def gallop (d : Direction) (test : α → Bool) (items : List α) : Nat :=
  if passesAt test items 0 then
    let (last, next) := leap test items 0 1
    halve d test items (last + 1) next
  else 0

end ContractCoverage.Sorting
