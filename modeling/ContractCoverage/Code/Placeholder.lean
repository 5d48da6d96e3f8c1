/-! Link placeholders.

Where a code has yet to be linked with a library, its text holds two underscores and
38 further characters in the place of an address. `link` puts an address of its own
there, so that the text can be read. The leftmost placeholder comes first, and
placeholders do not overlap. -/
namespace ContractCoverage.Placeholder

/-- The number of characters in a placeholder, the same as in an address. -/
def width : Nat := 40

/-- The address that takes the place of a placeholder. -/
def dummyAddress : List Char := List.replicate width 'a'

/-- Whether a text starts with a placeholder, which may hold anything but a line end. -/
def opens : List Char → Bool
  | '_' :: '_' :: rest =>
    let body := rest.take (width - 2)
    body.length == width - 2 && !body.contains '\n'
  | _ => false

/-- A text with an address in the place of every placeholder. -/
def link (s : List Char) : List Char :=
  match s with
  | [] => []
  | c :: rest =>
    if opens (c :: rest) then dummyAddress ++ link (rest.drop (width - 1))
    else c :: link rest
termination_by s.length

theorem length_of_opens {s : List Char} (h : opens s = true) : width ≤ s.length := by
  unfold opens at h
  split at h
  · next rest =>
    simp only [Bool.and_eq_true, beq_iff_eq, List.length_take] at h
    simp only [List.length_cons, width] at *
    omega
  · contradiction

theorem length_link (s : List Char) : (link s).length = s.length := by
  fun_induction link s with
  | case1 => rfl
  | case2 c rest h ih =>
    have hw := length_of_opens h
    simp only [List.length_append, ih, List.length_drop, dummyAddress, List.length_replicate]
    simp only [List.length_cons, width] at *
    omega
  | case3 c rest h ih => simp [ih]

end ContractCoverage.Placeholder
