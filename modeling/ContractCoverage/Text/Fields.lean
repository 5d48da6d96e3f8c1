/-! Texts made of fields with a separator between them.

Splitting always gives at least one field, and `join_split` says that joining the
fields gives the text back. -/
namespace ContractCoverage.Text

/-- The fields of a text. -/
def split (sep : Char) : List Char → List (List Char)
  | [] => [[]]
  | c :: cs =>
    if c = sep then [] :: split sep cs
    else match split sep cs with
      | [] => [[c]]
      | field :: fields => (c :: field) :: fields

/-- Fields with a separator between them. -/
def join (sep : Char) : List (List Char) → List Char
  | [] => []
  | [field] => field
  | field :: fields => field ++ sep :: join sep fields

theorem split_ne_nil (sep : Char) (s : List Char) : split sep s ≠ [] := by
  cases s with
  | nil => simp [split]
  | cons c cs =>
    rw [split]
    split
    · simp
    · split <;> simp

theorem join_cons_cons (sep : Char) (c : Char) (field : List Char) (fields : List (List Char)) :
    join sep ((c :: field) :: fields) = c :: join sep (field :: fields) := by
  cases fields <;> rfl

theorem join_split (sep : Char) (s : List Char) : join sep (split sep s) = s := by
  induction s with
  | nil => rfl
  | cons c cs ih =>
    cases hs : split sep cs with
    | nil => exact absurd hs (split_ne_nil sep cs)
    | cons field fields =>
      rw [hs] at ih
      rw [split, hs]
      split
      · next hc =>
        rw [join, ih, hc]
        · rfl
        · simp
      · rw [join_cons_cons, ih]

/-- A text has one field more than it has separators. -/
theorem length_split (sep : Char) (s : List Char) :
    (split sep s).length = s.count sep + 1 := by
  induction s with
  | nil => rfl
  | cons c cs ih =>
    rw [split]
    split
    · next hc => simp [ih, hc]
    · next hc =>
      rw [List.count_cons_of_ne hc, ← ih]
      cases hs : split sep cs with
      | nil => exact absurd hs (split_ne_nil sep cs)
      | cons field fields => rfl

end ContractCoverage.Text
