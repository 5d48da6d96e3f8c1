import ContractCoverage.Data.Sorting.Search

/-! Merging two neighbouring runs.

What is in place already is set aside: the items of the first run that do not come after
the head of the second, and the items of the second that do not come before the end of
the first. Of what remains, the head of the one run is the first item of the merge and
the end of the other run is the last; the one is called the opener here and the other
the closer. The merge starts from the end of the shorter run, turning both runs round
when it starts from behind, so that the opener is always the run whose head is taken
first.

A merge goes item by item until one run has come first many times in a row. From then
on it takes whole stretches of the one run and the other in turn, until the stretches
become short. How many times in a row are many, the patience, changes while the merge
goes on: it falls as long as the stretches stay long and rises when they become short.
Nothing is lost (`mergeRuns_perm`). -/
namespace ContractCoverage.Sorting

variable {α : Type} (less : α → α → Bool)

/-- The length from which a stretch is long, and the patience at first. -/
def longStretch : Nat := 7

/-- How a merge goes on. -/
inductive Pace where
  /-- Item by item, after so many items in a row of the opener or the closer. -/
  | walk (opener closer : Nat)
  /-- By stretches, after items in a row. -/
  | gallop
  /-- By stretches, after stretches of which one was long. -/
  | gallopOn
  /-- By a stretch of the other run, after one of the given length. -/
  | halfway (length : Nat)
  /-- Item by item, after short stretches. -/
  | slowDown
  deriving DecidableEq, Repr

/-- The patience from here on. -/
def Pace.patience (patience : Nat) : Pace → Nat
  | .gallopOn => max 1 (patience - 1)
  | .slowDown => patience + 1
  | _ => patience

/-- What is taken at once, what remains of opener and closer, and how to go on. -/
structure Turn (α : Type) where
  taken : List α
  opener : List α
  closer : List α
  pace : Pace

/-- Whether an item of the opener is taken before one of the closer. -/
def opens : Direction → α → α → Bool
  | .forward, x, y => less x y
  | .backward, x, y => less y x

/-- Takes the item that comes first. -/
def takeItem (d : Direction) (patience nx ny : Nat) (x : α) (xs : List α) (y : α) (ys : List α) :
    Turn α :=
  if opens less d x y then
    ⟨[x], xs, y :: ys, if patience ≤ nx + 1 then .gallop else .walk (nx + 1) 0⟩
  else ⟨[y], x :: xs, ys, if patience ≤ ny + 1 then .gallop else .walk 0 (ny + 1)⟩

/-- Takes what the closer has before the head of the opener, and that head. -/
def takeClosers (d : Direction) (next : Nat → Pace) (x : α) (xs : List α) (y : α) (ys : List α) :
    Turn α :=
  let n := gallop d (fun y => !opens less d x y) (y :: ys)
  ⟨(y :: ys).take n ++ [x], xs, (y :: ys).drop n, next n⟩

/-- Takes what the opener has before the head of the closer, and that head. -/
def takeOpeners (d : Direction) (next : Nat → Pace) (x : α) (xs : List α) (y : α) (ys : List α) :
    Turn α :=
  let n := gallop d (fun x => opens less d x y) (x :: xs)
  ⟨(x :: xs).take n ++ [y], (x :: xs).drop n, ys, next n⟩

/-- The pace after stretches of two lengths. -/
def Pace.after (m n : Nat) : Pace :=
  if longStretch ≤ m ∨ longStretch ≤ n then .gallopOn else .slowDown

/-- What happens next while both runs have items. Of two stretches the first is one of the run that
comes first in the list. -/
def turn (d : Direction) (patience : Nat) (pace : Pace) (x : α) (xs : List α) (y : α)
    (ys : List α) : Turn α :=
  match pace, d with
  | .walk nx ny, _ => takeItem less d patience nx ny x xs y ys
  | .slowDown, _ => takeItem less d patience 0 0 x xs y ys
  | .halfway n, .forward => takeOpeners less d (.after n) x xs y ys
  | .halfway n, .backward => takeClosers less d (.after n) x xs y ys
  | _, .forward => takeClosers less d .halfway x xs y ys
  | _, .backward => takeOpeners less d .halfway x xs y ys

theorem takeItem_perm (d : Direction) (patience nx ny : Nat) (x : α) (xs : List α) (y : α)
    (ys : List α) :
    let t := takeItem less d patience nx ny x xs y ys
    (t.taken ++ (t.opener ++ t.closer)).Perm (x :: xs ++ y :: ys) := by
  simp only [takeItem]
  split
  · exact .refl _
  · have h : (x :: xs ++ y :: ys).Perm (y :: (x :: xs ++ ys)) := List.perm_middle
    exact h.symm

theorem takeClosers_perm (d : Direction) (next : Nat → Pace) (x : α) (xs : List α) (y : α)
    (ys : List α) :
    let t := takeClosers less d next x xs y ys
    (t.taken ++ (t.opener ++ t.closer)).Perm (x :: xs ++ y :: ys) := by
  simp only [takeClosers]
  generalize gallop d (fun y => !opens less d x y) (y :: ys) = n
  have h : ((y :: ys).take n ++ (x :: xs) ++ (y :: ys).drop n).Perm
      ((x :: xs) ++ ((y :: ys).take n ++ (y :: ys).drop n)) := by
    rw [← List.append_assoc]
    exact List.perm_append_comm.append_right _
  rw [List.take_append_drop] at h
  simpa using h

theorem takeOpeners_perm (d : Direction) (next : Nat → Pace) (x : α) (xs : List α) (y : α)
    (ys : List α) :
    let t := takeOpeners less d next x xs y ys
    (t.taken ++ (t.opener ++ t.closer)).Perm (x :: xs ++ y :: ys) := by
  simp only [takeOpeners]
  generalize gallop d (fun x => opens less d x y) (x :: xs) = n
  have h : ((x :: xs).take n ++ y :: ((x :: xs).drop n ++ ys)).Perm
      (y :: ((x :: xs).take n ++ ((x :: xs).drop n ++ ys))) := List.perm_middle
  rw [← List.append_assoc (List.take n _) (List.drop n _), List.take_append_drop] at h
  rw [List.append_assoc]
  exact h.trans List.perm_middle.symm

/-- Nothing is lost in a turn. -/
theorem turn_perm (d : Direction) (patience : Nat) (pace : Pace) (x : α) (xs : List α) (y : α)
    (ys : List α) :
    let t := turn less d patience pace x xs y ys
    (t.taken ++ (t.opener ++ t.closer)).Perm (x :: xs ++ y :: ys) := by
  unfold turn
  split
  · exact takeItem_perm ..
  · exact takeItem_perm ..
  · exact takeOpeners_perm ..
  · exact takeClosers_perm ..
  · exact takeClosers_perm ..
  · exact takeOpeners_perm ..

/-- A turn takes something. -/
theorem turn_taken_ne_nil (d : Direction) (patience : Nat) (pace : Pace) (x : α) (xs : List α)
    (y : α) (ys : List α) : (turn less d patience pace x xs y ys).taken ≠ [] := by
  unfold turn
  split <;> simp only [takeItem, takeClosers, takeOpeners] <;> try split
  all_goals simp

/-- A turn leaves less. -/
theorem length_turn_lt (d : Direction) (patience : Nat) (pace : Pace) (x : α) (xs : List α)
    (y : α) (ys : List α) :
    (turn less d patience pace x xs y ys).opener.length +
        (turn less d patience pace x xs y ys).closer.length <
      (x :: xs).length + (y :: ys).length := by
  have hp := (turn_perm less d patience pace x xs y ys).length_eq
  have hn := List.length_pos_iff.2 (turn_taken_ne_nil less d patience pace x xs y ys)
  simp only [List.length_append] at hp
  omega

/-- Merges what is left of opener and closer. The last item of the closer is known to come last. The
patience at the end is given beside the merge. -/
def mergeOn (d : Direction) (patience : Nat) (pace : Pace) (opener closer : List α) :
    List α × Nat :=
  match opener, closer with
  | x :: xs, y :: z :: ys =>
    let patience := pace.patience patience
    let t := turn less d patience pace x xs y (z :: ys)
    let rest := mergeOn d patience t.pace t.opener t.closer
    (t.taken ++ rest.1, rest.2)
  | opener, closer => (opener ++ closer, patience)
termination_by opener.length + closer.length
decreasing_by exact length_turn_lt ..

/-- Merges an opener, whose head is known to come first, and a closer. -/
def mergeFrom (d : Direction) (patience : Nat) : List α → List α → List α × Nat
  | [], closer => (closer, patience)
  | x :: xs, closer =>
    let rest := mergeOn less d patience (.walk 0 0) xs closer
    (x :: rest.1, rest.2)

/-- Merges two runs that are not in place, from the end of the shorter one. -/
def mergeApart (patience : Nat) (as bs : List α) : List α × Nat :=
  if as.length ≤ bs.length then mergeFrom less .forward patience bs as
  else
    let merged := mergeFrom less .backward patience as.reverse bs.reverse
    (merged.1.reverse, merged.2)

/-- How many items of a run stay in front of another run. -/
def settledBefore (as : List α) : List α → Nat
  | [] => as.length
  | b :: _ => gallop .forward (fun a => !less b a) as

/-- How many items of a run stay behind another run. -/
def settledBehind (as bs : List α) : Nat :=
  match as.getLast? with
  | none => bs.length
  | some a => gallop .backward (fun b => !less b a) bs.reverse

/-- Merges two neighbouring runs, with some patience at the beginning and at the end. -/
def mergeRuns (patience : Nat) (as bs : List α) : List α × Nat :=
  let m := settledBefore less as bs
  let first := as.drop m
  let n := bs.length - settledBehind less first bs
  if first.isEmpty || n = 0 then (as ++ bs, patience)
  else
    let merged := mergeApart less patience first (bs.take n)
    (as.take m ++ (merged.1 ++ bs.drop n), merged.2)

/-! ### Nothing is lost -/

theorem mergeOn_perm (d : Direction) (patience : Nat) (pace : Pace) (opener closer : List α) :
    (mergeOn less d patience pace opener closer).1.Perm (opener ++ closer) := by
  fun_induction mergeOn less d patience pace opener closer with
  | case1 patience pace x xs y z ys patience' t rest ih =>
    exact (ih.append_left _).trans (turn_perm less d patience' pace x xs y (z :: ys))
  | case2 => exact .refl _

theorem mergeFrom_perm (d : Direction) (patience : Nat) (opener closer : List α) :
    (mergeFrom less d patience opener closer).1.Perm (opener ++ closer) := by
  cases opener with
  | nil => exact .refl _
  | cons x xs => exact (mergeOn_perm less d patience (.walk 0 0) xs closer).cons x

theorem mergeApart_perm (patience : Nat) (as bs : List α) :
    (mergeApart less patience as bs).1.Perm (as ++ bs) := by
  unfold mergeApart
  split
  · exact (mergeFrom_perm less _ _ _ _).trans List.perm_append_comm
  · exact (List.reverse_perm _).trans ((mergeFrom_perm less _ _ _ _).trans
      ((List.reverse_perm _).append (List.reverse_perm _)))

/-- Merging two runs keeps every item. -/
theorem mergeRuns_perm (patience : Nat) (as bs : List α) :
    (mergeRuns less patience as bs).1.Perm (as ++ bs) := by
  simp only [mergeRuns]
  split
  · exact .refl _
  · refine (((mergeApart_perm less _ _ _).append_right _).append_left _).trans (.of_eq ?_)
    rw [List.append_assoc, List.take_append_drop, ← List.append_assoc, List.take_append_drop]

end ContractCoverage.Sorting
