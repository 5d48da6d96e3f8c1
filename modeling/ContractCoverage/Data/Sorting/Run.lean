import ContractCoverage.Data.Sorting.Search

/-! Runs: pieces of a list that are in order.

A list is cut into runs from its beginning. A run that descends is turned round. A run
that is too short takes in further items one by one: each is inserted behind the items
that it does not come before, and its place is found by halving. Nothing is lost
(`runs_perm`). -/
namespace ContractCoverage.Sorting

variable {α : Type} (less : α → α → Bool)

/-- Splits off the items at the beginning each of which, after the first, stands to the one before
it as `next` says. -/
def splitRun (next : α → α → Bool) : List α → List α × List α
  | a :: b :: rest =>
    if next a b then
      let (run, others) := splitRun next (b :: rest)
      (a :: run, others)
    else ([a], b :: rest)
  | as => (as, [])

/-- The run that a list begins with, in ascending order, and the other items. -/
def leadingRun : List α → List α × List α
  | a :: b :: rest =>
    if less b a then
      let (run, others) := splitRun (fun a b => less b a) (a :: b :: rest)
      (run.reverse, others)
    else splitRun (fun a b => !less b a) (a :: b :: rest)
  | as => (as, [])

/-- Puts an item in its place among sorted items. -/
def insert (sorted : List α) (a : α) : List α :=
  let i := halve .forward (fun b => !less a b) sorted 0 sorted.length
  sorted.take i ++ a :: sorted.drop i

/-- The first run of a list and the other items. The run has at least so many items, unless the list
is shorter. -/
def firstRun (least : Nat) (as : List α) : List α × List α :=
  let (run, others) := leadingRun less as
  let missing := least - run.length
  ((others.take missing).foldl (insert less) run, others.drop missing)

/-! ### Nothing is lost -/

theorem append_splitRun (next : α → α → Bool) (as : List α) :
    (splitRun next as).1 ++ (splitRun next as).2 = as := by
  fun_induction splitRun next as with
  | case1 a b rest _ run others h ih => rw [h] at ih; simp [ih]
  | case2 => rfl
  | case3 => simp

theorem splitRun_ne_nil (next : α → α → Bool) (a : α) (as : List α) :
    (splitRun next (a :: as)).1 ≠ [] := by
  cases as with
  | nil => simp [splitRun]
  | cons b rest => rw [splitRun]; split <;> simp

theorem leadingRun_perm (as : List α) :
    ((leadingRun less as).1 ++ (leadingRun less as).2).Perm as := by
  unfold leadingRun
  split
  · split
    · exact ((List.reverse_perm _).append_right _).trans (.of_eq (append_splitRun ..))
    · exact .of_eq (append_splitRun ..)
  · simp

theorem leadingRun_ne_nil (a : α) (as : List α) : (leadingRun less (a :: as)).1 ≠ [] := by
  unfold leadingRun
  split
  · split
    · simpa using splitRun_ne_nil _ _ _
    · exact splitRun_ne_nil _ _ _
  · simp

theorem insert_perm (sorted : List α) (a : α) : (insert less sorted a).Perm (a :: sorted) := by
  refine List.perm_middle.trans ?_
  rw [List.take_append_drop]

theorem foldl_insert_perm (as sorted : List α) :
    (as.foldl (insert less) sorted).Perm (sorted ++ as) := by
  induction as generalizing sorted with
  | nil => simp
  | cons a as ih =>
    refine (ih _).trans (((insert_perm less sorted a).append_right as).trans ?_)
    exact List.perm_middle.symm

theorem firstRun_perm (least : Nat) (as : List α) :
    ((firstRun less least as).1 ++ (firstRun less least as).2).Perm as := by
  refine .trans ?_ (leadingRun_perm less as)
  simp only [firstRun]
  refine ((foldl_insert_perm less _ _).append_right _).trans ?_
  rw [List.append_assoc, List.take_append_drop]

/-- The first run takes at least one item. -/
theorem length_firstRun_lt (least : Nat) (a : α) (as : List α) :
    (firstRun less least (a :: as)).2.length < (a :: as).length := by
  have hp := (leadingRun_perm less (a :: as)).length_eq
  have hn := List.length_pos_iff.2 (leadingRun_ne_nil less a as)
  simp only [List.length_append] at hp
  simp only [firstRun, List.length_drop]
  omega

/-! ### All runs -/

/-- The runs of a list, each but the last of at least so many items. -/
def runs (least : Nat) : List α → List (List α)
  | [] => []
  | a :: as =>
    (firstRun less least (a :: as)).1 :: runs least (firstRun less least (a :: as)).2
termination_by as => as.length
decreasing_by exact length_firstRun_lt less least a as

/-- The runs hold the items of the list. -/
theorem runs_perm (least : Nat) (as : List α) : (runs less least as).flatten.Perm as := by
  fun_induction runs less least as with
  | case1 => exact .refl _
  | case2 a as ih => exact (ih.append_left _).trans (firstRun_perm less least (a :: as))

end ContractCoverage.Sorting
