import ContractCoverage.Data.Sorting.Merge
import ContractCoverage.Data.Sorting.Run

/-! Sorting by merging runs.

A list is cut into runs, and neighbouring runs are merged until one is left. Which runs
are merged first follows from where they lie: the boundary between two runs has a depth,
and a boundary that lies deeper than the next one is merged away first. Nothing is lost,
whatever the order is (`sort_perm`), and items that cannot be told apart keep their
order. When the order is none, since some items come neither before nor after anything,
the result is what these steps make of it. -/
namespace ContractCoverage.Sorting

variable {α : Type} (less : α → α → Bool)

/-- The least length of a run in a list of so many items: at most 64, such that the number of runs
is near a power of two. -/
def leastRun (n : Nat) : Nat :=
  let shift := n.log2 - 5
  (n + ((1 <<< shift) - 1)) >>> shift

/-- How deep the boundary between two neighbouring runs lies: the number of the first binary digit
in which their middles differ, as fractions of the whole list. -/
def depth (whole start length next : Nat) : Nat :=
  let a := 2 * start + length
  let b := a + length + next
  let differ := fun (k : Nat) => (a <<< k) / whole != (b <<< k) / whole
  ((List.range (whole.log2 + 1)).find? differ).getD 0

/-- Runs that wait to be merged: the last one, and those before it from the last to the first, each
with the depth of the boundary behind it. -/
structure Waiting (α : Type) where
  before : List (List α × Nat)
  last : List α
  patience : Nat

/-- Merges the last runs as long as their boundary lies deeper than a given one. -/
def collapse (depth : Nat) (before : List (List α × Nat)) (last : List α) (patience : Nat) :
    Waiting α :=
  match before with
  | [] => ⟨[], last, patience⟩
  | (run, d) :: rest =>
    if depth < d then
      let merged := mergeRuns less patience run last
      collapse depth rest merged.1 merged.2
    else ⟨(run, d) :: rest, last, patience⟩

/-- Adds runs, the first of which begins at `start`, in a list of `whole` items. -/
def await (whole start : Nat) (w : Waiting α) : List (List α) → Waiting α
  | [] => w
  | run :: runs =>
    let d := depth whole (start - w.last.length) w.last.length run.length
    let c := collapse less d w.before w.last w.patience
    await whole (start + run.length) ⟨(c.last, d) :: c.before, run, c.patience⟩ runs

/-- Merges all runs from the last one on. A run that is shorter than the one after the next is first
merged with the next one. -/
def finish (before : List (List α × Nat)) (last : List α) (patience : Nat) : List α :=
  match before with
  | [] => last
  | [(a, _)] => (mergeRuns less patience a last).1
  | (b, _) :: (a, d) :: rest =>
    if a.length < last.length then
      let merged := mergeRuns less patience a b
      finish ((merged.1, d) :: rest) last merged.2
    else
      let merged := mergeRuns less patience b last
      finish ((a, d) :: rest) merged.1 merged.2
termination_by before.length

/-- The items of a list in order. -/
def sort (as : List α) : List α :=
  match runs less (leastRun as.length) as with
  | [] => []
  | run :: rest =>
    let w := await less as.length run.length ⟨[], run, longStretch⟩ rest
    finish less w.before w.last w.patience

/-! ### Nothing is lost -/

/-- The items of runs that come from the last to the first, each with a depth. -/
def itemsBefore (before : List (List α × Nat)) : List α :=
  (before.map (·.1)).reverse.flatten

theorem itemsBefore_cons (run : List α) (d : Nat) (before : List (List α × Nat)) :
    itemsBefore ((run, d) :: before) = itemsBefore before ++ run := by
  simp [itemsBefore]

/-- The items of runs that wait. -/
def Waiting.items (w : Waiting α) : List α := itemsBefore w.before ++ w.last

theorem items_collapse_perm (depth : Nat) (before : List (List α × Nat)) (last : List α)
    (patience : Nat) :
    (collapse less depth before last patience).items.Perm (itemsBefore before ++ last) := by
  fun_induction collapse less depth before last patience with
  | case1 => exact .refl _
  | case2 last patience run d rest h merged ih =>
    refine ih.trans (((mergeRuns_perm less patience run last).append_left _).trans (.of_eq ?_))
    rw [itemsBefore_cons, List.append_assoc]
  | case3 => exact .refl _

theorem items_await_perm (whole start : Nat) (w : Waiting α) (runs : List (List α)) :
    (await less whole start w runs).items.Perm (w.items ++ runs.flatten) := by
  fun_induction await less whole start w runs with
  | case1 => simp
  | case2 start w run runs d c ih =>
    refine ih.trans ?_
    have hc : c.items.Perm w.items := items_collapse_perm less d w.before w.last w.patience
    simp only [Waiting.items, itemsBefore_cons, List.flatten_cons, List.append_assoc] at hc ⊢
    simpa only [List.append_assoc] using hc.append_right (run ++ runs.flatten)

theorem finish_perm (before : List (List α × Nat)) (last : List α) (patience : Nat) :
    (finish less before last patience).Perm (itemsBefore before ++ last) := by
  fun_induction finish less before last patience with
  | case1 => exact .refl _
  | case2 last patience a => simpa [itemsBefore] using mergeRuns_perm less patience a last
  | case3 last patience b _ a d rest h merged ih =>
    refine ih.trans ?_
    simp only [itemsBefore_cons, List.append_assoc]
    have hm := (mergeRuns_perm less patience a b).append_right last
    rw [List.append_assoc] at hm
    exact hm.append_left _
  | case4 last patience b _ a d rest h merged ih =>
    refine ih.trans ?_
    simp only [itemsBefore_cons, List.append_assoc]
    exact ((mergeRuns_perm less patience b last).append_left a).append_left _

/-- Sorting keeps every item. -/
theorem sort_perm (as : List α) : (sort less as).Perm as := by
  have hr := runs_perm less (leastRun as.length) as
  unfold sort
  split
  · next h => simpa [h] using hr
  · next run rest h =>
    rw [h] at hr
    exact (finish_perm less _ _ _).trans ((items_await_perm less _ _ _ rest).trans hr)

end ContractCoverage.Sorting
