import Mathlib.Data.List.SplitBy

/-! Maximal runs.

A run is a longest piece of a list on which a property holds throughout. Every run has
one item at which it begins: one with the property whose predecessor lacks it, or that
has none. Counting these gives the number of runs (`length_runs`), and this is how runs
are counted while a list is gone through; those that have a second property give the number
of runs that begin with such an item (`countP_runs_head`). -/
namespace ContractCoverage

variable {α : Type}

/-- The maximal runs of a property: the longest pieces of a list whose neighbours agree about it,
where it holds. -/
def runs (p : α → Bool) (l : List α) : List (List α) :=
  (l.splitBy fun a b => p a == p b).filter (·.all p)

/-- The number of items at which a run begins, given whether the property held before the list. -/
def runStarts (p : α → Bool) (before : Bool) : List α → Nat
  | [] => 0
  | a :: l => (if p a && !before then 1 else 0) + runStarts p (p a) l

/-- The number of items at which a run begins and that have a second property, given whether the
first one held before the list. -/
def runHeads (p q : α → Bool) (before : Bool) : List α → Nat
  | [] => 0
  | a :: l => (if p a && !before && q a then 1 else 0) + runHeads p q (p a) l

/-- A piece whose items agree with one of them satisfies the property when that one does. -/
theorem all_of_agree (p : α → Bool) {b : α} {piece : List α} (h : ∀ x ∈ piece, p x = p b) :
    (b :: piece).reverse.all p = p b := by
  rw [List.all_reverse, List.all_cons]
  cases hb : p b with
  | false => rfl
  | true =>
    rw [Bool.true_and, List.all_eq_true]
    intro x hx
    rw [h x hx, hb]

/-- Part way through the splitting: the finished pieces, the piece of `b`, whose items come last one
first, and the rest. -/
theorem countP_splitBy_loop (p q : α → Bool) (l : List α) (b : α) (piece : List α)
    (done : List (List α)) (h : ∀ x ∈ piece, p x = p b) :
    (List.splitBy.loop (fun a b => p a == p b) l b piece done).countP
        (fun piece => piece.all p && piece.head?.any q) =
      done.countP (fun piece => piece.all p && piece.head?.any q) +
        (if p b && (b :: piece).reverse.head?.any q then 1 else 0) + runHeads p q (p b) l := by
  induction l generalizing b piece done with
  | nil =>
    rw [List.splitBy.loop, List.countP_reverse, List.countP_cons, all_of_agree p h]
    rfl
  | cons a l ih =>
    rw [List.splitBy.loop]
    split
    · next heq =>
      have hab : p b = p a := by simpa using heq
      have hpiece : ∀ x ∈ b :: piece, p x = p a := by
        intro x hx
        rcases List.mem_cons.1 hx with rfl | hx
        · exact hab
        · exact (h x hx).trans hab
      have hfirst : (a :: b :: piece).reverse.head? = (b :: piece).reverse.head? := by
        rw [List.reverse_cons (a := a), List.head?_append_of_ne_nil _ (by simp)]
      rw [ih a (b :: piece) done hpiece, runHeads, hab, hfirst]
      cases p a <;> simp
    · next hne =>
      have hab : p b = !p a := by
        cases hb : p b <;> cases ha : p a <;> simp_all
      rw [ih a [] _ (fun x hx => absurd hx List.not_mem_nil), List.countP_cons, all_of_agree p h,
        runHeads, hab]
      cases p a with
      | true => simp [Nat.add_assoc]
      | false => simp

/-- The runs whose first item has a second property are as many as the places where one begins with
such an item. -/
theorem countP_runs_head (p q : α → Bool) (l : List α) :
    (runs p l).countP (·.head?.any q) = runHeads p q false l := by
  rw [runs, List.countP_filter]
  simp only [Bool.and_comm (_ : Bool) (List.all _ p)]
  cases l with
  | nil => rfl
  | cons a l =>
    have h := countP_splitBy_loop p q l a [] [] (fun x hx => absurd hx List.not_mem_nil)
    rw [List.splitBy, h, runHeads]
    cases p a <;> simp

theorem runHeads_true (p : α → Bool) (before : Bool) (l : List α) :
    runHeads p (fun _ => true) before l = runStarts p before l := by
  induction l generalizing before with
  | nil => rfl
  | cons a l ih => rw [runHeads, runStarts, ih, Bool.and_true]

theorem runHeads_eq_zero {p : α → Bool} (q : α → Bool) {l : List α} (h : l.any p = false)
    (before : Bool) : runHeads p q before l = 0 := by
  induction l generalizing before with
  | nil => rfl
  | cons a l ih =>
    rw [List.any_cons, Bool.or_eq_false_iff] at h
    rw [runHeads, h.1, ih h.2]
    rfl

/-- At the beginning of a run its property need not be asked for again. -/
theorem runHeads_and (p q : α → Bool) (before : Bool) (l : List α) :
    runHeads p (fun a => p a && q a) before l = runHeads p q before l := by
  induction l generalizing before with
  | nil => rfl
  | cons a l ih =>
    rw [runHeads, runHeads, ih]
    cases p a <;> simp

/-- There are as many runs as places where one begins. -/
theorem length_runs (p : α → Bool) (l : List α) : (runs p l).length = runStarts p false l := by
  rw [← runHeads_true, ← countP_runs_head, eq_comm, List.countP_eq_length]
  intro run hrun
  have hne := List.ne_nil_of_mem_splitBy (List.mem_filter.1 hrun).1
  rw [List.head?_eq_some_head hne, Option.any_some]

example : (runs (· < 3) [1, 2, 5, 0, 7, 8, 2]).length = 3 := by decide

theorem runStarts_map {β : Type} (f : β → α) (p : α → Bool) (before : Bool) (l : List β) :
    runStarts p before (l.map f) = runStarts (p ∘ f) before l := by
  induction l generalizing before with
  | nil => rfl
  | cons b l ih => exact congrArg _ (ih _)

/-- There is no run exactly when no item has the property. -/
theorem runStarts_eq_zero_iff (p : α → Bool) (l : List α) :
    runStarts p false l = 0 ↔ l.any p = false := by
  induction l with
  | nil => simp [runStarts]
  | cons a l ih =>
    rw [runStarts, List.any_cons]
    cases ha : p a with
    | true => simp
    | false => simpa using ih

end ContractCoverage
