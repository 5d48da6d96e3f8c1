import ContractCoverage.Proofs.Coverage.Counts
import ContractCoverage.Proofs.Data.Merging

/-! Merging fragments is a commutative monoid, as far as fragments are compared.

Two fragments compare equal when they list the same keys with the same counters, and
branches with as many arms (`sameCounters_iff`); where things are and which file is meant
does not matter for that. So merging is commutative (`sameCounters_merge_comm`), although the
first of two fragments decides on what both have a place for.

It is associative on everything, the order of the entries included (`merge_assoc`), and the
fragment with nothing in it leaves the other one as it is, with one exception: a path that
is the empty text counts as missing, and is missing afterwards when nothing is merged behind
it (`merge_empty`). -/
namespace ContractCoverage.Fragment

/-! ### Comparing -/

/-- Fragments compare equal exactly when they count the same under every identifier. -/
theorem sameCounters_iff {a b : Fragment} : a.sameCounters b = true ↔ a.SameCounts b := by
  unfold sameCounters SameCounts
  simp only [Bool.and_eq_true, KeyedList.same_iff, Counts.ext_iff, counts, forall_and, and_assoc]

theorem sameCounters_merge_comm (a b : Fragment) : (a.merge b).sameCounters (b.merge a) = true := by
  refine sameCounters_iff.2 fun k => ?_
  rw [counts_merge, counts_merge, add_comm]

/-! ### Three fragments -/

theorem firstPath_assoc (a b c : Option String) :
    firstPath (firstPath a b) c = firstPath a (firstPath b c) := by
  cases a with
  | none => rfl
  | some path =>
    unfold firstPath
    cases h : path.isEmpty <;> simp [h]

theorem addCounters_assoc (a b c : KeyedList Ident Int) :
    addCounters (addCounters a b) c = addCounters a (addCounters b c) :=
  KeyedList.mergeWith_assoc (fun n => Int.zero_add n) (fun _ _ => rfl) Int.add_assoc a b c

theorem addBranches_assoc (a b c : KeyedList Ident (List Int)) :
    addBranches (addBranches a b) c = addBranches a (addBranches b c) :=
  KeyedList.mergeWith_assoc addCounts_nil_left (fun _ _ => rfl) addCounts_assoc a b c

/-- The first list decides, so the lists are merged from the last one on. -/
theorem union_assoc {ν : Type} (a b c : KeyedList Ident ν) :
    union (union a b) c = union a (union b c) :=
  (KeyedList.mergeWith_assoc (fun _ => rfl) (fun _ _ => rfl) (fun _ _ _ => rfl) c b a).symm

theorem merge_assoc (a b c : Fragment) : (a.merge b).merge c = a.merge (b.merge c) := by
  simp only [merge, firstPath_assoc, addCounters_assoc, addBranches_assoc, union_assoc]

/-! ### Nothing -/

theorem empty_addCounters (a : KeyedList Ident Int) : addCounters .empty a = a :=
  KeyedList.empty_mergeWith (fun n => Int.zero_add n) a

theorem empty_addBranches (a : KeyedList Ident (List Int)) : addBranches .empty a = a :=
  KeyedList.empty_mergeWith addCounts_nil_left a

theorem empty_merge (a : Fragment) : ({} : Fragment).merge a = a := by
  simp only [merge, empty_addCounters, empty_addBranches]
  rfl

/-- A path that is the empty text is not kept. -/
theorem firstPath_none (path : Option String) :
    firstPath path none = path.filter fun path => !path.isEmpty := by
  cases path with
  | none => rfl
  | some path =>
    unfold firstPath
    cases h : path.isEmpty <;> simp [Option.filter, h]

theorem merge_empty (a : Fragment) :
    a.merge {} = { a with path := a.path.filter fun path => !path.isEmpty } := by
  simp only [merge, firstPath_none, union_empty]
  rfl

/-- **Merging is a commutative monoid.** -/
theorem merge_laws (a b c : Fragment) :
    (a.merge b).merge c = a.merge (b.merge c) ∧
      (a.merge b).sameCounters (b.merge a) = true ∧
      ({} : Fragment).merge a = a ∧ (a.merge {}).sameCounters a = true ∧
      a.merge {} = { a with path := a.path.filter fun path => !path.isEmpty } := by
  refine ⟨merge_assoc a b c, sameCounters_merge_comm a b, empty_merge a, ?_, merge_empty a⟩
  rw [merge_empty]
  exact sameCounters_iff.2 fun _ => rfl

/-- Nothing, merged behind a fragment whose path is the empty text, takes the path away. -/
theorem merge_empty_ne_of_emptyPath :
    ({ path := some "" } : Fragment).merge {} ≠ { path := some "" } := by
  rw [merge_empty]
  intro h
  cases congrArg Fragment.path h

end ContractCoverage.Fragment
