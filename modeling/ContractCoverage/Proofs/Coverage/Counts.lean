import ContractCoverage.Coverage.RangeTable
import ContractCoverage.Proofs.Data.Lookup
import Mathlib.Algebra.BigOperators.Group.List.Basic

/-! The counters of a fragment, read key by key.

`counts` are the four values that a fragment has under an identifier, each of them
missing when the fragment does not list it. Counts add up to a commutative monoid, and
merging is addition in it (`counts_merge`). So whatever is merged in whatever order,
its counters are a sum, and sums do not depend on the order. -/
namespace ContractCoverage

/-! ### Adding up arms -/

theorem padCounts_cons (x : Int) (a : List Int) (n : Nat) :
    padCounts (x :: a) (n + 1) = x :: padCounts a n := by
  simp [padCounts]

theorem addCounts_nil_left (b : List Int) : addCounts [] b = b := by
  induction b with
  | nil => rfl
  | cons y b ih =>
    simp only [addCounts, padCounts, List.length_nil, List.nil_append, List.length_cons,
      Nat.zero_max, Nat.sub_zero, Nat.sub_self, List.replicate_zero, List.append_nil,
      List.replicate_succ, List.zipWith_cons_cons, Int.zero_add] at ih ⊢
    rw [ih]

theorem addCounts_cons_cons (x y : Int) (a b : List Int) :
    addCounts (x :: a) (y :: b) = (x + y) :: addCounts a b := by
  have hlength : max (x :: a).length (y :: b).length = max a.length b.length + 1 := by
    simp only [List.length_cons]
    omega
  simp only [addCounts, hlength, padCounts_cons, List.zipWith_cons_cons]

theorem addCounts_comm (a b : List Int) : addCounts a b = addCounts b a := by
  simp only [addCounts, Nat.max_comm a.length b.length]
  exact List.zipWith_comm_of_comm Int.add_comm

theorem addCounts_nil_right (a : List Int) : addCounts a [] = a := by
  rw [addCounts_comm, addCounts_nil_left]

theorem addCounts_assoc (a b c : List Int) :
    addCounts (addCounts a b) c = addCounts a (addCounts b c) := by
  induction a generalizing b c with
  | nil => rw [addCounts_nil_left, addCounts_nil_left]
  | cons x a ih =>
    cases b with
    | nil => rw [addCounts_nil_right, addCounts_nil_left]
    | cons y b =>
      cases c with
      | nil => rw [addCounts_nil_right, addCounts_nil_right]
      | cons z c => simp only [addCounts_cons_cons, ih, Int.add_assoc]

/-- Adding no hits makes room for arms and changes no count. -/
theorem addCounts_replicate_zero (a : List Int) (n : Nat) :
    addCounts a (List.replicate n 0) = padCounts a n := by
  induction a generalizing n with
  | nil =>
    rw [addCounts_nil_left, padCounts, List.length_nil, Nat.sub_zero]
    rfl
  | cons x a ih =>
    cases n with
    | zero =>
      rw [List.replicate_zero, addCounts_nil_right, padCounts, Nat.zero_sub, List.replicate_zero,
        List.append_nil]
    | succ n => rw [List.replicate_succ, addCounts_cons_cons, ih, padCounts_cons, Int.add_zero]

/-! ### Counts under one identifier -/

/-- The counters of a statement, of the arms of a branch, of a function and of a line. -/
@[ext] structure Counts where
  statement : Option Int := none
  branch : Option (List Int) := none
  function : Option Int := none
  line : Option Int := none
  deriving DecidableEq

namespace Counts

instance : Zero Counts := ⟨{}⟩

/-- Counters that are there on both sides add up; one that is missing on a side is the other's. -/
instance : Add Counts where
  add a b :=
    { statement := a.statement.merge (· + ·) b.statement
      branch := a.branch.merge addCounts b.branch
      function := a.function.merge (· + ·) b.function
      line := a.line.merge (· + ·) b.line }

theorem merge_comm {α : Type} {f : α → α → α} (h : ∀ a b, f a b = f b a) (x y : Option α) :
    x.merge f y = y.merge f x := by
  cases x <;> cases y <;> simp [h]

theorem merge_assoc {α : Type} {f : α → α → α} (h : ∀ a b c, f (f a b) c = f a (f b c))
    (x y z : Option α) : (x.merge f y).merge f z = x.merge f (y.merge f z) := by
  cases x <;> cases y <;> cases z <;> simp [h]

instance : AddCommMonoid Counts where
  add_assoc a b c := Counts.ext (merge_assoc Int.add_assoc ..) (merge_assoc addCounts_assoc ..)
    (merge_assoc Int.add_assoc ..) (merge_assoc Int.add_assoc ..)
  zero_add a := Counts.ext Option.merge_none_left Option.merge_none_left Option.merge_none_left
    Option.merge_none_left
  add_zero a := Counts.ext Option.merge_none_right Option.merge_none_right Option.merge_none_right
    Option.merge_none_right
  add_comm a b := Counts.ext (merge_comm Int.add_comm ..) (merge_comm addCounts_comm ..)
    (merge_comm Int.add_comm ..) (merge_comm Int.add_comm ..)
  nsmul := nsmulRec

end Counts

/-! ### Counts of a fragment -/

namespace Fragment

/-- What a fragment counts under an identifier. -/
def counts (f : Fragment) (k : Ident) : Counts where
  statement := f.statements.get? k
  branch := f.branches.get? k
  function := f.functions.get? k
  line := f.lines.get? k

/-- Two fragments list the same keys with the same counters, and branches with as many arms. -/
def SameCounts (a b : Fragment) : Prop := ∀ k, a.counts k = b.counts k

theorem SameCounts.statement {a b : Fragment} (h : a.SameCounts b) (k : Ident) :
    a.statements.get? k = b.statements.get? k := congrArg Counts.statement (h k)

theorem get?_addCounters (a b : KeyedList Ident Int) (k : Ident) :
    (addCounters a b).get? k = (a.get? k).merge (· + ·) (b.get? k) :=
  KeyedList.get?_mergeWith (fun n => Int.zero_add n) (fun _ _ => rfl) a b k

theorem get?_addBranches (a b : KeyedList Ident (List Int)) (k : Ident) :
    (addBranches a b).get? k = (a.get? k).merge addCounts (b.get? k) :=
  KeyedList.get?_mergeWith addCounts_nil_left (fun _ _ => rfl) a b k

/-- Identifiers that are listed without hits have none. -/
theorem get?_zeros {keys : List Ident} {k : Ident} {n : Int}
    (h : (RangeTable.zeros keys).get? k = some n) : n = 0 := by
  obtain ⟨a, ha⟩ := KeyedList.mem_of_get?_ofList h
  obtain ⟨key, -, he⟩ := List.mem_map.1 ha
  cases he
  rfl

/-- Merging fragments adds up what they count. -/
theorem counts_merge (a b : Fragment) (k : Ident) :
    (a.merge b).counts k = a.counts k + b.counts k :=
  Counts.ext (get?_addCounters ..) (get?_addBranches ..) (get?_addCounters ..)
    (get?_addCounters ..)

/-- What a total counts after any number of fragments has been merged into it. -/
theorem counts_foldl_merge (total : Fragment) (fs : List Fragment) (k : Ident) :
    (fs.foldl merge total).counts k = total.counts k + (fs.map (·.counts k)).sum := by
  induction fs generalizing total with
  | nil => exact (add_zero _).symm
  | cons f fs ih => rw [List.foldl_cons, ih, counts_merge, List.map_cons, List.sum_cons, add_assoc]

/-! ### What hits keep -/

/-- A hit keeps what is kept when the key of its target is counted, its lines and the arm that it is
linked to. -/
theorem hit_keeps {P : Fragment → Prop} {f : Fragment} {t : Target} {n : Int}
    (hkey : P (f.hitKey t.key n).1) (hlines : ∀ own, P own → P (own.hitLines t.lines n))
    (harm : ∀ own a, t.parent = some a → P own → P (own.hitArm a n).1) : P (f.hit t n).1 := by
  unfold hit
  split
  · next own _ he => rwa [he] at hkey
  · next own he =>
    rw [he] at hkey
    have hcounted := hlines own hkey
    cases hparent : t.parent with
    | none => exact hcounted
    | some a => exact harm _ a hparent hcounted

/-- Hits keep what each of them keeps. -/
theorem hitAll_keeps {P : Fragment → Prop} {f g : Fragment} {hits : List (Target × Int)} (hf : P f)
    (hstep : ∀ own, P own → ∀ hit ∈ hits, P (own.hit hit.1 hit.2).1)
    (h : f.hitAll hits = .ok g) : P g := by
  induction hits generalizing f with
  | nil =>
    cases h
    exact hf
  | cons hit hits ih =>
    have hfirst := hstep f hf hit (List.mem_cons_self ..)
    rw [hitAll] at h
    split at h
    · next own he =>
      rw [he] at hfirst
      exact ih hfirst (fun own hown hit hmem => hstep own hown hit (List.mem_cons_of_mem _ hmem)) h
    · cases h

/-! ### Places -/

/-- Two fragments say the same of where statements, functions and branches are. -/
structure SamePlaces (a b : Fragment) : Prop where
  statements : a.statementMap = b.statementMap
  functions : a.functionMap = b.functionMap
  branches : a.branchMap = b.branchMap

theorem SamePlaces.refl (f : Fragment) : f.SamePlaces f := ⟨rfl, rfl, rfl⟩

theorem SamePlaces.symm {a b : Fragment} (h : a.SamePlaces b) : b.SamePlaces a :=
  ⟨h.statements.symm, h.functions.symm, h.branches.symm⟩

theorem SamePlaces.trans {a b c : Fragment} (h : a.SamePlaces b) (h' : b.SamePlaces c) :
    a.SamePlaces c :=
  ⟨h.statements.trans h'.statements, h.functions.trans h'.functions, h.branches.trans h'.branches⟩

theorem samePlaces_hitArm (f : Fragment) (a : BranchArm) (n : Int) :
    (f.hitArm a n).1.SamePlaces f := by
  unfold hitArm
  split <;> exact ⟨rfl, rfl, rfl⟩

theorem samePlaces_hitKey (f : Fragment) (key : TargetKey) (n : Int) :
    (f.hitKey key n).1.SamePlaces f := by
  unfold hitKey
  split
  · exact .refl f
  · cases key with
    | statement => exact ⟨rfl, rfl, rfl⟩
    | function => exact ⟨rfl, rfl, rfl⟩
    | branch id arm => exact samePlaces_hitArm ..

/-- A hit counts and does not tell where anything is. -/
theorem samePlaces_hit (f : Fragment) (t : Target) (n : Int) : (f.hit t n).1.SamePlaces f := by
  refine hit_keeps (P := fun g => g.SamePlaces f) (samePlaces_hitKey f t.key n) ?_ ?_
  · exact fun own hown => ⟨hown.1, hown.2, hown.3⟩
  · exact fun own a _ hown => (samePlaces_hitArm own a n).trans hown

theorem samePlaces_hitAll {f f' : Fragment} {hits : List (Target × Int)}
    (h : f.hitAll hits = .ok f') : f'.SamePlaces f :=
  hitAll_keeps (P := fun g => g.SamePlaces f) (.refl f)
    (fun own hown hit _ => (samePlaces_hit own hit.1 hit.2).trans hown) h

theorem union_empty {ν : Type} (a : KeyedList Ident ν) : union a .empty = a :=
  KeyedList.empty_mergeWith (fun _ => rfl) a

/-- Merging with a fragment that knows no places leaves them as they are. -/
theorem samePlaces_merge (a : Fragment) {b : Fragment} (h : b.SamePlaces {}) :
    (a.merge b).SamePlaces a := by
  refine ⟨?_, ?_, ?_⟩
  · show union a.statementMap b.statementMap = _
    rw [h.statements]
    exact union_empty _
  · show union a.functionMap b.functionMap = _
    rw [h.functions]
    exact union_empty _
  · show union a.branchMap b.branchMap = _
    rw [h.branches]
    exact union_empty _

/-! ### Paths -/

theorem path_hitArm (f : Fragment) (a : BranchArm) (n : Int) : (f.hitArm a n).1.path = f.path := by
  unfold hitArm
  split <;> rfl

theorem path_hitKey (f : Fragment) (key : TargetKey) (n : Int) :
    (f.hitKey key n).1.path = f.path := by
  unfold hitKey
  split
  · rfl
  · cases key with
    | statement => rfl
    | function => rfl
    | branch id arm => exact path_hitArm ..

/-- A hit does not change the path. -/
theorem path_hit (f : Fragment) (t : Target) (n : Int) : (f.hit t n).1.path = f.path := by
  refine hit_keeps (P := fun g => g.path = f.path) (path_hitKey f t.key n) ?_ ?_
  · exact fun own hown => hown
  · exact fun own a _ hown => (path_hitArm own a n).trans hown

theorem path_hitAll {f f' : Fragment} {hits : List (Target × Int)} (h : f.hitAll hits = .ok f') :
    f'.path = f.path :=
  hitAll_keeps (P := fun g => g.path = f.path) rfl
    (fun own hown hit _ => (path_hit own hit.1 hit.2).trans hown) h

theorem firstPath_self (path : Option String) : firstPath path path = path := by
  unfold firstPath
  split
  · split <;> rfl
  · rfl

end Fragment

end ContractCoverage
