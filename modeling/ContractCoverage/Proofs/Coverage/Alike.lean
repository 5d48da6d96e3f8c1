import ContractCoverage.Proofs.Coverage.Apart
import Mathlib.Algebra.Ring.Int.Defs

/-! Hits of the same targets in other numbers.

Whether hits can be counted, and which counters and how many arms there are afterwards,
does not depend on how many hits there are of each target (`hitAll_alike`): where the
numbers are related by something that adding up respects, so are the counters. This holds
of all arms, also of those that count from the end. How many hits of arms of a branch
there are in all, is seen in the sum of its arms (`armSum_hitAll`). -/
namespace ContractCoverage

/-- A relation between numbers that adding up respects. -/
structure Additive (r : Int → Int → Prop) : Prop where
  zero : r 0 0
  add {a b c d : Int} : r a b → r c d → r (a + c) (b + d)

theorem additive_eq : Additive Eq := ⟨rfl, fun h h' => h ▸ h' ▸ rfl⟩

theorem additive_true : Additive fun _ _ => True := ⟨trivial, fun _ _ => trivial⟩

/-! ### Counters that are alike -/

/-- There are the same counters and as many arms, and their numbers are related. -/
structure Counts.Alike (r : Int → Int → Prop) (c c' : Counts) : Prop where
  statement : Option.Rel r c.statement c'.statement
  branch : Option.Rel (List.Forall₂ r) c.branch c'.branch
  function : Option.Rel r c.function c'.function
  line : Option.Rel r c.line c'.line

theorem eq_of_rel_eq {α : Type} {x y : Option α} (h : Option.Rel Eq x y) : x = y := by
  cases h with
  | some h => exact congrArg some h
  | none => rfl

theorem rel_same {α : Type} {q : α → α → Prop} (h : ∀ a, q a a) (x : Option α) :
    Option.Rel q x x := by
  cases x with
  | none => exact .none
  | some a => exact .some (h a)

theorem Counts.Alike.eq {c c' : Counts} (h : c.Alike Eq c') : c = c' := by
  refine Counts.ext (eq_of_rel_eq h.statement) ?_ (eq_of_rel_eq h.function) (eq_of_rel_eq h.line)
  refine eq_of_rel_eq ?_
  rw [← List.forall₂_eq_eq_eq]
  exact h.branch

section Related
variable {r : Int → Int → Prop} (hr : Additive r)
include hr

theorem rel_getD {x y : Option Int} (h : Option.Rel r x y) : r (x.getD 0) (y.getD 0) := by
  cases h with
  | some h => exact h
  | none => exact hr.zero

/-- A counter and its counterpart after related numbers of hits. -/
theorem rel_bump {counters counters' : KeyedList Ident Int} {id id' : Ident} {n n' : Int}
    (h : ∀ k, Option.Rel r (counters.get? k) (counters'.get? k)) (hid : (id == id') = true)
    (hn : r n n') (k : Ident) :
    Option.Rel r ((Fragment.bump counters id n).get? k)
      ((Fragment.bump counters' id' n').get? k) := by
  rw [Fragment.get?_bump, Fragment.get?_bump, BEq.congr_left (c := k) hid]
  split
  · exact .some (hr.add (rel_getD hr (h k)) hn)
  · exact h k

theorem forall₂_padCounts {counts counts' : List Int} (h : List.Forall₂ r counts counts')
    (length : Nat) : List.Forall₂ r (padCounts counts length) (padCounts counts' length) := by
  unfold padCounts
  rw [h.length_eq]
  refine List.rel_append h (List.forall₂_same.2 fun n hn => ?_)
  rw [List.eq_of_mem_replicate hn]
  exact hr.zero

theorem forall₂_modify {counts counts' : List Int} (h : List.Forall₂ r counts counts') (place : Nat)
    {n n' : Int} (hn : r n n') :
    List.Forall₂ r (counts.modify place (· + n)) (counts'.modify place (· + n')) := by
  induction h generalizing place with
  | nil => cases place <;> exact .nil
  | cons hab hrest ih =>
    cases place with
    | zero => exact .cons (hr.add hab hn) hrest
    | succ place => exact .cons hab (ih place)

theorem forall₂_bumpArm {counts counts' : List Int} (h : List.Forall₂ r counts counts') (arm : Int)
    {n n' : Int} (hn : r n n') :
    List.Forall₂ r (bumpArm counts arm n) (bumpArm counts' arm n') := by
  unfold bumpArm
  rw [h.length_eq]
  cases armPlace? counts'.length arm with
  | none => exact h
  | some place => exact forall₂_modify hr (forall₂_padCounts hr h _) place hn

end Related

namespace Fragment

/-- Two fragments have the same counters and branches with as many arms, and their numbers are
related. -/
def Alike (r : Int → Int → Prop) (f g : Fragment) : Prop := ∀ k, (f.counts k).Alike r (g.counts k)

theorem Alike.sameCounts {f g : Fragment} (h : f.Alike Eq g) : f.SameCounts g := fun k => (h k).eq

theorem alike_same {r : Int → Int → Prop} (f : Fragment) (h : ∀ n, r n n) : f.Alike r f := fun _ =>
  ⟨rel_same h _, rel_same (fun _ => List.forall₂_same.2 fun n _ => h n) _, rel_same h _,
    rel_same h _⟩

/-! ### Hits in related numbers -/

theorem check_congr {id id' : Ident} (h : (id == id') = true) : id.check = id'.check := by
  rw [Ident.check, Ident.check, Ident.isKey_congr h]

section Hits
variable {r : Int → Int → Prop} (hr : Additive r) {f g : Fragment} {n n' : Int}

theorem Alike.forall₂_armCounts (h : f.Alike r g) {id id' : Ident} (hid : (id == id') = true) :
    List.Forall₂ r (f.armCounts id) (g.armCounts id') := by
  have hbranch : Option.Rel (List.Forall₂ r) (f.branches.get? id) (g.branches.get? id') :=
    g.branches.get?_congr hid ▸ (h id).branch
  unfold armCounts
  generalize f.branches.get? id = x at hbranch ⊢
  generalize g.branches.get? id' = y at hbranch ⊢
  cases hbranch with
  | none => exact .nil
  | some hcounts => exact hcounts

include hr
variable (h : f.Alike r g) (hn : r n n')
include h hn

theorem hitLines_alike (lines : List Int) : (f.hitLines lines n).Alike r (g.hitLines lines n') := by
  induction lines generalizing f g with
  | nil => exact h
  | cons line lines ih =>
    refine ih (f := f.hitLines [line] n) (g := g.hitLines [line] n') fun k => ?_
    exact ⟨(h k).statement, (h k).branch, (h k).function,
      rel_bump hr (fun k => (h k).line) BEq.rfl hn k⟩

theorem hitArm_alike {a a' : BranchArm} (hbranch : (a.branch == a'.branch) = true)
    (harm : a.arm = a'.arm) :
    (f.hitArm a n).2 = (g.hitArm a' n').2 ∧ (f.hitArm a n).1.Alike r (g.hitArm a' n').1 := by
  have harms := h.forall₂_armCounts hbranch
  have hhas : f.hasArm a = g.hasArm a' := by
    rw [hasArm, hasArm, harms.length_eq, harm]
  unfold hitArm
  rw [check_congr hbranch, hhas]
  cases a'.branch.check with
  | error fault => exact ⟨rfl, h⟩
  | ok _ =>
    refine ⟨rfl, fun k => ⟨(h k).statement, ?_, (h k).function, (h k).line⟩⟩
    show Option.Rel (List.Forall₂ r) ((f.branches.update a.branch _).get? k)
      ((g.branches.update a'.branch _).get? k)
    rw [KeyedList.get?_update, KeyedList.get?_update, BEq.congr_left (c := k) hbranch]
    split
    · rw [harm]
      exact .some (forall₂_bumpArm hr harms a'.arm hn)
    · exact (h k).branch

theorem hitKey_alike {key key' : TargetKey} (hkey : (key == key') = true) :
    (f.hitKey key n).2 = (g.hitKey key' n').2 ∧
      (f.hitKey key n).1.Alike r (g.hitKey key' n').1 := by
  have hid := TargetKey.id_beq_of_beq hkey
  have hkind := TargetKey.kind_eq_of_beq hkey
  have harm := TargetKey.arm?_eq_of_beq hkey
  unfold hitKey
  rw [check_congr hid]
  cases key'.id.check with
  | error fault => exact ⟨rfl, h⟩
  | ok _ =>
    cases key with
    | statement id arm =>
      cases key' with
      | statement id' arm' =>
        exact ⟨rfl, fun k => ⟨rel_bump hr (fun k => (h k).statement) hid hn k, (h k).branch,
          (h k).function, (h k).line⟩⟩
      | branch | function => simp [TargetKey.kind] at hkind
    | function id arm =>
      cases key' with
      | function id' arm' =>
        exact ⟨rfl, fun k => ⟨(h k).statement, (h k).branch,
          rel_bump hr (fun k => (h k).function) hid hn k, (h k).line⟩⟩
      | statement | branch => simp [TargetKey.kind] at hkind
    | branch id arm =>
      cases key' with
      | branch id' arm' => exact hitArm_alike hr h hn hid (Option.some.inj harm)
      | statement | function => simp [TargetKey.kind] at hkind

/-- Hits of a target under two of its names, in related numbers, fail alike, and they leave the same
counters. -/
theorem hit_alike {t t' : Target} (hsame : t.Same t') :
    (f.hit t n).2 = (g.hit t' n').2 ∧ (f.hit t n).1.Alike r (g.hit t' n').1 := by
  obtain ⟨hresult, hown⟩ := hitKey_alike hr h hn hsame.key
  unfold hit
  generalize f.hitKey t.key n = x at hresult hown
  generalize g.hitKey t'.key n' = y at hresult hown
  obtain ⟨own, result⟩ := x
  obtain ⟨own', result'⟩ := y
  obtain rfl : result = result' := hresult
  cases result with
  | error fault => exact ⟨rfl, hown⟩
  | ok _ =>
    have hcounted := hitLines_alike hr hown hn t.lines
    have hparent := hsame.parent
    rw [hsame.lines_eq] at hcounted ⊢
    generalize t.parent = p at hparent ⊢
    generalize t'.parent = p' at hparent ⊢
    cases hparent with
    | none => exact ⟨rfl, hcounted⟩
    | some hparent => exact hitArm_alike hr hcounted hn hparent.1 hparent.2

end Hits

/-- Hits of the same targets in related numbers are all counted, and leave the same counters, or are
refused for the same reason. -/
theorem hitAll_alike {r : Int → Int → Prop} (hr : Additive r) {f g : Fragment} (h : f.Alike r g)
    {hits hits' : List (Target × Int)}
    (hhits : List.Forall₂ (fun hit hit' => hit.1.Same hit'.1 ∧ r hit.2 hit'.2) hits hits') :
    (∃ total total', f.hitAll hits = .ok total ∧ g.hitAll hits' = .ok total' ∧
        total.Alike r total') ∨
      ∃ fault, f.hitAll hits = .error fault ∧ g.hitAll hits' = .error fault := by
  induction hhits generalizing f g with
  | nil => exact .inl ⟨f, g, rfl, rfl, h⟩
  | @cons hit hit' _ _ hfirst _ ih =>
    obtain ⟨hresult, hown⟩ := hit_alike hr h hfirst.2 hfirst.1
    rw [hitAll, hitAll]
    generalize f.hit hit.1 hit.2 = x at hresult hown
    generalize g.hit hit'.1 hit'.2 = y at hresult hown
    obtain ⟨own, result⟩ := x
    obtain ⟨own', result'⟩ := y
    obtain rfl : result = result' := hresult
    cases result with
    | error fault => exact .inr ⟨fault, rfl, rfl⟩
    | ok _ => exact ih hown

/-! ### All arms of a branch -/

/-- The hits of all arms of a branch. -/
def armSum (f : Fragment) (id : Ident) : Int := (f.armCounts id).sum

end Fragment

theorem sum_padCounts (counts : List Int) (length : Nat) :
    (padCounts counts length).sum = counts.sum := by
  have hzeros : (List.replicate (length - counts.length) (0 : Int)).sum = 0 :=
    List.sum_eq_zero fun n hn => List.eq_of_mem_replicate hn
  rw [padCounts, List.sum_append, hzeros, add_zero]

theorem sum_addCounts (a b : List Int) : (addCounts a b).sum = a.sum + b.sum := by
  induction a generalizing b with
  | nil => rw [addCounts_nil_left, List.sum_nil, zero_add]
  | cons x a ih =>
    cases b with
    | nil => rw [addCounts_nil_right, List.sum_nil, add_zero]
    | cons y b =>
      rw [addCounts_cons_cons, List.sum_cons, List.sum_cons, List.sum_cons, ih]
      omega

theorem sum_modify {counts : List Int} {place : Nat} (h : place < counts.length) (n : Int) :
    (counts.modify place (· + n)).sum = counts.sum + n := by
  induction counts generalizing place with
  | nil => exact absurd h (Nat.not_lt_zero place)
  | cons x counts ih =>
    cases place with
    | zero =>
      rw [List.modify_zero_cons, List.sum_cons, List.sum_cons]
      omega
    | succ place =>
      rw [List.modify_succ_cons, List.sum_cons, List.sum_cons, ih (Nat.lt_of_succ_lt_succ h)]
      omega

/-- Hits of an arm, wherever it counts from, are hits of its branch. -/
theorem sum_bumpArm {counts : List Int} {arm : Int}
    (h : (armPlace? counts.length arm).isSome = true) (n : Int) :
    (bumpArm counts arm n).sum = counts.sum + n := by
  obtain ⟨place, hplace⟩ := Option.isSome_iff_exists.1 h
  have hroom : place < (padCounts counts (arm + 1).toNat).length := by
    rw [padCounts, List.length_append, List.length_replicate]
    unfold armPlace? at hplace
    split at hplace
    · cases hplace
      omega
    · split at hplace
      · cases hplace
        omega
      · cases hplace
  rw [bumpArm, hplace]
  exact (sum_modify hroom n).trans (congrArg (· + n) (sum_padCounts ..))

namespace Fragment

theorem armSum_merge (a b : Fragment) (id : Ident) :
    (a.merge b).armSum id = a.armSum id + b.armSum id := by
  show (((addBranches a.branches b.branches).get? id).getD []).sum = _
  rw [get?_addBranches]
  unfold armSum armCounts
  cases a.branches.get? id <;> cases b.branches.get? id <;> simp [sum_addCounts]

theorem armSum_hitArm {f g : Fragment} {a : BranchArm} {n : Int} (h : f.hitArm a n = (g, .ok ()))
    (id : Ident) : g.armSum id = f.armSum id + if a.branch == id then n else 0 := by
  unfold hitArm at h
  split at h
  · cases h
  · have hhas : f.hasArm a = true := by
      by_contra hnot
      rw [if_neg hnot] at h
      cases h
    have hbranches : g.branches =
        f.branches.update a.branch fun counts => bumpArm (counts.getD []) a.arm n :=
      congrArg (·.1.branches) h.symm
    simp only [armSum, armCounts, hbranches, KeyedList.get?_update]
    split
    · next hid =>
      rw [← f.branches.get?_congr hid]
      exact sum_bumpArm hhas n
    · exact (add_zero _).symm

theorem armSum_hitKey {f g : Fragment} {key : TargetKey} {n : Int}
    (h : f.hitKey key n = (g, .ok ())) (id : Ident) :
    g.armSum id = f.armSum id + if key.isBranch && key.id == id then n else 0 := by
  unfold hitKey at h
  split at h
  · cases h
  · cases key with
    | statement | function =>
      cases h
      exact (add_zero _).symm
    | branch id' arm => exact armSum_hitArm h id

/-- Hits of a target are hits of the branch that it is an arm of, and of the one whose arm it stands
for. -/
theorem armSum_hit {f g : Fragment} {t : Target} {n : Int} (h : f.hit t n = (g, .ok ()))
    (id : Ident) :
    g.armSum id = f.armSum id + (if t.key.isBranch && t.key.id == id then n else 0) +
      if t.parent.any (·.branch == id) then n else 0 := by
  unfold hit at h
  split at h
  · cases h
  · next own hown =>
    have hlines : (own.hitLines t.lines n).armSum id = own.armSum id := rfl
    rw [← armSum_hitKey hown, ← hlines]
    cases hp : t.parent with
    | none =>
      rw [hp] at h
      cases h
      exact (add_zero _).symm
    | some a =>
      rw [hp] at h
      exact armSum_hitArm h id

/-- The number of arms of a branch that hits of a target count for, each time. -/
def weight (id : Ident) (t : Target) : Int :=
  (if t.key.isBranch && t.key.id == id then 1 else 0) +
    if t.parent.any (·.branch == id) then 1 else 0

theorem weight_congr {t t' : Target} (h : t.Same t') (id : Ident) : weight id t = weight id t' := by
  have hid : (t.key.id == id) = (t'.key.id == id) := BEq.congr_left (TargetKey.id_beq_of_beq h.key)
  have hparent : t.parent.any (·.branch == id) = t'.parent.any (·.branch == id) := by
    have hrel := h.parent
    generalize t.parent = p at hrel ⊢
    generalize t'.parent = p' at hrel ⊢
    cases hrel with
    | none => rfl
    | some hsame => exact BEq.congr_left hsame.1
  rw [weight, weight, TargetKey.isBranch_congr h.key, hid, hparent]

theorem weight_ne_zero {t : Target} (h : t.key.isBranch = true) : weight t.key.id t ≠ 0 := by
  rw [weight, h, BEq.rfl, Bool.and_true, if_pos rfl]
  split <;> decide

theorem armSum_hitAll {f g : Fragment} {hits : List (Target × Int)} (h : f.hitAll hits = .ok g)
    (id : Ident) :
    g.armSum id = f.armSum id + (hits.map fun hit => hit.2 * weight id hit.1).sum := by
  induction hits generalizing f with
  | nil =>
    cases h
    exact (add_zero _).symm
  | cons hit hits ih =>
    rw [hitAll] at h
    split at h
    · next own hown =>
      have hfirst : own.armSum id = f.armSum id + hit.2 * weight id hit.1 := by
        rw [armSum_hit hown, weight]
        split <;> split <;> omega
      rw [ih h, hfirst, List.map_cons, List.sum_cons, add_assoc]
    · cases h

end Fragment

end ContractCoverage
