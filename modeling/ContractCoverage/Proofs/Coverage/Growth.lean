import ContractCoverage.Proofs.Coverage.Balance
import ContractCoverage.Proofs.Coverage.Hits
import ContractCoverage.Proofs.Coverage.Listed

/-! Counters that grow.

A counter that is there remains, with as many hits or more, and so do the arms of a
branch (`GrowsTo`). Merging a fragment without negative counters into another one makes
the counters of that one grow (`growsTo_merge`). Listing a table makes no negative
counters (`nonNegative_initial`), and neither do hits (`nonNegative_hitAll`): also a hit
of an arm that is counted from the end changes one count, and upwards. -/
namespace ContractCoverage

/-! ### What remains -/

/-- What is there remains, related to what it was. -/
def Remains {α : Type} (R : α → α → Prop) (x y : Option α) : Prop :=
  ∀ a, x = some a → ∃ b, y = some b ∧ R a b

theorem Remains.refl {α : Type} {R : α → α → Prop} (hR : ∀ a, R a a) (x : Option α) :
    Remains R x x := fun a h => ⟨a, h, hR a⟩

theorem Remains.trans {α : Type} {R : α → α → Prop} (hR : ∀ a b c, R a b → R b c → R a c)
    {x y z : Option α} (h : Remains R x y) (h' : Remains R y z) : Remains R x z := by
  intro a ha
  obtain ⟨b, hb, hab⟩ := h a ha
  obtain ⟨c, hc, hbc⟩ := h' b hb
  exact ⟨c, hc, hR a b c hab hbc⟩

theorem remains_merge {α : Type} {R : α → α → Prop} {f : α → α → α} (hR : ∀ a, R a a)
    (x : Option α) {y : Option α} (hf : ∀ a b, y = some b → R a (f a b)) :
    Remains R x (x.merge f y) := by
  rintro a rfl
  cases y with
  | none => exact ⟨a, rfl, hR a⟩
  | some b => exact ⟨f a b, rfl, hf a b rfl⟩

/-- There are as many arms or more, and every arm has as many hits or more. -/
def ArmsGrow (counts more : List Int) : Prop :=
  counts.length ≤ more.length ∧ ∀ arm : Nat, (counts[arm]?).getD 0 ≤ (more[arm]?).getD 0

theorem ArmsGrow.refl (counts : List Int) : ArmsGrow counts counts :=
  ⟨Nat.le_refl _, fun _ => Int.le_refl _⟩

theorem ArmsGrow.trans (a b c : List Int) (h : ArmsGrow a b) (h' : ArmsGrow b c) : ArmsGrow a c :=
  ⟨Nat.le_trans h.1 h'.1, fun arm => Int.le_trans (h.2 arm) (h'.2 arm)⟩

/-- Adding no negative counts lets arms grow. -/
theorem armsGrow_addCounts (counts : List Int) {more : List Int} (h : ∀ n ∈ more, 0 ≤ n) :
    ArmsGrow counts (addCounts counts more) := by
  refine ⟨?_, fun arm => ?_⟩
  · rw [Fragment.length_addCounts]
    exact Nat.le_max_left ..
  · have hmore : 0 ≤ (more[arm]?).getD 0 := by
      cases hget : more[arm]? with
      | none => exact Int.le_refl 0
      | some n => exact h n (List.mem_of_getElem? hget)
    rw [Fragment.getD_addCounts]
    omega

/-! ### Arms without negative counts -/

theorem nonNegative_padCounts {counts : List Int} (h : ∀ n ∈ counts, 0 ≤ n) (length : Nat) :
    ∀ n ∈ padCounts counts length, 0 ≤ n := by
  intro n hn
  rcases List.mem_append.1 hn with hn | hn
  · exact h n hn
  · exact Int.le_of_eq (List.eq_of_mem_replicate hn).symm

theorem nonNegative_addCounts {a b : List Int} (ha : ∀ n ∈ a, 0 ≤ n) (hb : ∀ n ∈ b, 0 ≤ n) :
    ∀ n ∈ addCounts a b, 0 ≤ n := by
  intro n hn
  obtain ⟨x, hx, y, hy, rfl⟩ : ∃ x ∈ padCounts a (max a.length b.length),
      ∃ y ∈ padCounts b (max a.length b.length), x + y = n := by
    obtain ⟨place, hplace, hget⟩ := List.getElem_of_mem hn
    simp only [addCounts, List.getElem_zipWith] at hget
    exact ⟨_, List.getElem_mem _, _, List.getElem_mem _, hget⟩
  have hx := nonNegative_padCounts ha _ x hx
  have hy := nonNegative_padCounts hb _ y hy
  omega

/-- A hit of an arm, wherever it is counted from, makes no count negative. -/
theorem nonNegative_bumpArm {counts : List Int} (h : ∀ n ∈ counts, 0 ≤ n) (arm : Int) {hits : Int}
    (hhits : 0 ≤ hits) : ∀ n ∈ bumpArm counts arm hits, 0 ≤ n := by
  unfold bumpArm
  split
  · next place _ =>
    intro n hn
    obtain ⟨i, hi⟩ := List.mem_iff_getElem?.1 hn
    rw [List.getElem?_modify, Option.map_eq_map, Option.map_eq_some_iff] at hi
    obtain ⟨old, hold, rfl⟩ := hi
    have hpadded := nonNegative_padCounts h _ old (List.mem_of_getElem? hold)
    split <;> omega
  · exact h

/-! ### Counts under one identifier -/

namespace Counts

/-- No counter is negative. -/
structure NonNegative (c : Counts) : Prop where
  statement : ∀ n, c.statement = some n → 0 ≤ n
  branch : ∀ counts, c.branch = some counts → ∀ n ∈ counts, 0 ≤ n
  function : ∀ n, c.function = some n → 0 ≤ n
  line : ∀ n, c.line = some n → 0 ≤ n

/-- Every counter that is there remains and does not go back. -/
structure GrowsTo (a b : Counts) : Prop where
  statement : Remains (· ≤ ·) a.statement b.statement
  branch : Remains ArmsGrow a.branch b.branch
  function : Remains (· ≤ ·) a.function b.function
  line : Remains (· ≤ ·) a.line b.line

theorem GrowsTo.refl (a : Counts) : a.GrowsTo a :=
  ⟨Remains.refl Int.le_refl _, Remains.refl ArmsGrow.refl _, Remains.refl Int.le_refl _,
    Remains.refl Int.le_refl _⟩

theorem GrowsTo.trans {a b c : Counts} (h : a.GrowsTo b) (h' : b.GrowsTo c) : a.GrowsTo c :=
  have hle : ∀ m n k : Int, m ≤ n → n ≤ k → m ≤ k := fun _ _ _ => Int.le_trans
  ⟨h.statement.trans hle h'.statement, h.branch.trans ArmsGrow.trans h'.branch,
    h.function.trans hle h'.function, h.line.trans hle h'.line⟩

/-- Counters grow when others are added that are not negative. -/
theorem growsTo_add (a : Counts) {b : Counts} (h : b.NonNegative) : a.GrowsTo (a + b) where
  statement := remains_merge Int.le_refl _ fun _ n hn =>
    Int.le_add_of_nonneg_right (h.statement n hn)
  branch := remains_merge ArmsGrow.refl _ fun counts more hmore =>
    armsGrow_addCounts counts (h.branch more hmore)
  function := remains_merge Int.le_refl _ fun _ n hn =>
    Int.le_add_of_nonneg_right (h.function n hn)
  line := remains_merge Int.le_refl _ fun _ n hn => Int.le_add_of_nonneg_right (h.line n hn)

theorem forall_merge {α : Type} {P : α → Prop} {f : α → α → α} (hf : ∀ a b, P a → P b → P (f a b))
    {x y : Option α} (hx : ∀ a, x = some a → P a) (hy : ∀ b, y = some b → P b) :
    ∀ c, x.merge f y = some c → P c := by
  intro c hc
  cases x with
  | none => exact hy c (by simpa using hc)
  | some a =>
    cases y with
    | none => exact hx c (by simpa using hc)
    | some b =>
      cases hc
      exact hf a b (hx a rfl) (hy b rfl)

theorem NonNegative.add {a b : Counts} (ha : a.NonNegative) (hb : b.NonNegative) :
    (a + b).NonNegative where
  statement := forall_merge (fun _ _ => Int.add_nonneg) ha.statement hb.statement
  branch := forall_merge (fun _ _ => nonNegative_addCounts) ha.branch hb.branch
  function := forall_merge (fun _ _ => Int.add_nonneg) ha.function hb.function
  line := forall_merge (fun _ _ => Int.add_nonneg) ha.line hb.line

end Counts

/-! ### Fragments -/

namespace Fragment

/-- No counter of a fragment is negative. -/
def NonNegative (f : Fragment) : Prop := ∀ k, (f.counts k).NonNegative

/-- Every counter of a fragment is there in another one and has not gone back. -/
def GrowsTo (f g : Fragment) : Prop := ∀ k, (f.counts k).GrowsTo (g.counts k)

theorem GrowsTo.refl (f : Fragment) : f.GrowsTo f := fun k => .refl (f.counts k)

theorem GrowsTo.trans {f g h : Fragment} (hfg : f.GrowsTo g) (hgh : g.GrowsTo h) : f.GrowsTo h :=
  fun k => (hfg k).trans (hgh k)

theorem nonNegative_unlisted (path : Option String) : ({ path } : Fragment).NonNegative :=
  fun _ => ⟨nofun, nofun, nofun, nofun⟩

theorem NonNegative.merge {f g : Fragment} (hf : f.NonNegative) (hg : g.NonNegative) :
    (f.merge g).NonNegative := by
  intro k
  rw [counts_merge]
  exact (hf k).add (hg k)

theorem growsTo_merge (f : Fragment) {g : Fragment} (hg : g.NonNegative) :
    f.GrowsTo (f.merge g) := by
  intro k
  rw [counts_merge]
  exact Counts.growsTo_add _ (hg k)

/-- Listing a table counts nothing. -/
theorem nonNegative_initial (t : RangeTable) (path : Option String) :
    (t.initial path).NonNegative := by
  intro k
  have hzeros : ∀ keys n, (RangeTable.zeros keys).get? k = some n → 0 ≤ n := fun keys n h =>
    Int.le_of_eq (get?_zeros h).symm
  refine ⟨hzeros _, fun counts h n hn => ?_, hzeros _, hzeros _⟩
  have hbranch : (t.branches.map fun branch => List.replicate branch.1.toNat (0 : Int)).get? k =
      some counts := h
  rw [KeyedList.get?_map, Option.map_eq_some_iff] at hbranch
  obtain ⟨branch, -, rfl⟩ := hbranch
  exact Int.le_of_eq (List.eq_of_mem_replicate hn).symm

theorem nonNegative_bump {counters : KeyedList Ident Int} {n : Int} (hn : 0 ≤ n)
    (h : ∀ k m, counters.get? k = some m → 0 ≤ m) (id : Ident) :
    ∀ k m, (bump counters id n).get? k = some m → 0 ≤ m := by
  intro k m hm
  rw [get?_bump] at hm
  split at hm
  · cases hm
    cases hk : counters.get? k with
    | none => simpa using hn
    | some old => exact Int.add_nonneg (h k old hk) hn
  · exact h k m hm

section Hits
variable {f : Fragment} (hf : f.NonNegative) {n : Int} (hn : 0 ≤ n)
include hf hn

theorem nonNegative_hitArm (a : BranchArm) : (f.hitArm a n).1.NonNegative := by
  intro k
  unfold hitArm
  split
  · exact hf k
  · refine ⟨(hf k).statement, fun counts h => ?_, (hf k).function, (hf k).line⟩
    have hbranch : (f.branches.update a.branch fun counts =>
        bumpArm (counts.getD []) a.arm n).get? k = some counts := h
    rw [KeyedList.get?_update] at hbranch
    split at hbranch
    · cases hbranch
      refine nonNegative_bumpArm ?_ a.arm hn
      cases hold : f.branches.get? a.branch with
      | none => exact fun m hm => absurd hm List.not_mem_nil
      | some old => exact (hf a.branch).branch old hold
    · exact (hf k).branch counts hbranch

theorem nonNegative_hitKey (key : TargetKey) : (f.hitKey key n).1.NonNegative := by
  unfold hitKey
  split
  · exact hf
  · cases key with
    | statement id arm =>
      exact fun k => ⟨nonNegative_bump hn (fun k => (hf k).statement) id k, (hf k).branch,
        (hf k).function, (hf k).line⟩
    | function id arm =>
      exact fun k => ⟨(hf k).statement, (hf k).branch,
        nonNegative_bump hn (fun k => (hf k).function) id k, (hf k).line⟩
    | branch id arm => exact nonNegative_hitArm hf hn ⟨id, arm⟩

theorem nonNegative_hitLines (lines : List Int) : (f.hitLines lines n).NonNegative := by
  have hlines : ∀ (counters : KeyedList Ident Int), (∀ k m, counters.get? k = some m → 0 ≤ m) →
      ∀ k m, (lines.foldl (fun m line => bump m (.ofInt line) n) counters).get? k = some m →
        0 ≤ m := by
    induction lines with
    | nil => exact fun _ h => h
    | cons line lines ih => exact fun _ h => ih _ (nonNegative_bump hn h (.ofInt line))
  exact fun k => ⟨(hf k).statement, (hf k).branch, (hf k).function,
    hlines f.lines (fun k => (hf k).line) k⟩

/-- A hit makes no counter negative. -/
theorem nonNegative_hit (t : Target) : (f.hit t n).1.NonNegative :=
  hit_keeps (nonNegative_hitKey hf hn t.key) (fun _ hown => nonNegative_hitLines hown hn t.lines)
    fun _ a _ hown => nonNegative_hitArm hown hn a

end Hits

/-- Any number of hits makes no counter negative. -/
theorem nonNegative_hitAll {f g : Fragment} {hits : List (Target × Int)} (hf : f.NonNegative)
    (hhits : ∀ hit ∈ hits, 0 ≤ hit.2) (h : f.hitAll hits = .ok g) : g.NonNegative :=
  hitAll_keeps hf (fun _ hown hit hmem => nonNegative_hit hown (hhits hit hmem) hit.1) h

end Fragment

end ContractCoverage
