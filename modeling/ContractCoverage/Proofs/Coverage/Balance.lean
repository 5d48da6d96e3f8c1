import ContractCoverage.Proofs.Coverage.Counts
import ContractCoverage.Proofs.Tree.Links
import Mathlib.Algebra.Ring.Int.Defs

/-! Balances: what the counters of a file owe to each other.

A hit counts in several places at once: for its target, on the lines of the target and
for the arm that the target stands for (`hit_ok`). So some sums of counters, taken with
signs, are left as they are by every hit of a registered target, and merging fragments
adds them up. Such a sum is a balance of the table (`Balance`), and it is zero in every
fragment that hits and merges make. There are two kinds of them: the hits of a line less
those of what lies on it (`balance_line`), and the hits of an arm less those of the
statement that stands for it (`balance_arm`). -/
namespace ContractCoverage

namespace Fragment

/-! ### Sums of counters -/

/-- The hits of all identifiers for which a condition holds. -/
def total (p : Ident → Bool) (counters : KeyedList Ident Int) : Int :=
  ((counters.entries.filter fun e => p e.1).map (·.2)).sum

section Total
variable {p : Ident → Bool} (hp : ∀ a b, (a == b) = true → p a = p b)
include hp

/-- A hit adds to a sum when its identifier belongs there. -/
theorem total_bump (counters : KeyedList Ident Int) (k : Ident) (n : Int) :
    total p (bump counters k n) = total p counters + if p k then n else 0 := by
  show (((KeyedList.updateEntries k (fun count => count.getD 0 + n) counters.entries).filter
    fun e => p e.1).map (·.2)).sum = ((counters.entries.filter fun e => p e.1).map (·.2)).sum + _
  induction counters.entries with
  | nil => cases h : p k <;> simp [KeyedList.updateEntries, h]
  | cons e es ih =>
    by_cases hk : (e.1 == k) = true
    · rw [KeyedList.updateEntries, if_pos hk, ← hp e.1 k hk]
      by_cases he : p e.1 = true
      · simp only [List.filter_cons, he, if_true, List.map_cons, List.sum_cons, Option.getD_some]
        omega
      · simp [he]
    · rw [KeyedList.updateEntries, if_neg hk, List.filter_cons, List.filter_cons]
      by_cases he : p e.1 = true
      · simp only [he, if_true, List.map_cons, List.sum_cons, ih]
        omega
      · rw [if_neg he, if_neg he, ih]

theorem total_addCounters (a b : KeyedList Ident Int) :
    total p (addCounters a b) = total p a + total p b := by
  show total p (b.entries.foldl (fun m (e : Ident × Int) => bump m e.1 e.2) a) =
    total p a + ((b.entries.filter fun e => p e.1).map (·.2)).sum
  induction b.entries generalizing a with
  | nil => simp
  | cons e es ih =>
    rw [List.foldl_cons, ih, total_bump hp, List.filter_cons]
    split
    · rw [List.map_cons, List.sum_cons]
      omega
    · omega

end Total

/-- What is listed without hits adds nothing to any sum. -/
theorem total_zeros (p : Ident → Bool) (keys : List Ident) :
    total p (RangeTable.zeros keys) = 0 := by
  apply List.sum_eq_zero
  intro n hn
  obtain ⟨e, he, rfl⟩ := List.mem_map.1 hn
  exact get?_zeros (KeyedList.get?_of_mem (List.mem_filter.1 he).1)

/-- The hits of a counter that may be missing. -/
def hitsOf (counters : KeyedList Ident Int) (k : Ident) : Int := (counters.get? k).getD 0

/-- The sum over one identifier. -/
theorem total_beq (counters : KeyedList Ident Int) (k : Ident) :
    total (· == k) counters = hitsOf counters k := by
  rw [total, KeyedList.filter_entries, hitsOf]
  cases counters.get? k with
  | none => rfl
  | some n => exact Int.add_zero n

theorem beq_congr (k : Ident) : ∀ a b : Ident, (a == b) = true → (a == k) = (b == k) :=
  fun _ _ h => BEq.congr_left h

theorem hitsOf_bump (counters : KeyedList Ident Int) (a b : Ident) (n : Int) :
    hitsOf (bump counters a n) b = hitsOf counters b + if a == b then n else 0 := by
  rw [← total_beq, ← total_beq, total_bump (beq_congr b)]

theorem hitsOf_addCounters (a b : KeyedList Ident Int) (k : Ident) :
    hitsOf (addCounters a b) k = hitsOf a k + hitsOf b k := by
  rw [← total_beq, ← total_beq, ← total_beq, total_addCounters (beq_congr k)]

/-- A hit of different lines adds to each of them once. -/
theorem hitsOf_lines {lines : List Int} (hlines : lines.Nodup) (counters : KeyedList Ident Int)
    (line n : Int) :
    hitsOf (lines.foldl (fun m line => bump m (.ofInt line) n) counters) (.ofInt line) =
      hitsOf counters (.ofInt line) + if line ∈ lines then n else 0 := by
  induction lines generalizing counters with
  | nil => simp
  | cons first rest ih =>
    obtain ⟨hfirst, hrest⟩ := List.nodup_cons.1 hlines
    rw [List.foldl_cons, ih hrest, hitsOf_bump, Ident.ofInt_beq_ofInt]
    by_cases h : first = line
    · subst h
      simp [hfirst]
    · have hne : ¬ line = first := fun heq => h heq.symm
      simp [h, hne]

/-! ### Hits of an arm -/

/-- The hits of an arm of a branch, which may be missing. -/
def armHits (f : Fragment) (branch : Ident) (arm : Nat) : Int := ((f.armCounts branch)[arm]?).getD 0

theorem getD_addCounts (a b : List Int) (arm : Nat) :
    ((addCounts a b)[arm]?).getD 0 = (a[arm]?).getD 0 + (b[arm]?).getD 0 := by
  induction a generalizing b arm with
  | nil => simp [addCounts_nil_left]
  | cons x a ih =>
    cases b with
    | nil => simp [addCounts_nil_right]
    | cons y b =>
      rw [addCounts_cons_cons]
      cases arm with
      | zero => rfl
      | succ arm => exact ih b arm

theorem armHits_merge (a b : Fragment) (branch : Ident) (arm : Nat) :
    (a.merge b).armHits branch arm = a.armHits branch arm + b.armHits branch arm := by
  have hcounts : (a.merge b).armCounts branch =
      addCounts (a.armCounts branch) (b.armCounts branch) := by
    show ((addBranches a.branches b.branches).get? branch).getD [] = _
    rw [get?_addBranches, armCounts, armCounts]
    cases a.branches.get? branch <;> cases b.branches.get? branch <;>
      simp [addCounts_nil_left, addCounts_nil_right]
  rw [armHits, hcounts, getD_addCounts]
  rfl

theorem armHits_initial (t : RangeTable) (path : Option String) (branch : Ident) (arm : Nat) :
    (t.initial path).armHits branch arm = 0 := by
  show (((t.branches.map fun branch => List.replicate branch.1.toNat (0 : Int)).get?
    branch).getD [])[arm]?.getD 0 = 0
  rw [KeyedList.get?_map]
  cases t.branches.get? branch with
  | none => rfl
  | some listed =>
    simp only [Option.map_some, Option.getD_some, List.getElem?_replicate]
    split <;> rfl

theorem getD_padCounts (counts : List Int) (length arm : Nat) :
    ((padCounts counts length)[arm]?).getD 0 = (counts[arm]?).getD 0 := by
  rw [padCounts, List.getElem?_append]
  split
  · rfl
  · next h =>
    rw [List.getElem?_eq_none (Nat.not_lt.1 h), List.getElem?_replicate]
    split <;> rfl

/-- A hit of an arm that counts from the start makes room for it and adds to it alone. -/
theorem getD_bumpArm (counts : List Int) {arm : Int} (harm : 0 ≤ arm) (n : Int) (place : Nat) :
    ((bumpArm counts arm n)[place]?).getD 0 =
      (counts[place]?).getD 0 + if arm = place then n else 0 := by
  rw [bumpArm, armPlace?, if_pos harm]
  simp only [List.getElem?_modify]
  rw [← getD_padCounts counts (arm + 1).toNat place]
  by_cases h : arm = place
  · have hplace : arm.toNat = place := by omega
    have hroom : place < (padCounts counts (arm + 1).toNat).length := by
      rw [padCounts, List.length_append, List.length_replicate]
      omega
    rw [List.getElem?_eq_getElem hroom]
    simp [h]
  · have hplace : ¬ arm.toNat = place := by omega
    simp only [hplace, if_false, h]
    cases (padCounts counts (arm + 1).toNat)[place]? <;> simp

theorem armHits_hitArm {f g : Fragment} {a : BranchArm} (harm : 0 ≤ a.arm) {n : Int}
    (h : f.hitArm a n = (g, .ok ())) (branch : Ident) (arm : Nat) :
    g.armHits branch arm =
      f.armHits branch arm + if a.branch == branch && a.arm == arm then n else 0 := by
  unfold hitArm at h
  split at h
  · cases h
  · have hbranches : g.branches =
        f.branches.update a.branch fun counts => bumpArm (counts.getD []) a.arm n :=
      congrArg (·.1.branches) h.symm
    simp only [armHits, armCounts, hbranches, KeyedList.get?_update]
    by_cases hb : (a.branch == branch) = true
    · rw [if_pos hb, f.branches.get?_congr hb, Option.getD_some, getD_bumpArm _ harm, hb]
      simp
    · rw [if_neg hb]
      simp [hb]

/-! ### What a hit does -/

/-- A hit of an arm changes no other counters. -/
theorem hitArm_ok {f g : Fragment} {a : BranchArm} {n : Int} (h : f.hitArm a n = (g, .ok ())) :
    g.statements = f.statements ∧ g.functions = f.functions ∧ g.lines = f.lines := by
  have hg : (f.hitArm a n).1 = g := congrArg Prod.fst h
  rw [← hg]
  unfold hitArm
  split <;> exact ⟨rfl, rfl, rfl⟩

/-- A hit of a key changes the counters of its kind, and no lines. -/
theorem hitKey_ok {f g : Fragment} {key : TargetKey} {n : Int}
    (h : f.hitKey key n = (g, .ok ())) :
    g.statements = (if key.kind = "s" then bump f.statements key.id n else f.statements) ∧
      g.functions = (if key.kind = "f" then bump f.functions key.id n else f.functions) ∧
      g.lines = f.lines ∧ (key.isBranch = false → g.branches = f.branches) := by
  unfold hitKey at h
  split at h
  · cases h
  · cases key with
    | statement id arm =>
      cases h
      exact ⟨rfl, rfl, rfl, fun _ => rfl⟩
    | function id arm =>
      cases h
      exact ⟨rfl, rfl, rfl, fun _ => rfl⟩
    | branch id arm =>
      obtain ⟨hstatements, hfunctions, hlines⟩ := hitArm_ok h
      exact ⟨hstatements, hfunctions, hlines, fun hb => by cases hb⟩

/-- A hit counts for its target, on the lines of the target and, where this is no arm itself, for
the arm that the target stands for. -/
theorem hit_ok {f g : Fragment} {t : Target} {n : Int} (h : f.hit t n = (g, .ok ())) :
    g.statements = (if t.key.kind = "s" then bump f.statements t.key.id n else f.statements) ∧
      g.functions = (if t.key.kind = "f" then bump f.functions t.key.id n else f.functions) ∧
      g.lines = t.lines.foldl (fun m line => bump m (.ofInt line) n) f.lines ∧
      (t.key.isBranch = false → (∀ a, t.parent = some a → 0 ≤ a.arm) → ∀ branch (arm : Nat),
        g.armHits branch arm =
          f.armHits branch arm + if t.standsFor ⟨branch, arm⟩ then n else 0) := by
  unfold hit at h
  split at h
  · cases h
  · next own he =>
    obtain ⟨hstatements, hfunctions, hlines, hbranches⟩ := hitKey_ok he
    have hown : (own.hitLines t.lines n).lines =
        t.lines.foldl (fun m line => bump m (.ofInt line) n) f.lines := by rw [← hlines]; rfl
    have harms : t.key.isBranch = false → ∀ branch arm,
        (own.hitLines t.lines n).armHits branch arm = f.armHits branch arm := by
      intro hb branch arm
      show (((own.branches.get? branch).getD [])[arm]?).getD 0 = _
      rw [hbranches hb]
      rfl
    cases hp : t.parent with
    | none =>
      simp only [hp, Prod.mk.injEq, and_true] at h
      rw [← h]
      refine ⟨hstatements, hfunctions, hown, fun hb _ branch arm => ?_⟩
      simp [harms hb, Target.standsFor, hp]
    | some a =>
      simp only [hp] at h
      obtain ⟨hs, hf, hl⟩ := hitArm_ok h
      refine ⟨hs.trans hstatements, hf.trans hfunctions, hl.trans hown, fun hb ha branch arm => ?_⟩
      rw [armHits_hitArm (ha a rfl) h, harms hb, Target.standsFor, hp]

end Fragment

/-! ### Balances -/

/-- A sum of counters that is zero in a fragment without hits, that merging adds up, and that a hit
of a registered target leaves as it is. -/
structure RangeTable.Balance (t : RangeTable) (owed : Fragment → Int) : Prop where
  merge : ∀ a b, owed (a.merge b) = owed a + owed b
  unlisted : ∀ path, owed { path } = 0
  listed : ∀ path, owed (t.initial path) = 0
  hit : ∀ e ∈ t.registered, ∀ f g n, f.hit e.2 n = (g, .ok ()) → owed g = owed f

namespace RangeTable

/-- Any number of hits leaves a balance as it is. -/
theorem Balance.hitAll {t : RangeTable} {owed : Fragment → Int} (h : t.Balance owed)
    {hits : List (Target × Int)} (hhits : ∀ hit ∈ hits, ∃ e ∈ t.registered, e.2 = hit.1)
    {f g : Fragment} (hg : f.hitAll hits = .ok g) : owed g = owed f := by
  induction hits generalizing f with
  | nil =>
    cases hg
    rfl
  | cons hit hits ih =>
    obtain ⟨⟨e, he, hfirst⟩, hrest⟩ := List.forall_mem_cons.1 hhits
    rw [Fragment.hitAll] at hg
    split at hg
    · next f' hstep =>
      rw [ih hrest hg]
      exact h.hit e he f f' hit.2 (hfirst ▸ hstep)
    · cases hg

/-- All registrations of one statement or function have the same location and stand for the same
arm. -/
def Consistent (t : RangeTable) : Prop :=
  ∀ e ∈ t.registered, ∀ e' ∈ t.registered, e.2.key.isBranch = false →
    e.2.key.kind = e'.2.key.kind → (e.2.key.id == e'.2.key.id) = true →
    e.2.location = e'.2.location ∧
      Option.Rel (fun a b : BranchArm => (a.branch == b.branch) = true ∧ a.arm = b.arm)
        e.2.parent e'.2.parent

/-- A table that registers no identifier twice is consistent. -/
theorem consistent_of_distinct {t : RangeTable}
    (h : t.registered.Pairwise fun e e' => (e.2.key.id == e'.2.key.id) = false) :
    t.Consistent := by
  intro e he e' he' _ _ hid
  obtain rfl := KeyedList.eq_of_distinct h he he' hid
  refine ⟨rfl, ?_⟩
  cases e.2.parent with
  | none => exact .none
  | some a => exact .some ⟨BEq.rfl, rfl⟩

/-- Whether a statement or a function, whichever kind is asked for, has a location that spans a
line. -/
def spans (t : RangeTable) (kind : String) (line : Int) (id : Ident) : Bool :=
  t.registered.any fun e => e.2.key.kind == kind && e.2.key.id == id &&
    e.2.location.any fun span => span.start.line ≤ line && line ≤ span.stop.line

theorem spans_congr (t : RangeTable) (kind : String) (line : Int) :
    ∀ a b : Ident, (a == b) = true → t.spans kind line a = t.spans kind line b := by
  intro a b h
  unfold spans
  congr 1
  funext e
  rw [BEq.congr_right (a := e.2.key.id) h]

/-- A target that is no arm spans the lines that a hit of it counts on. -/
theorem spans_of_registered {t : RangeTable} (hc : t.Consistent) {e : RangeKey × Target}
    (he : e ∈ t.registered) (hb : e.2.key.isBranch = false) (line : Int) :
    t.spans e.2.key.kind line e.2.key.id = true ↔ line ∈ e.2.lines := by
  have hlines : line ∈ e.2.lines ↔
      ∃ span, e.2.location = some span ∧ span.start.line ≤ line ∧ line ≤ span.stop.line := by
    rw [Target.lines, hb]
    cases e.2.location with
    | none => simp
    | some span => simpa using Span.mem_lines
  have hspan : ∀ location : Option Span,
      (location.any fun span => span.start.line ≤ line && line ≤ span.stop.line) = true ↔
        ∃ span, location = some span ∧ span.start.line ≤ line ∧ line ≤ span.stop.line := by
    intro location
    cases location <;> simp
  rw [hlines, ← hspan, spans, List.any_eq_true]
  constructor
  · rintro ⟨e', he', hany⟩
    simp only [Bool.and_eq_true, beq_iff_eq] at hany
    obtain ⟨⟨hkind, hid⟩, hlocation⟩ := hany
    have hsame := (hc e he e' he' hb hkind.symm (BEq.symm hid)).1
    rwa [hsame]
  · intro hlocation
    exact ⟨e, he, by simp [hlocation]⟩

/-- The hits of a line less those of the statements and the functions that span it. -/
def lineDebt (t : RangeTable) (line : Int) (f : Fragment) : Int :=
  Fragment.hitsOf f.lines (.ofInt line) -
    (Fragment.total (t.spans "s" line) f.statements +
      Fragment.total (t.spans "f" line) f.functions)

theorem nodup_lines (t : Target) : t.lines.Nodup := by
  unfold Target.lines
  split
  · exact List.nodup_nil
  · cases t.location with
    | none => exact List.nodup_nil
    | some span =>
      refine List.pairwise_map.2 (List.nodup_range.imp fun hne heq => hne ?_)
      omega

/-- The hits of a line are those of what spans it. -/
theorem balance_line {t : RangeTable} (hc : t.Consistent) (line : Int) :
    t.Balance (t.lineDebt line) where
  merge a b := by
    have hs := Fragment.total_addCounters (t.spans_congr "s" line) a.statements b.statements
    have hf := Fragment.total_addCounters (t.spans_congr "f" line) a.functions b.functions
    have hl := Fragment.hitsOf_addCounters a.lines b.lines (.ofInt line)
    simp only [lineDebt, Fragment.merge, hs, hf, hl]
    omega
  unlisted path := rfl
  listed path := by
    simp only [lineDebt, initial, ← Fragment.total_beq, Fragment.total_zeros]
    rfl
  hit e he f g n h := by
    obtain ⟨hs, hf, hl, -⟩ := Fragment.hit_ok h
    have hspans := spans_of_registered hc he
    simp only [lineDebt, hs, hf, hl, Fragment.hitsOf_lines (nodup_lines e.2)]
    cases hkey : e.2.key with
    | branch id arm =>
      have hnone : e.2.lines = [] := by rw [Target.lines, hkey]; rfl
      simp [TargetKey.kind, hnone]
    | statement id arm =>
      have hs := hspans (by rw [hkey]; rfl) line
      rw [hkey] at hs
      simp only [TargetKey.kind, TargetKey.id, if_true, if_false, String.reduceEq,
        Fragment.total_bump (t.spans_congr "s" line)] at hs ⊢
      simp only [hs]
      omega
    | function id arm =>
      have hs := hspans (by rw [hkey]; rfl) line
      rw [hkey] at hs
      simp only [TargetKey.kind, TargetKey.id, if_true, if_false, String.reduceEq,
        Fragment.total_bump (t.spans_congr "f" line)] at hs ⊢
      simp only [hs]
      omega

/-! ### Arms -/

section Arms
variable {t : RangeTable} (hderived : ∀ e ∈ t.registered, Tree.IsDerived e.2) {branch : Ident}
  {arm : Nat}
include hderived

/-- A hit of a derived target counts for the arm that the target stands for. -/
theorem armHits_hit {e : RangeKey × Target} (he : e ∈ t.registered) {f g : Fragment} {n : Int}
    (h : f.hit e.2 n = (g, .ok ())) :
    g.armHits branch arm =
      f.armHits branch arm + if e.2.standsFor ⟨branch, arm⟩ then n else 0 := by
  obtain ⟨hb, hpaired, -⟩ := hderived e he
  refine (Fragment.hit_ok h).2.2.2 hb (fun a ha => ?_) branch arm
  rcases hpaired a ha with harm | harm <;> omega

/-- An arm that nothing stands for has no hits. -/
theorem balance_unlinked (hlinked : Tree.linked ⟨branch, arm⟩ t.registered = []) :
    t.Balance fun f => f.armHits branch arm where
  merge a b := Fragment.armHits_merge a b branch arm
  unlisted path := rfl
  listed path := Fragment.armHits_initial t path branch arm
  hit e he f g n h := by
    have hstands : ¬ e.2.standsFor ⟨branch, arm⟩ = true := List.filter_eq_nil_iff.1 hlinked e he
    rw [armHits_hit hderived he h, if_neg hstands, Int.add_zero]

/-- What stands for an arm that one target stands for is the statement of that target. -/
theorem standsFor_iff_of_linked (hc : t.Consistent) {own : RangeKey × Target}
    (hlinked : Tree.linked ⟨branch, arm⟩ t.registered = [own]) {e : RangeKey × Target}
    (he : e ∈ t.registered) : e.2.standsFor ⟨branch, arm⟩ = true ↔
      e.2.key.kind = "s" ∧ (e.2.key.id == own.2.key.id) = true := by
  obtain ⟨hown, hstands⟩ : own ∈ t.registered ∧ own.2.standsFor ⟨branch, arm⟩ = true :=
    List.mem_filter.1 (hlinked.symm ▸ List.mem_singleton_self own)
  obtain ⟨hb, -, hkind⟩ := hderived own hown
  obtain ⟨parent, hparent, hbranch, harm⟩ := Tree.standsFor_iff.1 hstands
  have hs : own.2.key.kind = "s" := hkind (by rw [hparent]; exact Option.some_ne_none parent)
  constructor
  · intro he'
    have hmem : e ∈ Tree.linked ⟨branch, arm⟩ t.registered := List.mem_filter.2 ⟨he, he'⟩
    rw [hlinked, List.mem_singleton] at hmem
    exact ⟨hmem ▸ hs, hmem ▸ BEq.rfl⟩
  · rintro ⟨hkind, hid⟩
    have hrel := (hc own hown e he hb (hs.trans hkind.symm) (BEq.symm hid)).2
    rw [hparent] at hrel
    cases hp : e.2.parent with
    | none =>
      rw [hp] at hrel
      cases hrel
    | some other =>
      rw [hp] at hrel
      cases hrel with
      | some hsame =>
        refine Tree.standsFor_iff.2 ⟨other, hp, ?_, hsame.2.symm.trans harm⟩
        rw [← BEq.congr_left hsame.1]
        exact hbranch

/-- An arm that one statement stands for has the hits of that statement. -/
theorem balance_arm (hc : t.Consistent) {own : RangeKey × Target}
    (hlinked : Tree.linked ⟨branch, arm⟩ t.registered = [own]) :
    t.Balance fun f =>
      f.armHits branch arm - Fragment.hitsOf f.statements own.2.key.id where
  merge a b := by
    have ha := Fragment.armHits_merge a b branch arm
    have hs := Fragment.hitsOf_addCounters a.statements b.statements own.2.key.id
    simp only [Fragment.merge] at ha ⊢
    rw [ha, hs]
    omega
  unlisted path := rfl
  listed path := by
    rw [Fragment.armHits_initial, ← Fragment.total_beq]
    exact congrArg (0 - ·) (Fragment.total_zeros ..)
  hit e he f g n h := by
    have hiff := standsFor_iff_of_linked hderived hc hlinked he
    rw [armHits_hit hderived he h, (Fragment.hit_ok h).1]
    by_cases hkind : e.2.key.kind = "s"
    · rw [if_pos hkind, Fragment.hitsOf_bump]
      by_cases hid : (e.2.key.id == own.2.key.id) = true
      · rw [if_pos (hiff.2 ⟨hkind, hid⟩), if_pos hid]
        omega
      · rw [if_neg fun hstands => hid (hiff.1 hstands).2, if_neg hid]
        omega
    · rw [if_neg hkind, if_neg fun hstands => hkind (hiff.1 hstands).1]
      omega

end Arms

end RangeTable

end ContractCoverage
