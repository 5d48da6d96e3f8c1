import ContractCoverage.Proofs.Coverage.Hits

/-! Hits as additions.

Whatever a fragment has counted before, hits of a target add the same to its counts, as
long as arms are counted from the start (`hit_of_countable`): a hit of its own key, one on
each of its lines and one of the arm that it stands for (`Target.gain`). Whether they can be
counted does not depend on the fragment either. So hits of several targets add up, and hits
of one target, under whichever of its names, are as good as all of them at once
(`Target.gain_add`, `Target.Same.gain_eq`). -/
namespace ContractCoverage

/-! ### Counts of an arm -/

/-- What hits of an arm add to the counts of a branch, where the arms before it have no hits. -/
def armHit (arm n : Int) : List Int := List.replicate arm.toNat 0 ++ [n]

theorem modify_padCounts (counts : List Int) (place : Nat) (n : Int) :
    (padCounts counts (place + 1)).modify place (· + n) =
      addCounts counts (List.replicate place 0 ++ [n]) := by
  induction place generalizing counts with
  | zero =>
    cases counts with
    | nil =>
      rw [addCounts_nil_left]
      exact congrArg (fun x => [x]) (Int.zero_add n)
    | cons x counts =>
      have hpad : padCounts counts 0 = counts := by simp [padCounts]
      rw [padCounts_cons, hpad, List.replicate_zero, List.nil_append, addCounts_cons_cons,
        addCounts_nil_right]
      rfl
  | succ place ih =>
    rw [List.replicate_succ, List.cons_append]
    cases counts with
    | nil =>
      have hpad : padCounts [] (place + 1 + 1) = 0 :: padCounts [] (place + 1) := rfl
      rw [hpad, List.modify_succ_cons, ih, addCounts_nil_left, addCounts_nil_left]
    | cons x counts =>
      rw [padCounts_cons, List.modify_succ_cons, ih, addCounts_cons_cons, Int.add_zero]

/-- Hits of an arm that counts from the start are added to the counts that are there. -/
theorem bumpArm_of_nonneg (counts : List Int) {arm : Int} (h : 0 ≤ arm) (n : Int) :
    bumpArm counts arm n = addCounts counts (armHit arm n) := by
  have hroom : (arm + 1).toNat = arm.toNat + 1 := by omega
  rw [bumpArm, armPlace?, if_pos h, hroom]
  exact modify_padCounts counts arm.toNat n

theorem addCounts_armHit (arm m n : Int) :
    addCounts (armHit arm m) (armHit arm n) = armHit arm (m + n) := by
  unfold armHit
  induction arm.toNat with
  | zero =>
    rw [List.replicate_zero, List.nil_append, List.nil_append, addCounts_cons_cons,
      addCounts_nil_left]
    rfl
  | succ place ih =>
    simp only [List.replicate_succ, List.cons_append, addCounts_cons_cons, ih, Int.add_zero]

/-! ### Gains -/

/-- Counts of one identifier, and none of any other. -/
def Counts.under (id : Ident) (c : Counts) (k : Ident) : Counts := if id == k then c else 0

/-- What hits of an arm add to the counts of an identifier. -/
def BranchArm.gain (a : BranchArm) (n : Int) : Ident → Counts :=
  .under a.branch { branch := some (armHit a.arm n) }

/-- What hits of a line add to the counts of an identifier. -/
def lineGain (n line : Int) : Ident → Counts := .under (.ofInt line) { line := some n }

/-- What hits of a key add to the counts of an identifier. -/
def TargetKey.gain (n : Int) : TargetKey → Ident → Counts
  | .statement id _ => .under id { statement := some n }
  | .function id _ => .under id { function := some n }
  | .branch id arm => BranchArm.gain ⟨id, arm⟩ n

/-- What hits of a target add to the counts of an identifier: those of its key, of its lines and of
the arm that it stands for. -/
def Target.gain (t : Target) (n : Int) (k : Ident) : Counts :=
  t.key.gain n k + (t.lines.map fun line => lineGain n line k).sum +
    (t.parent.map fun a => a.gain n k).getD 0

section Under
variable (id k : Ident) (c d : Counts)

theorem Counts.under_add : under id c k + under id d k = under id (c + d) k := by
  unfold under
  by_cases h : (id == k) = true
  · simp only [if_pos h]
  · simp only [if_neg h, add_zero]

theorem Counts.under_congr {id' : Ident} (h : (id == id') = true) : under id c = under id' c := by
  funext k
  unfold under
  rw [BEq.congr_left h]

end Under

/-- One counter more or less: counts that change under one identifier. -/
theorem Counts.eq_add_under {id k : Ident} {a b c : Counts} (hown : (id == k) = true → b = a + c)
    (hother : (id == k) = false → b = a) : b = a + under id c k := by
  unfold under
  by_cases h : (id == k) = true
  · rw [if_pos h]
    exact hown h
  · rw [if_neg h, add_zero]
    exact hother (Bool.eq_false_iff.2 h)

/-! ### Hits one after the other -/

section Sum
variable (m n : Int) (k : Ident)

theorem BranchArm.gain_add (a : BranchArm) : a.gain m k + a.gain n k = a.gain (m + n) k := by
  refine (Counts.under_add ..).trans ?_
  show Counts.under _ { branch := some (addCounts (armHit a.arm m) (armHit a.arm n)) } k = _
  rw [addCounts_armHit]
  rfl

theorem TargetKey.gain_add (key : TargetKey) :
    key.gain m k + key.gain n k = key.gain (m + n) k := by
  cases key with
  | statement => exact Counts.under_add ..
  | function => exact Counts.under_add ..
  | branch id arm => exact BranchArm.gain_add m n k ⟨id, arm⟩

theorem sum_lineGain_add (lines : List Int) :
    (lines.map fun line => lineGain m line k).sum + (lines.map fun line => lineGain n line k).sum =
      (lines.map fun line => lineGain (m + n) line k).sum := by
  rw [← List.sum_map_add]
  congr 1
  apply List.map_congr_left
  intro line _
  exact Counts.under_add ..

/-- **Hits add up.** Hits of a target, and then more of them, are all of them at once. -/
theorem Target.gain_add (t : Target) : t.gain m k + t.gain n k = t.gain (m + n) k := by
  have hparent : (t.parent.map fun a => a.gain m k).getD 0 +
      (t.parent.map fun a => a.gain n k).getD 0 =
        (t.parent.map fun a => a.gain (m + n) k).getD 0 := by
    cases t.parent with
    | none => exact add_zero 0
    | some a => exact a.gain_add m n k
  unfold gain
  rw [add_add_add_comm, add_add_add_comm (t.key.gain m k), TargetKey.gain_add, sum_lineGain_add,
    hparent]

end Sum

/-! ### Names of one target -/

/-- Two ways to say what to count: the same key, the same place and the same arm to stand for. -/
structure Target.Same (t t' : Target) : Prop where
  key : (t.key == t'.key) = true
  location : t.location = t'.location
  parent : Option.Rel (fun a b : BranchArm => (a.branch == b.branch) = true ∧ a.arm = b.arm)
    t.parent t'.parent

theorem TargetKey.gain_congr {key key' : TargetKey} (h : (key == key') = true) (n : Int) :
    key.gain n = key'.gain n := by
  have hid := id_beq_of_beq h
  have hkind := kind_eq_of_beq h
  have harm := arm?_eq_of_beq h
  cases key with
  | statement =>
    cases key' with
    | statement => exact Counts.under_congr _ _ hid
    | branch | function => simp [kind] at hkind
  | branch =>
    cases key' with
    | branch =>
      obtain rfl := Option.some.inj harm
      exact Counts.under_congr _ _ hid
    | statement | function => simp [kind] at hkind
  | function =>
    cases key' with
    | function => exact Counts.under_congr _ _ hid
    | statement | branch => simp [kind] at hkind

theorem TargetKey.isBranch_congr {key key' : TargetKey} (h : (key == key') = true) :
    key.isBranch = key'.isBranch := by
  have hkind := kind_eq_of_beq h
  cases key <;> cases key' <;> first | rfl | simp [kind] at hkind

theorem Ident.isKey_congr {id id' : Ident} (h : (id == id') = true) : id.isKey = id'.isKey :=
  congrArg Option.isSome (Ident.beq_iff.1 h)

theorem Target.Same.lines_eq {t t' : Target} (h : t.Same t') : t.lines = t'.lines := by
  unfold lines
  rw [TargetKey.isBranch_congr h.key, h.location]

/-- Hits of a target under another name add the same. -/
theorem Target.Same.gain_eq {t t' : Target} (h : t.Same t') (n : Int) : t.gain n = t'.gain n := by
  have hparent : ∀ k, (t.parent.map fun a => a.gain n k) = t'.parent.map fun a => a.gain n k := by
    intro k
    apply map_eq_of_rel h.parent
    intro a a' hsame
    rw [BranchArm.gain, BranchArm.gain, hsame.2, Counts.under_congr _ _ hsame.1]
  funext k
  unfold gain
  rw [TargetKey.gain_congr h.key, h.lines_eq, hparent]

/-! ### What can be counted -/

/-- The identifier of a target is a key, and so is that of the branch whose arm it stands for. -/
def Target.IsCountable (t : Target) : Prop :=
  t.key.id.isKey = true ∧ ∀ a, t.parent = some a → a.branch.isKey = true

/-- A target names no arm by counting from the last one. -/
def Target.FromStart (t : Target) : Prop :=
  (∀ id arm, t.key = .branch id arm → 0 ≤ arm) ∧ ∀ a, t.parent = some a → 0 ≤ a.arm

theorem Target.Same.isCountable_iff {t t' : Target} (h : t.Same t') :
    t.IsCountable ↔ t'.IsCountable := by
  have hparent : t.parent.map (·.branch.isKey) = t'.parent.map (·.branch.isKey) :=
    map_eq_of_rel h.parent fun _ _ hsame => Ident.isKey_congr hsame.1
  have hall : ∀ p : Option BranchArm, (∀ a, p = some a → a.branch.isKey = true) ↔
      p.map (·.branch.isKey) ≠ some false := by
    intro p
    cases p <;> simp
  unfold IsCountable
  rw [Ident.isKey_congr (TargetKey.id_beq_of_beq h.key), hall, hall, hparent]

/-! ### Tables that say the same of a target everywhere -/

theorem Target.Same.refl (t : Target) : t.Same t where
  key := BEq.rfl
  location := rfl
  parent := by
    cases t.parent with
    | none => exact .none
    | some a => exact .some ⟨BEq.rfl, rfl⟩

namespace RangeTable

/-- All registrations of one key have the same location and stand for the same arm. -/
def Uniform (t : RangeTable) : Prop :=
  ∀ e ∈ t.registered, ∀ e' ∈ t.registered, (e.2.key == e'.2.key) = true → e.2.Same e'.2

/-- No registration names an arm by counting from the last one. -/
def FromStart (t : RangeTable) : Prop := ∀ e ∈ t.registered, e.2.FromStart

/-- A table that registers no key twice says the same of it everywhere. -/
theorem uniform_of_distinct {t : RangeTable}
    (h : t.registered.Pairwise fun e e' => (e.2.key == e'.2.key) = false) : t.Uniform := by
  intro e he e' he' hkey
  obtain rfl := KeyedList.eq_of_distinct h he he' hkey
  exact .refl e.2

end RangeTable

/-! ### Hits of a fragment -/

namespace Fragment

theorem check_of_isKey {id : Ident} (h : id.isKey = true) : id.check = .ok () := if_pos h

theorem credit_eq_merge (count : Option Int) (n : Int) :
    credit count n = count.merge (· + ·) (some n) := by
  cases count with
  | none => exact congrArg some (Int.zero_add n)
  | some count => rfl

section Bump
variable {counters : KeyedList Ident Int} {id k : Ident} (n : Int)

theorem get?_bump_own (h : (id == k) = true) :
    (bump counters id n).get? k = (counters.get? k).merge (· + ·) (some n) := by
  rw [get?_bump, if_pos h, credit_eq_merge]

theorem get?_bump_other (h : (id == k) = false) :
    (bump counters id n).get? k = counters.get? k := by
  rw [get?_bump, h]
  rfl

end Bump

theorem counts_hitLines (f : Fragment) (lines : List Int) (n : Int) (k : Ident) :
    (f.hitLines lines n).counts k = f.counts k + (lines.map fun line => lineGain n line k).sum := by
  induction lines generalizing f with
  | nil => exact (add_zero _).symm
  | cons line lines ih =>
    have hfirst : (f.hitLines [line] n).counts k = f.counts k + lineGain n line k := by
      apply Counts.eq_add_under
      · intro h
        exact Counts.ext Option.merge_none_right.symm Option.merge_none_right.symm
          Option.merge_none_right.symm (get?_bump_own n h)
      · intro h
        exact Counts.ext rfl rfl rfl (get?_bump_other n h)
    rw [List.map_cons, List.sum_cons, ← add_assoc, ← hfirst]
    exact ih (f.hitLines [line] n)

/-- Hits of an arm that counts from the start can be counted when its branch is a key. -/
theorem hitArm_of_isKey (f : Fragment) {a : BranchArm} (harm : 0 ≤ a.arm)
    (hkey : a.branch.isKey = true) (n : Int) :
    ∃ g, f.hitArm a n = (g, .ok ()) ∧ ∀ k, g.counts k = f.counts k + a.gain n k := by
  have hplace : f.hasArm a = true := by
    rw [hasArm, armPlace?, if_pos harm]
    rfl
  unfold hitArm
  rw [check_of_isKey hkey, hplace]
  refine ⟨_, rfl, fun k => Counts.eq_add_under ?_ ?_⟩
  · intro h
    refine Counts.ext Option.merge_none_right.symm ?_ Option.merge_none_right.symm
      Option.merge_none_right.symm
    show (f.branches.update a.branch _).get? k = (f.branches.get? k).merge addCounts (some _)
    rw [KeyedList.get?_update, if_pos h, f.branches.get?_congr h, bumpArm_of_nonneg _ harm]
    cases f.branches.get? k with
    | none => exact congrArg some (addCounts_nil_left _)
    | some counts => rfl
  · intro h
    refine Counts.ext rfl ?_ rfl rfl
    show (f.branches.update a.branch _).get? k = f.branches.get? k
    rw [KeyedList.get?_update, h]
    rfl

theorem hitKey_of_isKey (f : Fragment) {key : TargetKey}
    (harm : ∀ id arm, key = .branch id arm → 0 ≤ arm) (hkey : key.id.isKey = true) (n : Int) :
    ∃ g, f.hitKey key n = (g, .ok ()) ∧ ∀ k, g.counts k = f.counts k + key.gain n k := by
  unfold hitKey
  rw [check_of_isKey hkey]
  cases key with
  | statement id arm =>
    refine ⟨_, rfl, fun k => Counts.eq_add_under ?_ ?_⟩
    · intro h
      exact Counts.ext (get?_bump_own n h) Option.merge_none_right.symm
        Option.merge_none_right.symm Option.merge_none_right.symm
    · intro h
      exact Counts.ext (get?_bump_other n h) rfl rfl rfl
  | function id arm =>
    refine ⟨_, rfl, fun k => Counts.eq_add_under ?_ ?_⟩
    · intro h
      exact Counts.ext Option.merge_none_right.symm Option.merge_none_right.symm
        (get?_bump_own n h) Option.merge_none_right.symm
    · intro h
      exact Counts.ext rfl rfl (get?_bump_other n h) rfl
  | branch id arm => exact f.hitArm_of_isKey (harm id arm rfl) hkey n

/-- **A hit is an addition.** Hits of a target that can be counted add its gain, whatever has been
counted before. -/
theorem hit_of_countable (f : Fragment) {t : Target} (hstart : t.FromStart) (h : t.IsCountable)
    (n : Int) : ∃ g, f.hit t n = (g, .ok ()) ∧ ∀ k, g.counts k = f.counts k + t.gain n k := by
  obtain ⟨own, hown, hcounts⟩ := f.hitKey_of_isKey hstart.1 h.1 n
  have hlines : ∀ k, (own.hitLines t.lines n).counts k =
      f.counts k + t.key.gain n k + (t.lines.map fun line => lineGain n line k).sum := by
    intro k
    rw [counts_hitLines, hcounts]
  unfold hit Target.gain
  rw [hown]
  cases hparent : t.parent with
  | none =>
    refine ⟨own.hitLines t.lines n, rfl, fun k => ?_⟩
    rw [hlines, Option.map_none, Option.getD_none, add_zero, add_assoc]
  | some a =>
    obtain ⟨g, hg, harm⟩ :=
      (own.hitLines t.lines n).hitArm_of_isKey (hstart.2 a hparent) (h.2 a hparent) n
    refine ⟨g, hg, fun k => ?_⟩
    rw [harm, hlines, Option.map_some, Option.getD_some, add_assoc, add_assoc, add_assoc]

theorem isKey_of_check {id : Ident} (h : id.check = .ok ()) : id.isKey = true := by
  unfold Ident.check at h
  by_cases hkey : id.isKey = true
  · exact hkey
  · rw [if_neg hkey] at h
    cases h

theorem isKey_of_hitArm {f g : Fragment} {a : BranchArm} {n : Int}
    (h : f.hitArm a n = (g, .ok ())) : a.branch.isKey = true := by
  unfold hitArm at h
  split at h
  · cases h
  · next hcheck => exact isKey_of_check hcheck

/-- What has been hit can be counted. -/
theorem isCountable_of_hit {f g : Fragment} {t : Target} {n : Int}
    (h : f.hit t n = (g, .ok ())) : t.IsCountable := by
  unfold hit at h
  split at h
  · cases h
  · next own hown =>
    refine ⟨?_, fun a ha => ?_⟩
    · unfold hitKey at hown
      split at hown
      · cases hown
      · next hcheck => exact isKey_of_check hcheck
    · rw [ha] at h
      exact isKey_of_hitArm h

/-! ### Many hits -/

theorem isCountable_of_hitAll {f g : Fragment} {hits : List (Target × Int)}
    (h : f.hitAll hits = .ok g) : ∀ hit ∈ hits, hit.1.IsCountable := by
  induction hits generalizing f with
  | nil => exact fun hit hmem => absurd hmem List.not_mem_nil
  | cons hit hits ih =>
    rw [hitAll] at h
    split at h
    · next own hown => exact List.forall_mem_cons.2 ⟨isCountable_of_hit hown, ih h⟩
    · cases h

/-- Hits that can all be counted add up. -/
theorem hitAll_of_countable (f : Fragment) {hits : List (Target × Int)}
    (hstart : ∀ hit ∈ hits, hit.1.FromStart) (h : ∀ hit ∈ hits, hit.1.IsCountable) :
    ∃ g, f.hitAll hits = .ok g ∧
      ∀ k, g.counts k = f.counts k + (hits.map fun hit => hit.1.gain hit.2 k).sum := by
  induction hits generalizing f with
  | nil => exact ⟨f, rfl, fun k => (add_zero _).symm⟩
  | cons hit hits ih =>
    obtain ⟨hfirst, hrest⟩ := List.forall_mem_cons.1 h
    obtain ⟨hstartFirst, hstartRest⟩ := List.forall_mem_cons.1 hstart
    obtain ⟨own, hown, hcounts⟩ := f.hit_of_countable hstartFirst hfirst hit.2
    obtain ⟨g, hg, hsum⟩ := ih own hstartRest hrest
    refine ⟨g, by rw [hitAll, hown]; exact hg, fun k => ?_⟩
    rw [hsum, hcounts, List.map_cons, List.sum_cons, add_assoc]

end Fragment

end ContractCoverage
