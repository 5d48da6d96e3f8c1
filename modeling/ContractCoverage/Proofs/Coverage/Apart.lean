import ContractCoverage.Proofs.Coverage.Additions
import ContractCoverage.Proofs.Coverage.Merging

/-! Counting in place and counting apart.

Hits may be counted in a fragment that has counts already, or apart, in a new one that is
merged into it afterwards. As every hit is an addition, whether hits can be counted depends
on their targets alone, and where they can, a fragment ends with what it had and the sum of
the gains (`hitAll_cases`). So any two ways to come by the same sum agree (`agree_of_gains`):
in place or apart, in any order, in one hit or in two (`hitAll_adds_up`). -/
namespace ContractCoverage.Fragment

/-- Two ways to count agree: they end in fragments that compare equal, or are refused for the same
reason. -/
inductive Agree : Except Fault Fragment → Except Fault Fragment → Prop
  | counted {f g : Fragment} (h : f.sameCounters g = true) : Agree (.ok f) (.ok g)
  | refused (fault : Fault) : Agree (.error fault) (.error fault)

/-- What hits add to the counts of an identifier, one after the other. -/
def gains (hits : List (Target × Int)) (k : Ident) : Counts :=
  (hits.map fun hit => hit.1.gain hit.2 k).sum

/-! ### Hits that are refused -/

theorem check_of_not_isKey {id : Ident} (h : ¬ id.isKey = true) : id.check = .error .wrongKind :=
  if_neg h

/-- An arm that counts from the start is refused only for a branch that is no key. -/
theorem fault_of_hitArm {f g : Fragment} {a : BranchArm} {n : Int} {fault : Fault}
    (harm : 0 ≤ a.arm) (h : f.hitArm a n = (g, .error fault)) : fault = .shape .wrongKind := by
  by_cases hkey : a.branch.isKey = true
  · obtain ⟨g', hg', -⟩ := f.hitArm_of_isKey harm hkey n
    rw [hg'] at h
    cases h
  · rw [hitArm, check_of_not_isKey hkey] at h
    cases h
    rfl

theorem fault_of_hitKey {f g : Fragment} {key : TargetKey} {n : Int} {fault : Fault}
    (harm : ∀ id arm, key = .branch id arm → 0 ≤ arm) (h : f.hitKey key n = (g, .error fault)) :
    fault = .shape .wrongKind := by
  by_cases hkey : key.id.isKey = true
  · obtain ⟨g', hg', -⟩ := f.hitKey_of_isKey harm hkey n
    rw [hg'] at h
    cases h
  · unfold hitKey at h
    rw [check_of_not_isKey hkey] at h
    cases h
    rfl

/-- A hit is refused only for an identifier that is no key. -/
theorem fault_of_hit {f g : Fragment} {t : Target} {n : Int} {fault : Fault} (hstart : t.FromStart)
    (h : f.hit t n = (g, .error fault)) : fault = .shape .wrongKind := by
  unfold hit at h
  split at h
  · next own reason hown =>
    cases h
    exact fault_of_hitKey hstart.1 hown
  · cases hparent : t.parent with
    | none =>
      rw [hparent] at h
      cases h
    | some a =>
      rw [hparent] at h
      exact fault_of_hitArm (hstart.2 a hparent) h

theorem fault_of_hitAll {f : Fragment} {hits : List (Target × Int)} {fault : Fault}
    (hstart : ∀ hit ∈ hits, hit.1.FromStart) (h : f.hitAll hits = .error fault) :
    fault = .shape .wrongKind := by
  induction hits generalizing f with
  | nil => cases h
  | cons hit hits ih =>
    obtain ⟨hfirst, hrest⟩ := List.forall_mem_cons.1 hstart
    rw [hitAll] at h
    split at h
    · exact ih hrest h
    · next own reason hown =>
      cases h
      exact fault_of_hit hfirst hown

/-! ### Any number of hits -/

section Hits
variable {hits : List (Target × Int)} (hstart : ∀ hit ∈ hits, hit.1.FromStart) (f : Fragment)
include hstart

/-- Hits are counted, all of them, or refused, whatever has been counted before. -/
theorem hitAll_cases :
    ((∀ hit ∈ hits, hit.1.IsCountable) ∧
        ∃ g, f.hitAll hits = .ok g ∧ ∀ k, g.counts k = f.counts k + gains hits k) ∨
      (¬ (∀ hit ∈ hits, hit.1.IsCountable) ∧ f.hitAll hits = .error (.shape .wrongKind)) := by
  by_cases h : ∀ hit ∈ hits, hit.1.IsCountable
  · exact .inl ⟨h, f.hitAll_of_countable hstart h⟩
  · cases hcounted : f.hitAll hits with
    | ok g => exact absurd (isCountable_of_hitAll hcounted) h
    | error fault => exact .inr ⟨h, congrArg _ (fault_of_hitAll hstart hcounted)⟩

/-- Hits can be counted when each of their targets can. -/
theorem exists_hitAll_iff :
    (∃ g, f.hitAll hits = .ok g) ↔ ∀ hit ∈ hits, hit.1.IsCountable := by
  rcases hitAll_cases hstart f with ⟨hcountable, g, hg, -⟩ | ⟨hnot, hrefused⟩
  · exact iff_of_true ⟨g, hg⟩ hcountable
  · refine iff_of_false ?_ hnot
    rintro ⟨g, hg⟩
    rw [hrefused] at hg
    cases hg

/-- Hits of targets that can be counted together, and that add the same, agree. -/
theorem agree_of_gains {hits' : List (Target × Int)} (hstart' : ∀ hit ∈ hits', hit.1.FromStart)
    (hcountable : (∀ hit ∈ hits, hit.1.IsCountable) ↔ ∀ hit ∈ hits', hit.1.IsCountable)
    (hgains : ∀ k, gains hits k = gains hits' k) : Agree (f.hitAll hits) (f.hitAll hits') := by
  rcases hitAll_cases hstart f with ⟨hown, g, hg, hcounts⟩ | ⟨hnot, hrefused⟩
  · rcases hitAll_cases hstart' f with ⟨-, g', hg', hcounts'⟩ | ⟨hnot', -⟩
    · rw [hg, hg']
      refine .counted (sameCounters_iff.2 fun k => ?_)
      rw [hcounts, hcounts', hgains]
    · exact absurd (hcountable.1 hown) hnot'
  · rcases hitAll_cases hstart' f with ⟨hown', -⟩ | ⟨-, hrefused'⟩
    · exact absurd (hcountable.2 hown') hnot
    · rw [hrefused, hrefused']
      exact .refused _

/-- Hits that are counted in a new fragment and merged agree with the same hits in place. -/
theorem agree_apart (path : Option String) :
    Agree (f.hitAll hits) ((({ path } : Fragment).hitAll hits).map f.merge) := by
  rcases hitAll_cases hstart f with ⟨hown, g, hg, hcounts⟩ | ⟨hnot, hrefused⟩
  · obtain ⟨added, hadded, hgains⟩ := ({ path } : Fragment).hitAll_of_countable hstart hown
    rw [hg, hadded]
    refine .counted (sameCounters_iff.2 fun k => ?_)
    rw [hcounts, counts_merge, hgains]
    exact congrArg _ (zero_add _).symm
  · rcases hitAll_cases hstart ({ path } : Fragment) with ⟨hown, -⟩ | ⟨-, hrefused'⟩
    · exact absurd hown hnot
    · rw [hrefused, hrefused']
      exact .refused _

end Hits

theorem gains_append (hits more : List (Target × Int)) (k : Ident) :
    gains (hits ++ more) k = gains hits k + gains more k := by
  rw [gains, List.map_append, List.sum_append]
  rfl

theorem gains_cons (t : Target) (n : Int) (hits : List (Target × Int)) (k : Ident) :
    gains ((t, n) :: hits) k = t.gain n k + gains hits k := by
  rw [gains, List.map_cons, List.sum_cons]
  rfl

/-- **Hits add up.** Hits that name arms from the start can be counted exactly when their targets
can. Counting them in a fragment that has counts already agrees with counting them apart, in a new
fragment that is merged into it, and with counting them in any other order; and two hits of a target
in a row agree with a single one of both numbers. -/
theorem hitAll_adds_up {hits : List (Target × Int)} (hstart : ∀ hit ∈ hits, hit.1.FromStart)
    (f : Fragment) :
    ((∃ g, f.hitAll hits = .ok g) ↔ ∀ hit ∈ hits, hit.1.IsCountable) ∧
      (∀ path, Agree (f.hitAll hits) ((({ path } : Fragment).hitAll hits).map f.merge)) ∧
      (∀ hits' : List (Target × Int), hits.Perm hits' → Agree (f.hitAll hits) (f.hitAll hits')) ∧
      ∀ before t m n after, hits = before ++ (t, m) :: (t, n) :: after →
        Agree (f.hitAll hits) (f.hitAll (before ++ (t, m + n) :: after)) := by
  refine ⟨exists_hitAll_iff hstart f, agree_apart hstart f, fun hits' hperm => ?_, ?_⟩
  · have hmembers : ∀ P : Target → Prop, (∀ hit ∈ hits, P hit.1) ↔ ∀ hit ∈ hits', P hit.1 :=
      fun P => forall_congr' fun hit => imp_congr_left hperm.mem_iff
    exact agree_of_gains hstart f ((hmembers _).1 hstart) (hmembers _) fun k =>
      (hperm.map _).sum_eq
  · rintro before t m n after rfl
    have hmembers : ∀ P : Target → Prop, (∀ hit ∈ before ++ (t, m) :: (t, n) :: after, P hit.1) ↔
        ∀ hit ∈ before ++ (t, m + n) :: after, P hit.1 := by
      intro P
      simp only [List.forall_mem_append, List.forall_mem_cons]
      tauto
    refine agree_of_gains hstart f ((hmembers _).1 hstart) (hmembers _) fun k => ?_
    rw [gains_append, gains_append, gains_cons, gains_cons, gains_cons, ← add_assoc (t.gain m k),
      Target.gain_add]

/-- A fragment that has counted the first arm of a branch. -/
def firstArm : Fragment := { branches := KeyedList.empty.insert (.ofInt 61) [4] }

/-- A statement of two lines that stands for the third arm of the branch. -/
def thirdArm : Target where
  key := .statement (.ofInt 59)
  location := some ⟨⟨34, 7⟩, ⟨35, 2⟩⟩
  parent := some ⟨.ofInt 61, 2⟩

/-- Hits of the statement, taken back in part, and of the first arm. -/
def armHitsMixed : List (Target × Int) :=
  [(thirdArm, 3), (thirdArm, -1), (⟨.branch (.ofInt 61) 0, none, none⟩, 2)]

/-- The hits make room for the third arm, in place as well as apart, and two of them are one. -/
theorem hitAll_adds_up_mixed :
    (∀ hit ∈ armHitsMixed, hit.1.FromStart) ∧
      (∃ g, firstArm.hitAll armHitsMixed = .ok g ∧
        g.branches.get? (.ofInt 61) = some [6, 0, 2] ∧ g.lines.get? (.ofInt 35) = some 2) ∧
      Agree (firstArm.hitAll armHitsMixed)
        ((({} : Fragment).hitAll armHitsMixed).map firstArm.merge) ∧
      Agree (firstArm.hitAll armHitsMixed) (firstArm.hitAll armHitsMixed.reverse) ∧
      Agree (firstArm.hitAll armHitsMixed)
        (firstArm.hitAll [(thirdArm, 2), (⟨.branch (.ofInt 61) 0, none, none⟩, 2)]) := by
  have hstart : ∀ hit ∈ armHitsMixed, hit.1.FromStart := by
    have hstatement : thirdArm.FromStart := ⟨nofun, fun a ha => by cases ha; decide⟩
    refine List.forall_mem_cons.2 ⟨hstatement, List.forall_mem_cons.2 ⟨hstatement, ?_⟩⟩
    exact List.forall_mem_singleton.2 ⟨fun id arm h => by cases h; decide, nofun⟩
  obtain ⟨-, hapart, hperm, htwice⟩ := hitAll_adds_up hstart firstArm
  refine ⟨hstart, ?_, hapart none, hperm _ (List.reverse_perm _).symm, ?_⟩
  · refine ⟨_, rfl, ?_, ?_⟩ <;> decide +kernel
  · exact htwice [] thirdArm 3 (-1) [(⟨.branch (.ofInt 61) 0, none, none⟩, 2)] rfl

end ContractCoverage.Fragment
