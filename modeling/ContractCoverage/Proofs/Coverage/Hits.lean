import ContractCoverage.Proofs.Coverage.Built
import ContractCoverage.Proofs.Coverage.Counts

/-! What hits do to the counters of statements and functions.

A hit adds to the one counter that its target names, and to no other (`counterOf_hit`).
So after many hits a counter is what it was before plus all hits of its own target, in
whatever order they come (`counterOf_hitAll`). -/
namespace ContractCoverage

namespace TargetKey

theorem statement_beq (a b : Ident) : (statement a == statement b) = (a == b) := by
  apply Bool.eq_iff_iff.2
  rw [beq_iff, Ident.beq_iff]
  simp [identity, kind, id, arm?]

theorem function_beq (a b : Ident) : (function a == function b) = (a == b) := by
  apply Bool.eq_iff_iff.2
  rw [beq_iff, Ident.beq_iff]
  simp [identity, kind, id, arm?]

section Equal
variable {a b : TargetKey} (h : (a == b) = true)
include h

theorem kind_eq_of_beq : a.kind = b.kind := congrArg Prod.fst (beq_iff.1 h)

theorem id_beq_of_beq : (a.id == b.id) = true := Ident.beq_iff.2 (congrArg (·.2.1) (beq_iff.1 h))

theorem arm?_eq_of_beq : a.arm? = b.arm? := congrArg (·.2.2) (beq_iff.1 h)

end Equal

theorem beq_of_kind_ne {a b : TargetKey} (h : a.kind ≠ b.kind) : (a == b) = false := by
  apply Bool.eq_false_iff.2
  intro hb
  exact h (kind_eq_of_beq hb)

end TargetKey

namespace Fragment

/-- The counter of a statement or a function. The arms of a branch have none of their own. -/
def counterOf (f : Fragment) : TargetKey → Option Int
  | .statement id _ => f.statements.get? id
  | .function id _ => f.functions.get? id
  | .branch .. => none

/-- A counter, which may be missing so far, after hits. -/
def credit (count : Option Int) (n : Int) : Option Int := some (count.getD 0 + n)

theorem get?_bump (counters : KeyedList Ident Int) (a b : Ident) (n : Int) :
    (bump counters a n).get? b =
      if a == b then credit (counters.get? b) n else counters.get? b := by
  rw [bump, KeyedList.get?_update]
  split
  · next h => rw [counters.get?_congr h, credit]
  · rfl

theorem counterOf_hitArm (f : Fragment) (a : BranchArm) (n : Int) :
    (f.hitArm a n).1.counterOf = f.counterOf := by
  funext key
  unfold hitArm
  split <;> cases key <;> rfl

theorem counterOf_hitKey {f g : Fragment} {key own : TargetKey} {n : Int} (hkey : key.IsPlain)
    (hown : own.IsPlain) (hbranch : own.isBranch = false) (h : f.hitKey key n = (g, .ok ())) :
    g.counterOf own = if key == own then credit (f.counterOf own) n else f.counterOf own := by
  unfold hitKey at h
  split at h
  · cases h
  · cases key with
    | branch id arm =>
      have hne : (TargetKey.branch id arm == own) = false := by
        apply TargetKey.beq_of_kind_ne
        cases own with
        | branch => cases hbranch
        | statement => simp [TargetKey.kind]
        | function => simp [TargetKey.kind]
      have hg : (f.hitArm ⟨id, arm⟩ n).1 = g := congrArg Prod.fst h
      rw [hne, ← hg, counterOf_hitArm]
      rfl
    | statement id arm =>
      cases h
      obtain rfl : arm = none := hkey rfl
      cases own with
      | branch => cases hbranch
      | function =>
        rw [TargetKey.beq_of_kind_ne (by simp [TargetKey.kind])]
        rfl
      | statement id' arm' =>
        obtain rfl : arm' = none := hown rfl
        rw [TargetKey.statement_beq]
        exact get?_bump ..
    | function id arm =>
      cases h
      obtain rfl : arm = none := hkey rfl
      cases own with
      | branch => cases hbranch
      | statement =>
        rw [TargetKey.beq_of_kind_ne (by simp [TargetKey.kind])]
        rfl
      | function id' arm' =>
        obtain rfl : arm' = none := hown rfl
        rw [TargetKey.function_beq]
        exact get?_bump ..

/-- A hit adds to the counter of its own target and to no other. -/
theorem counterOf_hit {f g : Fragment} {t : Target} {own : TargetKey} {n : Int}
    (ht : t.key.IsPlain) (hown : own.IsPlain) (hbranch : own.isBranch = false)
    (h : f.hit t n = (g, .ok ())) :
    g.counterOf own = if t.key == own then credit (f.counterOf own) n else f.counterOf own := by
  unfold hit at h
  split at h
  · cases h
  · next counted he =>
    rw [← counterOf_hitKey ht hown hbranch he]
    have hlines : (counted.hitLines t.lines n).counterOf own = counted.counterOf own := by
      cases own <;> rfl
    rw [← hlines]
    cases hp : t.parent with
    | none =>
      rw [hp] at h
      cases h
      rfl
    | some a =>
      rw [hp] at h
      have hg : ((counted.hitLines t.lines n).hitArm a n).1 = g := congrArg Prod.fst h
      rw [← hg, counterOf_hitArm]

/-- After any number of hits a counter has all hits of its own target. -/
theorem counterOf_hitAll {f g : Fragment} {hits : List (Target × Int)} {own : TargetKey}
    (hplain : ∀ hit ∈ hits, hit.1.key.IsPlain) (hown : own.IsPlain)
    (hbranch : own.isBranch = false) (h : f.hitAll hits = .ok g) :
    g.counterOf own =
      ((hits.filter (·.1.key == own)).map (·.2)).foldl credit (f.counterOf own) := by
  induction hits generalizing f with
  | nil =>
    cases h
    rfl
  | cons hit hits ih =>
    obtain ⟨hhit, hrest⟩ := List.forall_mem_cons.1 hplain
    rw [hitAll] at h
    split at h
    · next f' he =>
      have hstep := counterOf_hit hhit hown hbranch he
      rw [ih hrest h, hstep, List.filter_cons]
      split <;> rfl
    · cases h

theorem counterOf_merge (a b : Fragment) (own : TargetKey) :
    (a.merge b).counterOf own = (a.counterOf own).merge (· + ·) (b.counterOf own) := by
  cases own with
  | statement => exact get?_addCounters ..
  | function => exact get?_addCounters ..
  | branch => rfl

end Fragment

end ContractCoverage
