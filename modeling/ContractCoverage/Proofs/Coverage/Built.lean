import ContractCoverage.Coverage.RangeTable
import ContractCoverage.Proofs.Data.Chain

/-! Range tables as they come about: from the empty one, by steps that add to it.

A step that succeeds registers at most the one target that it names, and a step that
fails registers none (`registered_add`). So what holds of the target of every step
holds of every target of a built table. -/
namespace ContractCoverage

/-- Only the key of a branch names an arm. -/
def TargetKey.IsPlain (key : TargetKey) : Prop := key.isBranch = false → key.arm? = none

/-- What a step that succeeds registers. -/
def Registration.entries (step : Registration) : List (RangeKey × Target) :=
  match step.target? with
  | none => []
  | some (src, target) =>
    match src.key with
    | .ok key => [(key, target)]
    | .error _ => []

namespace RangeTable

/-- Tables made from the empty one by adding steps, also ones that fail. -/
inductive Built : RangeTable → Prop
  | empty : Built .empty
  | add {t : RangeTable} (h : Built t) (step : Registration) : Built (t.add step).1

/-- A step registers its target behind those that are there, or nothing. -/
theorem registered_add (t : RangeTable) (step : Registration) :
    (t.add step).1.registered = t.registered ∨
      ∃ src target key, step.target? = some (src, target) ∧ src.key = .ok key ∧
        (t.add step).1.registered = t.registered ++ [(key, target)] := by
  unfold RangeTable.add
  cases hl : t.list step with
  | error fault => exact .inl rfl
  | ok listed =>
    have hlisted := registered_of_list hl
    simp only [enroll]
    cases ht : step.target? with
    | none => exact .inl hlisted
    | some found =>
      obtain ⟨src, target⟩ := found
      simp only
      cases hk : src.key with
      | error fault => exact .inl hlisted
      | ok key =>
        refine .inr ⟨src, target, key, rfl, hk, ?_⟩
        show listed.registered ++ [(key, target)] = _
        rw [hlisted]

/-- What holds of the target of every step holds of all registered targets. -/
theorem Built.forall_registered {P : Target → Prop}
    (hstep : ∀ (step : Registration) src target, step.target? = some (src, target) → P target)
    {t : RangeTable} (h : Built t) : ∀ e ∈ t.registered, P e.2 := by
  induction h with
  | empty =>
    intro e he
    cases he
  | @add t h step ih =>
    rcases registered_add t step with hr | ⟨src, target, key, ht, -, hr⟩
    · rw [hr]
      exact ih
    · intro e he
      rw [hr] at he
      rcases List.mem_append.1 he with he | he
      · exact ih e he
      · rw [List.mem_singleton.1 he]
        exact hstep step src target ht

/-- The keys of a built table are plain. -/
theorem Built.isPlain {t : RangeTable} (h : Built t) : ∀ e ∈ t.registered, e.2.key.IsPlain := by
  refine h.forall_registered (P := fun target => target.key.IsPlain) fun step src target ht => ?_
  cases step with
  | statement => cases ht; exact fun _ => rfl
  | function => cases ht; exact fun _ => rfl
  | branch => cases ht
  | arm => cases ht; exact fun hb => by cases hb

/-! ### Steps that succeed -/

/-- Whether a step can be listed does not depend on the table. -/
theorem list_ok_of_ok {t listed : RangeTable} {step : Registration} (h : t.list step = .ok listed)
    (u : RangeTable) : ∃ listed', u.list step = .ok listed' := by
  cases step with
  | branch id arms kind guard locations =>
    simp only [RangeTable.list, bind_eq_ok_iff] at h ⊢
    obtain ⟨info, hinfo, key, hkey, -⟩ := h
    exact ⟨_, info, hinfo, key, hkey, rfl⟩
  | statement | function | arm =>
    simp only [RangeTable.list, bind_eq_ok_iff] at h ⊢
    obtain ⟨key, hkey, -⟩ := h
    exact ⟨_, key, hkey, rfl⟩

/-- A step that succeeds registers its target, and it succeeds with every table. -/
theorem add_of_ok {t t' : RangeTable} {step : Registration} (h : t.add step = (t', .ok ())) :
    t'.registered = t.registered ++ step.entries ∧
      ∀ u : RangeTable, ∃ u', u.add step = (u', .ok ()) := by
  obtain ⟨listed, hlist, henroll⟩ := add_eq_ok_iff.1 h
  have hlisted := registered_of_list hlist
  unfold enroll at henroll
  unfold Registration.entries
  cases ht : step.target? with
  | none =>
    rw [ht] at henroll
    cases henroll
    refine ⟨by rw [hlisted, List.append_nil], fun u => ?_⟩
    obtain ⟨listed', hlist'⟩ := list_ok_of_ok hlist u
    exact ⟨listed', add_eq_ok_iff.2 ⟨listed', hlist', by rw [enroll, ht]⟩⟩
  | some found =>
    obtain ⟨src, target⟩ := found
    rw [ht] at henroll
    simp only at henroll ⊢
    cases hk : src.key with
    | error fault =>
      rw [hk] at henroll
      cases henroll
    | ok key =>
      rw [hk] at henroll
      cases henroll
      refine ⟨congrArg (· ++ [(key, target)]) hlisted, fun u => ?_⟩
      obtain ⟨listed', hlist'⟩ := list_ok_of_ok hlist u
      refine ⟨listed'.register key target, add_eq_ok_iff.2 ⟨listed', hlist', ?_⟩⟩
      simp only [enroll, ht, hk]
      rfl

/-- Steps that succeed register their targets in order, and they succeed with every table. -/
theorem addAll_of_ok {t t' : RangeTable} {steps : List Registration}
    (h : t.addAll steps = .ok t') :
    t'.registered = t.registered ++ steps.flatMap Registration.entries ∧
      ∀ u : RangeTable, ∃ u', u.addAll steps = .ok u' := by
  induction steps generalizing t with
  | nil =>
    cases h
    exact ⟨(List.append_nil _).symm, fun u => ⟨u, rfl⟩⟩
  | cons step steps ih =>
    rw [RangeTable.addAll] at h
    split at h
    · next first he =>
      obtain ⟨hfirst, hevery⟩ := add_of_ok he
      obtain ⟨hrest, hothers⟩ := ih h
      refine ⟨by rw [hrest, hfirst, List.flatMap_cons, List.append_assoc], fun u => ?_⟩
      obtain ⟨u', hu⟩ := hevery u
      obtain ⟨u'', hu'⟩ := hothers u'
      exact ⟨u'', by rw [RangeTable.addAll, hu]; exact hu'⟩
    · cases h

/-- What a range resolves to is registered. -/
theorem mem_registered_of_resolve {t : RangeTable} {r : Range} {target : Target}
    (h : target ∈ t.resolve r) : ∃ e ∈ t.registered, e.2 = target := by
  unfold resolve at h
  split at h
  · obtain ⟨e, he, rfl⟩ := List.mem_map.1 h
    exact ⟨e, (List.mem_filter.1 he).1, rfl⟩
  · cases h

/-- A range resolves to no more targets of a kind than are registered. -/
theorem countP_resolve_le (t : RangeTable) (r : Range) (p : Target → Bool) :
    (t.resolve r).countP p ≤ (t.registered.map (·.2)).countP p := by
  unfold resolve
  split
  · exact (List.filter_sublist.map _).countP_le
  · exact Nat.zero_le _

end RangeTable

end ContractCoverage
