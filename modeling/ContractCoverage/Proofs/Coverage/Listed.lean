import ContractCoverage.Proofs.Coverage.Counts
import ContractCoverage.Proofs.Data.Repeated

/-! Totals that list a range table.

Merging the zero hits of a table into a total lists everything that the table has. From
then on the total covers these zero hits (`Covers`), whatever is merged into it: no key
goes away, no branch loses arms, and places stay what they are. So listing the table
once more changes nothing at all (`merge_initial_of_covers`). -/
namespace ContractCoverage.Fragment

/-- A fragment lists what another one lists, with as many arms, and says the same of where it
is. -/
structure Covers (f g : Fragment) : Prop where
  path : f.path = g.path
  statements : ∀ k, g.statements.contains k = true → f.statements.contains k = true
  functions : ∀ k, g.functions.contains k = true → f.functions.contains k = true
  lines : ∀ k, g.lines.contains k = true → f.lines.contains k = true
  branches : ∀ k counts, g.branches.get? k = some counts →
    ∃ own, f.branches.get? k = some own ∧ counts.length ≤ own.length
  places : f.SamePlaces g

/-! ### What is covered remains so -/

theorem length_addCounts (a b : List Int) : (addCounts a b).length = max a.length b.length := by
  simp only [addCounts, padCounts, List.length_zipWith, List.length_append, List.length_replicate]
  omega

theorem contains_addCounters (a b : KeyedList Ident Int) (k : Ident) :
    (addCounters a b).contains k = (a.contains k || b.contains k) := by
  simp only [KeyedList.contains, get?_addCounters]
  cases a.get? k <;> cases b.get? k <;> rfl

/-- A total covers what it covered after anything without places has been merged into it. -/
theorem Covers.merge {f g added : Fragment} (h : f.Covers g) (hpath : added.path = f.path)
    (hplaces : added.SamePlaces {}) : (f.merge added).Covers g where
  path := by
    show firstPath f.path added.path = g.path
    rw [hpath, firstPath_self, h.path]
  statements k hk := by
    show (addCounters f.statements added.statements).contains k = true
    rw [contains_addCounters, h.statements k hk, Bool.true_or]
  functions k hk := by
    show (addCounters f.functions added.functions).contains k = true
    rw [contains_addCounters, h.functions k hk, Bool.true_or]
  lines k hk := by
    show (addCounters f.lines added.lines).contains k = true
    rw [contains_addCounters, h.lines k hk, Bool.true_or]
  branches k counts hk := by
    obtain ⟨own, hown, hlength⟩ := h.branches k counts hk
    show ∃ after, (addBranches f.branches added.branches).get? k = some after ∧ _
    rw [get?_addBranches, hown]
    cases added.branches.get? k with
    | none => exact ⟨own, rfl, hlength⟩
    | some more =>
      refine ⟨addCounts own more, rfl, ?_⟩
      rw [length_addCounts]
      omega
  places := (samePlaces_merge f hplaces).trans h.places

/-- A total without places covers what has just been merged into it. -/
theorem covers_merge_self {f g : Fragment} (hpath : f.path = g.path) (hplaces : f.SamePlaces {}) :
    (f.merge g).Covers g where
  path := by
    show firstPath f.path g.path = g.path
    rw [hpath, firstPath_self]
  statements k hk := by
    show (addCounters f.statements g.statements).contains k = true
    rw [contains_addCounters, hk, Bool.or_true]
  functions k hk := by
    show (addCounters f.functions g.functions).contains k = true
    rw [contains_addCounters, hk, Bool.or_true]
  lines k hk := by
    show (addCounters f.lines g.lines).contains k = true
    rw [contains_addCounters, hk, Bool.or_true]
  branches k counts hk := by
    show ∃ after, (addBranches f.branches g.branches).get? k = some after ∧ _
    rw [get?_addBranches, hk]
    cases f.branches.get? k with
    | none => exact ⟨counts, rfl, Nat.le_refl _⟩
    | some own =>
      refine ⟨addCounts own counts, rfl, ?_⟩
      rw [length_addCounts]
      omega
  places := by
    refine ⟨?_, ?_, ?_⟩
    · show union f.statementMap g.statementMap = _
      rw [hplaces.statements]
      rfl
    · show union f.functionMap g.functionMap = _
      rw [hplaces.functions]
      rfl
    · show union f.branchMap g.branchMap = _
      rw [hplaces.branches]
      rfl

/-! ### Listing once more -/

/-- Zero hits of keys that are listed change no counter. -/
theorem addCounters_zeros_of_covers {counters : KeyedList Ident Int} {keys : List Ident}
    (h : ∀ k, (RangeTable.zeros keys).contains k = true → counters.contains k = true) :
    addCounters counters (RangeTable.zeros keys) = counters := by
  apply KeyedList.mergeWith_eq_self
  intro e he
  have hget : (RangeTable.zeros keys).get? e.1 = some e.2 := KeyedList.get?_of_mem he
  have hcontains : counters.contains e.1 = true := by
    apply h
    rw [KeyedList.contains, hget]
    rfl
  obtain ⟨n, hn⟩ := Option.isSome_iff_exists.1 hcontains
  refine ⟨n, hn, ?_⟩
  rw [get?_zeros hget]
  exact Int.add_zero n

/-- No hits of arms that are there change no counts. -/
theorem addBranches_zeros_of_covers {branches : KeyedList Ident (List Int)}
    {arms : KeyedList Ident (Int × Option BranchInfo)}
    (h : ∀ k counts, (arms.map fun a => List.replicate a.1.toNat (0 : Int)).get? k = some counts →
      ∃ own, branches.get? k = some own ∧ counts.length ≤ own.length) :
    addBranches branches (arms.map fun a => List.replicate a.1.toNat (0 : Int)) = branches := by
  apply KeyedList.mergeWith_eq_self
  intro e he
  obtain ⟨own, hown, hlength⟩ := h e.1 e.2 (KeyedList.get?_of_mem he)
  obtain ⟨a, -, rfl⟩ := List.mem_map.1 he
  refine ⟨own, hown, ?_⟩
  rw [List.length_replicate] at hlength
  show addCounts own (List.replicate a.2.1.toNat 0) = own
  rw [addCounts_replicate_zero, padCounts, Nat.sub_eq_zero_of_le hlength, List.replicate_zero,
    List.append_nil]

/-- Places that are known already change none. -/
theorem union_self {ν : Type} (places : KeyedList Ident ν) : union places places = places := by
  apply KeyedList.mergeWith_eq_self
  intro e he
  exact ⟨e.2, KeyedList.get?_of_mem he, rfl⟩

/-- Listing a table that a total covers leaves the total as it is. -/
theorem merge_initial_of_covers {f : Fragment} {table : RangeTable} {path : Option String}
    (h : f.Covers (table.initial path)) : f.merge (table.initial path) = f := by
  obtain ⟨own, statements, branches, functions, lines, statementMap, functionMap, branchMap⟩ := f
  have hstatements : addCounters statements (RangeTable.zeros table.statements.keys) =
      statements := addCounters_zeros_of_covers h.statements
  have hfunctions : addCounters functions (RangeTable.zeros table.functions.keys) =
      functions := addCounters_zeros_of_covers h.functions
  have hlines : addCounters lines (RangeTable.zeros (table.lines.map .ofInt)) = lines :=
    addCounters_zeros_of_covers h.lines
  have hbranches : addBranches branches (table.branches.map fun a =>
      List.replicate a.1.toNat (0 : Int)) = branches := addBranches_zeros_of_covers h.branches
  obtain ⟨hsm, hfm, hbm⟩ := h.places
  have hpath : own = path := h.path
  subst hpath hsm hfm hbm
  simp only [merge, RangeTable.initial, firstPath_self, union_self]
  rw [hstatements, hfunctions, hlines, hbranches]

end ContractCoverage.Fragment
