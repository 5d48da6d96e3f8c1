import ContractCoverage.Proofs.Coverage.Growth

/-! What the sections of a fragment list.

The counters of a fragment stand in four sections. Merging lists what either fragment
lists (`lists_merge`), and listing a table lists its statements, branches and functions
and the lines of all its targets (`lists_initial_line`). Hits of targets that a fragment
has counters for list nothing that this fragment does not list, and no third arm of any
branch (`within_hitAll`); so merging them into a total that lists all of it adds no
counter (`ListsExactly.merge_within`). -/
namespace ContractCoverage

/-- The sections of a fragment. -/
inductive Section where
  | statements
  | branches
  | functions
  | lines

namespace Fragment

/-- Whether a section of a fragment has an identifier among its keys. -/
def lists (f : Fragment) : Section → Ident → Bool
  | .statements, k => f.statements.contains k
  | .branches, k => f.branches.contains k
  | .functions, k => f.functions.contains k
  | .lines, k => f.lines.contains k

theorem lists_congr (f : Fragment) (sec : Section) {k k' : Ident} (h : (k == k') = true) :
    f.lists sec k = f.lists sec k' := by
  cases sec <;> exact KeyedList.contains_congr _ h

theorem contains_addBranches (a b : KeyedList Ident (List Int)) (k : Ident) :
    (addBranches a b).contains k = (a.contains k || b.contains k) := by
  simp only [KeyedList.contains, get?_addBranches]
  cases a.get? k <;> cases b.get? k <;> rfl

theorem lists_merge (f g : Fragment) (sec : Section) (k : Ident) :
    (f.merge g).lists sec k = (f.lists sec k || g.lists sec k) := by
  cases sec with
  | branches => exact contains_addBranches ..
  | statements | functions | lines => exact contains_addCounters ..

theorem contains_zeros (keys : List Ident) (k : Ident) :
    (RangeTable.zeros keys).contains k = keys.any (· == k) := by
  rw [RangeTable.zeros, KeyedList.contains_ofList, List.any_map]
  rfl

theorem lists_initial_branch (t : RangeTable) (path : Option String) (k : Ident) :
    (t.initial path).lists .branches k = t.branches.contains k := by
  show ((t.branches.map _).get? k).isSome = (t.branches.get? k).isSome
  rw [KeyedList.get?_map, Option.isSome_map]

theorem lists_initial_statement (t : RangeTable) (path : Option String) (k : Ident) :
    (t.initial path).lists .statements k = t.statements.contains k :=
  (contains_zeros ..).trans (t.statements.contains_eq_any_keys k).symm

theorem lists_initial_function (t : RangeTable) (path : Option String) (k : Ident) :
    (t.initial path).lists .functions k = t.functions.contains k :=
  (contains_zeros ..).trans (t.functions.contains_eq_any_keys k).symm

/-- The lines of a registered target are listed. -/
theorem lists_initial_line {t : RangeTable} (path : Option String) {e : RangeKey × Target}
    (he : e ∈ t.registered) {line : Int} (hline : line ∈ e.2.lines) :
    (t.initial path).lists .lines (.ofInt line) = true := by
  refine (contains_zeros ..).trans (List.any_eq_true.2 ⟨.ofInt line, ?_, BEq.rfl⟩)
  exact List.mem_map.2 ⟨line, List.mem_flatMap.2 ⟨e, he, hline⟩, rfl⟩

/-! ### Hits of what is listed -/

/-- A fragment has counters for a target: for the statement or the function that it is, for its
lines, and for the first or the second arm of the branch that it is linked to. -/
structure Admits (g : Fragment) (t : Target) : Prop where
  own : match t.key with
    | .statement id _ => g.lists .statements id = true
    | .function id _ => g.lists .functions id = true
    | .branch .. => False
  lines : ∀ line ∈ t.lines, g.lists .lines (.ofInt line) = true
  parent : ∀ a, t.parent = some a → g.lists .branches a.branch = true ∧ 0 ≤ a.arm ∧ a.arm < 2

theorem Admits.of_lists {f g : Fragment} {t : Target} (h : g.Admits t)
    (hkeys : ∀ sec k, g.lists sec k = true → f.lists sec k = true) : f.Admits t where
  own := by
    have hown := h.own
    cases hkey : t.key with
    | statement id arm =>
      rw [hkey] at hown
      exact hkeys .statements id hown
    | function id arm =>
      rw [hkey] at hown
      exact hkeys .functions id hown
    | branch id arm =>
      rw [hkey] at hown
      exact hown
  lines line hline := hkeys .lines _ (h.lines line hline)
  parent a ha := ⟨hkeys .branches _ (h.parent a ha).1, (h.parent a ha).2⟩

/-- A fragment lists nothing that another one does not list, and no third arm of a branch. -/
structure Within (f g : Fragment) : Prop where
  keys : ∀ sec k, f.lists sec k = true → g.lists sec k = true
  arms : ∀ k counts, f.branches.get? k = some counts → counts.length ≤ 2

theorem within_unlisted (path : Option String) (g : Fragment) : ({ path } : Fragment).Within g where
  keys sec k h := by cases sec <;> cases h
  arms k counts h := by cases h

/-- A list with one more key lists nothing new when that key is listed elsewhere. -/
theorem lists_of_update {ν : Type} {m : KeyedList Ident ν} {id : Ident} {f : Option ν → ν}
    {g : Fragment} {sec : Section} (hm : ∀ k, m.contains k = true → g.lists sec k = true)
    (hid : g.lists sec id = true) (k : Ident) (h : (m.update id f).contains k = true) :
    g.lists sec k = true := by
  rw [KeyedList.contains_update, Bool.or_eq_true] at h
  rcases h with hk | h
  · rw [← g.lists_congr sec hk]
    exact hid
  · exact hm k h

/-- A hit of one of the first two arms makes no room for a third one. -/
theorem length_bumpArm_le {counts : List Int} (h : counts.length ≤ 2) {arm : Int} (hzero : 0 ≤ arm)
    (htwo : arm < 2) (n : Int) : (bumpArm counts arm n).length ≤ 2 := by
  unfold bumpArm
  split
  · rw [List.length_modify, padCounts, List.length_append, List.length_replicate]
    omega
  · exact h

section Hits
variable {f g : Fragment} (hf : f.Within g)
include hf

theorem within_hitArm {a : BranchArm} (hbranch : g.lists .branches a.branch = true)
    (hzero : 0 ≤ a.arm) (htwo : a.arm < 2) (n : Int) : (f.hitArm a n).1.Within g := by
  unfold hitArm
  split
  · exact hf
  · refine ⟨fun sec k h => ?_, fun k counts h => ?_⟩
    · cases sec with
      | branches => exact lists_of_update (hf.keys .branches) hbranch k h
      | statements => exact hf.keys .statements k h
      | functions => exact hf.keys .functions k h
      | lines => exact hf.keys .lines k h
    · have hget : (f.branches.update a.branch fun counts =>
          bumpArm (counts.getD []) a.arm n).get? k = some counts := h
      rw [KeyedList.get?_update] at hget
      split at hget
      · cases hget
        refine length_bumpArm_le ?_ hzero htwo n
        cases hold : f.branches.get? a.branch with
        | none => exact Nat.zero_le 2
        | some old => exact hf.arms a.branch old hold
      · exact hf.arms k counts hget

theorem within_hitKey {t : Target} (ht : g.Admits t) (n : Int) : (f.hitKey t.key n).1.Within g := by
  have hown := ht.own
  unfold hitKey
  split
  · exact hf
  · cases hkey : t.key with
    | branch id arm => rw [hkey] at hown; exact hown.elim
    | statement id arm =>
      rw [hkey] at hown
      refine ⟨fun sec k h => ?_, hf.arms⟩
      cases sec with
      | statements => exact lists_of_update (hf.keys .statements) hown k h
      | branches => exact hf.keys .branches k h
      | functions => exact hf.keys .functions k h
      | lines => exact hf.keys .lines k h
    | function id arm =>
      rw [hkey] at hown
      refine ⟨fun sec k h => ?_, hf.arms⟩
      cases sec with
      | functions => exact lists_of_update (hf.keys .functions) hown k h
      | branches => exact hf.keys .branches k h
      | statements => exact hf.keys .statements k h
      | lines => exact hf.keys .lines k h

theorem within_hitLines {lines : List Int}
    (h : ∀ line ∈ lines, g.lists .lines (.ofInt line) = true) (n : Int) :
    (f.hitLines lines n).Within g := by
  have hlines : ∀ (counters : KeyedList Ident Int),
      (∀ k, counters.contains k = true → g.lists .lines k = true) → ∀ k,
      (lines.foldl (fun m line => bump m (.ofInt line) n) counters).contains k = true →
        g.lists .lines k = true := by
    induction lines with
    | nil => exact fun _ hc => hc
    | cons line lines ih =>
      obtain ⟨hline, hrest⟩ := List.forall_mem_cons.1 h
      intro counters hc
      exact ih hrest _ (lists_of_update hc hline)
  refine ⟨fun sec k hk => ?_, hf.arms⟩
  cases sec with
  | lines => exact hlines f.lines (hf.keys .lines) k hk
  | branches => exact hf.keys .branches k hk
  | statements => exact hf.keys .statements k hk
  | functions => exact hf.keys .functions k hk

theorem within_hit {t : Target} (ht : g.Admits t) (n : Int) : (f.hit t n).1.Within g := by
  refine hit_keeps (P := fun own => own.Within g) (within_hitKey hf ht n) ?_ ?_
  · exact fun own hown => within_hitLines hown ht.lines n
  · intro own a hparent hown
    obtain ⟨hbranch, hzero, htwo⟩ := ht.parent a hparent
    exact within_hitArm hown hbranch hzero htwo n

end Hits

/-- Any number of hits of targets that a fragment has counters for stays within it. -/
theorem within_hitAll {f g added : Fragment} {hits : List (Target × Int)} (hf : f.Within g)
    (hhits : ∀ hit ∈ hits, g.Admits hit.1) (h : f.hitAll hits = .ok added) : added.Within g :=
  hitAll_keeps (P := fun own => own.Within g) hf
    (fun _ hown hit hmem => within_hit hown (hhits hit hmem) hit.2) h

/-! ### Totals that list tables -/

/-- A total lists exactly what the zero hits of tables list, and has two arms of every branch. -/
structure ListsExactly (f : Fragment) (tables : List RangeTable) : Prop where
  keys : ∀ sec k, f.lists sec k = tables.any fun t => t.initial.lists sec k
  arms : ∀ k counts, f.branches.get? k = some counts → counts.length = 2

theorem listsExactly_unlisted (path : Option String) : ({ path } : Fragment).ListsExactly [] where
  keys sec k := by cases sec <;> rfl
  arms k counts h := by cases h

/-- One more table, all branches of which have two arms. -/
theorem ListsExactly.merge_initial {f : Fragment} {tables : List RangeTable} {t : RangeTable}
    (h : f.ListsExactly tables) (path : Option String)
    (ht : ∀ k entry, t.branches.get? k = some entry → entry.1 = 2) :
    (f.merge (t.initial path)).ListsExactly (tables ++ [t]) where
  keys sec k := by
    rw [lists_merge, h.keys, List.any_append, List.any_cons, List.any_nil, Bool.or_false]
    cases sec <;> rfl
  arms k counts hk := by
    have hget : (addBranches f.branches (t.branches.map fun branch =>
        List.replicate branch.1.toNat (0 : Int))).get? k = some counts := hk
    rw [get?_addBranches, KeyedList.get?_map] at hget
    refine Counts.forall_merge (fun a b ha hb => ?_) (h.arms k) (fun zeros hz => ?_) counts hget
    · rw [length_addCounts, ha, hb]
      rfl
    · obtain ⟨entry, hentry, rfl⟩ := Option.map_eq_some_iff.1 hz
      rw [List.length_replicate, ht k entry hentry]
      rfl

/-- What one of the tables lists is listed in the total. -/
theorem ListsExactly.of_mem {f : Fragment} {tables : List RangeTable} {t : RangeTable}
    (h : f.ListsExactly tables) (ht : t ∈ tables) (sec : Section) (k : Ident)
    (hk : t.initial.lists sec k = true) : f.lists sec k = true := by
  rw [h.keys]
  exact List.any_eq_true.2 ⟨t, ht, hk⟩

/-- Merging a fragment that is within a total adds no counter to it. -/
theorem ListsExactly.merge_within {f added : Fragment} {tables : List RangeTable}
    (h : f.ListsExactly tables) (hadded : added.Within f) :
    (f.merge added).ListsExactly tables := by
  refine ⟨fun sec k => ?_, fun k counts hk => ?_⟩
  · rw [lists_merge, ← h.keys, Bool.or_eq_left_iff_imp]
    exact hadded.keys sec k
  · have hget : (addBranches f.branches added.branches).get? k = some counts := hk
    rw [get?_addBranches] at hget
    cases hmore : added.branches.get? k with
    | none =>
      rw [hmore, Option.merge_none_right] at hget
      exact h.arms k counts hget
    | some more =>
      -- Hits of one arm alone leave a list of one count or two, and the total has two already.
      have hlisted : f.branches.contains k = true := hadded.keys .branches k (by
        show (added.branches.get? k).isSome = true
        rw [hmore]
        rfl)
      obtain ⟨own, hown⟩ := Option.isSome_iff_exists.1 hlisted
      rw [hmore, hown] at hget
      cases hget
      rw [length_addCounts, h.arms k own hown]
      exact Nat.max_eq_left (hadded.arms k more hmore)

/-- Totals that list the same tables have the same keys, and as many arms of every branch. -/
theorem ListsExactly.same {f g : Fragment} {tables : List RangeTable} (hf : f.ListsExactly tables)
    (hg : g.ListsExactly tables) : (∀ sec k, f.lists sec k = g.lists sec k) ∧
      ∀ k, (f.branches.get? k).map List.length = (g.branches.get? k).map List.length := by
  have hkeys : ∀ sec k, f.lists sec k = g.lists sec k := fun sec k =>
    (hf.keys sec k).trans (hg.keys sec k).symm
  refine ⟨hkeys, fun k => ?_⟩
  have hboth : (f.branches.get? k).isSome = (g.branches.get? k).isSome := hkeys .branches k
  cases hown : f.branches.get? k with
  | none =>
    cases hother : g.branches.get? k with
    | none => rfl
    | some others => simp [hown, hother] at hboth
  | some counts =>
    cases hother : g.branches.get? k with
    | none => simp [hown, hother] at hboth
    | some others =>
      rw [Option.map_some, Option.map_some, hf.arms k counts hown, hg.arms k others hother]

end Fragment

end ContractCoverage
