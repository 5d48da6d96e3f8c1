import ContractCoverage.Proofs.Coverage.Hits
import ContractCoverage.Proofs.Data.Runs
import ContractCoverage.Proofs.File.Recording
import Mathlib.Algebra.GroupWithZero.Nat
import Mathlib.Data.List.TakeWhile

/-! Visits of a target.

The replay remembers the targets of the step before and counts a target whenever it was
not among them. Over a frame this counts the maximal runs of steps that count for the
target (`countP_sightings`), over a trace the runs of all its frames, and the tally has
one entry for each target that has been met, with this number (`hits_of_key`). The number
becomes hits, and hits of a statement or a function reach its counter and no other
(`record_visits`). -/
namespace ContractCoverage

namespace Replay

/-! ### Sightings of one key -/

/-- Whether a step that counts for targets counts for a key. -/
def meets (key : TargetKey) (targets : List Target) : Bool := targets.any (·.key == key)

/-- Whether a sighting is the first of a visit of a key. -/
def begins (key : TargetKey) (sighting : Target × Bool) : Bool :=
  sighting.1.key == key && sighting.2

theorem contains_keys (targets : List Target) (key : TargetKey) :
    (targets.map (·.key)).contains key = meets key targets := by
  rw [meets, List.contains_eq_any_beq, List.any_map]
  congr 1
  funext t
  exact BEq.comm

theorem contains_congr {key key' : TargetKey} (h : (key == key') = true) (keys : List TargetKey) :
    keys.contains key = keys.contains key' := by
  rw [List.contains_eq_any_beq, List.contains_eq_any_beq]
  congr 1
  funext k
  exact BEq.congr_left h

theorem countP_of_le_one {α : Type} {p : α → Bool} {l : List α} (h : l.countP p ≤ 1) :
    l.countP p = if l.any p then 1 else 0 := by
  cases ha : l.any p with
  | true =>
    have hpos : 0 < l.countP p := List.countP_pos_iff.2 (List.any_eq_true.1 ha)
    simp only [if_true]
    omega
  | false =>
    rw [List.any_eq_false] at ha
    exact List.countP_eq_zero.2 ha

/-- One step begins a visit of a key when it counts for it and the step before did not. -/
theorem countP_step {key : TargetKey} {targets : List Target} (previous : List TargetKey)
    (honce : targets.countP (·.key == key) ≤ 1) :
    (targets.map fun t => (t, !previous.contains t.key)).countP (begins key) =
      if meets key targets && !previous.contains key then 1 else 0 := by
  have hbegins : begins key ∘ (fun t : Target => (t, !previous.contains t.key)) =
      fun t => t.key == key && !previous.contains key := by
    funext t
    show (t.key == key && !previous.contains t.key) = _
    cases ht : t.key == key with
    | true => rw [contains_congr ht]
    | false => rfl
  rw [List.countP_map, hbegins]
  cases previous.contains key with
  | true => simp
  | false => simpa [meets] using countP_of_le_one honce

/-- Over the steps of a frame visits begin where runs of steps that count for the key begin. -/
theorem countP_sightings {key : TargetKey} {steps : List (List Target)}
    (honce : ∀ targets ∈ steps, targets.countP (·.key == key) ≤ 1) (previous : List TargetKey) :
    (sightings previous steps).countP (begins key) =
      runStarts (meets key) (previous.contains key) steps := by
  induction steps generalizing previous with
  | nil => rfl
  | cons targets steps ih =>
    obtain ⟨hfirst, hrest⟩ := List.forall_mem_cons.1 honce
    rw [sightings, List.countP_append, countP_step previous hfirst, ih hrest, contains_keys,
      runStarts]

/-- A key is sighted when some step counts for it. -/
theorem any_sightings (key : TargetKey) (steps : List (List Target)) (previous : List TargetKey) :
    (sightings previous steps).any (·.1.key == key) = steps.any (meets key) := by
  induction steps generalizing previous with
  | nil => rfl
  | cons targets steps ih =>
    rw [sightings, List.any_append, List.any_map, ih, List.any_cons]
    rfl

/-- What is sighted is a target of some step. -/
theorem mem_of_sightings {steps : List (List Target)} {previous : List TargetKey}
    {sighting : Target × Bool} (h : sighting ∈ sightings previous steps) :
    ∃ targets ∈ steps, sighting.1 ∈ targets := by
  induction steps generalizing previous with
  | nil => cases h
  | cons targets steps ih =>
    rw [sightings] at h
    rcases List.mem_append.1 h with h | h
    · obtain ⟨t, ht, rfl⟩ := List.mem_map.1 h
      exact ⟨targets, List.mem_cons_self .., ht⟩
    · obtain ⟨found, hfound, hs⟩ := ih h
      exact ⟨found, List.mem_cons_of_mem _ hfound, hs⟩

/-! ### The tally -/

theorem countP_begins_of_unsighted {key : TargetKey} {all : List (Target × Bool)}
    (h : all.any (·.1.key == key) = false) : all.countP (begins key) = 0 := by
  rw [List.any_eq_false] at h
  refine List.countP_eq_zero.2 fun sighting hs hb => h sighting hs ?_
  exact (Bool.and_eq_true_iff.1 hb).1

/-- The tally has an entry for a key that has been sighted, with the number of its visits. -/
theorem get?_foldl_count (all : List (Target × Bool)) (tally : Tally) (key : TargetKey) :
    ((all.foldl count tally).get? key).map (·.2) =
      if all.any (·.1.key == key) then
        some (((tally.get? key).map (·.2)).getD 0 + all.countP (begins key))
      else (tally.get? key).map (·.2) := by
  induction all generalizing tally with
  | nil => simp
  | cons sighting all ih =>
    obtain ⟨t, new⟩ := sighting
    have hstep : ((count tally (t, new)).get? key).map (·.2) =
        if t.key == key then some (((tally.get? key).map (·.2)).getD 0 + if new then 1 else 0)
        else (tally.get? key).map (·.2) := by
      rw [count, KeyedList.get?_update]
      split
      · next ht => rw [tally.get?_congr ht, Option.map_some]
      · rfl
    rw [List.foldl_cons, ih, hstep, List.any_cons, List.countP_cons]
    cases ht : t.key == key with
    | false =>
      have hnew : begins key (t, new) = false := by simp [begins, ht]
      simp only [hnew, Bool.false_or, Bool.false_eq_true, if_false, Nat.add_zero]
    | true =>
      have hnew : begins key (t, new) = new := by simp [begins, ht]
      cases ha : all.any (·.1.key == key) with
      | true => simp [hnew, Nat.add_assoc, Nat.add_comm, Nat.add_left_comm]
      | false => simp [hnew, countP_begins_of_unsighted ha]

/-- An entry that changes, or comes in, is under the key of the target that has been sighted. -/
theorem forall_entries_count {P : Target → Prop} {sighting : Target × Bool} {tally : Tally}
    (hsighting : P sighting.1)
    (h : ∀ e ∈ tally.entries, (e.1 == e.2.1.key) = true ∧ P e.2.1) :
    ∀ e ∈ (count tally sighting).entries, (e.1 == e.2.1.key) = true ∧ P e.2.1 :=
  KeyedList.forall_entries_update
    (P := fun k (v : Target × Nat) => (k == v.1.key) = true ∧ P v.1) h
    ⟨BEq.rfl, hsighting⟩ fun _ _ ha => ⟨ha, hsighting⟩

/-- The entries of the tally are under the keys of their targets, and these have been sighted. -/
theorem forall_entries_foldl_count {P : Target → Prop} {all : List (Target × Bool)} {tally : Tally}
    (hall : ∀ sighting ∈ all, P sighting.1)
    (h : ∀ e ∈ tally.entries, (e.1 == e.2.1.key) = true ∧ P e.2.1) :
    ∀ e ∈ (all.foldl count tally).entries, (e.1 == e.2.1.key) = true ∧ P e.2.1 := by
  induction all generalizing tally with
  | nil => exact h
  | cons sighting all ih =>
    obtain ⟨hfirst, hrest⟩ := List.forall_mem_cons.1 hall
    exact ih hrest (forall_entries_count hfirst h)

/-- The hits of a trace have one entry for a key that has been sighted and none for another. -/
theorem hits_of_key (file : FileCoverage) (passages : List Passage) (key : TargetKey) :
    ((hits file passages).filter (·.1.key == key)).map (·.2) =
      if (passages.flatMap (·.sightings file)).any (·.1.key == key) then
        [((passages.flatMap (·.sightings file)).countP (begins key) : Int)]
      else [] := by
  rw [hits]
  generalize passages.flatMap (·.sightings file) = all
  have hentries : ∀ e ∈ (all.foldl count KeyedList.empty).entries,
      (e.1 == e.2.1.key) = true ∧ True :=
    forall_entries_foldl_count (P := fun _ => True) (fun _ _ => trivial)
      fun e he => absurd he List.not_mem_nil
  have hget := get?_foldl_count all KeyedList.empty key
  generalize all.foldl count KeyedList.empty = tally at hentries hget ⊢
  have hfilter : (tally.entries.filter fun e => e.2.1.key == key) =
      tally.entries.filter (·.1 == key) := by
    refine List.filter_congr fun e he => ?_
    exact BEq.congr_left (BEq.symm (hentries e he).1)
  have hvalues : ((tally.values.map fun v => (v.1, (v.2 : Int))).filter (·.1.key == key)).map
      (·.2) = ((tally.entries.filter (·.1 == key)).map (·.2)).map fun v => (v.2 : Int) := by
    rw [← hfilter, KeyedList.values, List.map_map, List.filter_map, List.map_map, List.map_map]
    rfl
  have hcount : ((tally.get? key).map (·.2)).toList.map (fun n : Nat => (n : Int)) =
      (tally.get? key).toList.map fun v => (v.2 : Int) := by
    cases tally.get? key <;> rfl
  refine hvalues.trans ?_
  rw [KeyedList.filter_entries, ← hcount, hget]
  split <;> simp

end Replay

namespace FileCoverage
open Replay

/-! ### What a visit is -/

/-- Whether executing an instruction counts for a target: its range is complete, lies in the file
and resolves to the target, and an instruction that jumps counts for no function. -/
def countsFor (file : FileCoverage) (key : TargetKey) (e : Entry) : Bool :=
  e.range.isOwn file.sourceId &&
    (file.resolver.table?.any fun table => (table.resolve e.range).any (·.key == key)) &&
    !(key.isFunction && e.range.jump != .unspecified)

/-- The instructions that a trace executed, frame by frame, of the frames that align. -/
def executed (s : Settings) (file : FileCoverage) (trace : Value) : List (List Entry) :=
  match file.tables, Trace.frames trace with
  | some tables, .ok frames =>
    frames.filterMap fun f => (f.align s tables).map (·.listing.matches s f)
  | _, _ => []

/-- The number of maximal runs of instructions that count for a target, over all frames. -/
def visits (s : Settings) (file : FileCoverage) (trace : Value) (key : TargetKey) : Nat :=
  ((file.executed s trace).map fun es => (runs (file.countsFor key) es).length).sum

/-- Whether no range resolves to a target more than once. -/
def ListsOnce (file : FileCoverage) (key : TargetKey) : Prop :=
  ∀ table, file.resolver.table? = some table →
    ∀ r, (table.resolve r).countP (·.key == key) ≤ 1

/-- The targets that a trace is credited to, with the number of visits of each. -/
def credits (s : Settings) (file : FileCoverage) (trace : Value) : List (Target × Int) :=
  hits file (file.passages s trace)

/-- A counter that may be missing, after visits; without visits it stays as it is. -/
def afterVisits (count : Option Int) (visits : Nat) : Option Int :=
  if visits = 0 then count else some (count.getD 0 + visits)

theorem isFunction_congr {key key' : TargetKey} (h : (key == key') = true) :
    key.isFunction = key'.isFunction := by
  have hkind := TargetKey.kind_eq_of_beq h
  cases key <;> cases key' <;> first | rfl | simp [TargetKey.kind] at hkind

theorem meets_targetsOf (file : FileCoverage) (key : TargetKey) (e : Entry) :
    meets key (file.targetsOf e) = file.countsFor key e := by
  unfold targetsOf countsFor meets
  cases file.resolver.table? with
  | none => simp
  | some table =>
    simp only
    split
    · next hown =>
      have hjump : (fun t : Target =>
          !(t.key.isFunction && e.range.jump != .unspecified) && t.key == key) =
          fun t => t.key == key && !(key.isFunction && e.range.jump != .unspecified) := by
        funext t
        cases ht : t.key == key with
        | true => rw [isFunction_congr ht, Bool.and_comm]
        | false => simp
      rw [List.any_filter, hjump, hown]
      cases !(key.isFunction && e.range.jump != .unspecified) <;> simp
    · next hown => simp [hown]

theorem countP_targetsOf {file : FileCoverage} {key : TargetKey} (h : file.ListsOnce key)
    (e : Entry) : (file.targetsOf e).countP (·.key == key) ≤ 1 := by
  unfold targetsOf
  cases ht : file.resolver.table? with
  | none => simp
  | some table =>
    simp only
    split
    · exact Nat.le_trans (List.filter_sublist.countP_le ..) (h table ht e.range)
    · simp

/-- The sightings of a frame that begin a visit are as many as the runs of its instructions that
count for the target. -/
theorem countP_passage {file : FileCoverage} {key : TargetKey} (h : file.ListsOnce key)
    (p : Passage) :
    (p.sightings file).countP (begins key) = (runs (file.countsFor key) p.entries).length := by
  have honce : ∀ targets ∈ p.entries.map file.targetsOf,
      targets.countP (·.key == key) ≤ 1 := by
    intro targets ht
    obtain ⟨e, -, rfl⟩ := List.mem_map.1 ht
    exact countP_targetsOf h e
  have hmeets : meets key ∘ file.targetsOf = file.countsFor key := by
    funext e
    exact meets_targetsOf file key e
  rw [Passage.sightings, countP_sightings honce, runStarts_map, hmeets, length_runs]
  rfl

theorem any_passage (file : FileCoverage) (key : TargetKey) (p : Passage) :
    (p.sightings file).any (·.1.key == key) = p.entries.any (file.countsFor key) := by
  have hmeets : meets key ∘ file.targetsOf = file.countsFor key := by
    funext e
    exact meets_targetsOf file key e
  rw [Passage.sightings, any_sightings, List.any_map, hmeets]

/-! ### A trace that is recorded -/

theorem refusal?_of_record {s : Settings} {file : FileCoverage} {trace : Value} {total : Fragment}
    (h : (file.record s trace).result = .ok total) : file.refusal? s trace = none := by
  rw [record_result, addition] at h
  cases hr : file.refusal? s trace with
  | none => rfl
  | some fault =>
    rw [hr] at h
    cases h

section Frames
variable {s : Settings} {file : FileCoverage} {tables : Tables}
  (htables : file.tables = some tables) {trace : Value} {frames : List Frame}
  (hframes : Trace.frames trace = .ok frames)
include htables hframes

/-- A trace is not refused when all its frames can be followed. -/
theorem refusal?_eq_none_iff :
    file.refusal? s trace = none ↔ ∀ f ∈ frames, obstacle? s tables f = none := by
  rw [refusal?_of_tables htables, hframes]
  simp only [Option.map_eq_none_iff, List.findSome?_eq_none_iff]

theorem passages_of_frames (h : ∀ f ∈ frames, obstacle? s tables f = none) :
    file.passages s trace = frames.map (follow s tables) := by
  have hpassable : ∀ f ∈ frames, isPassable s tables f = true := by
    intro f hf
    rw [isPassable, h f hf]
    rfl
  rw [passages_of_tables htables, hframes]
  simp only [List.takeWhile_eq_self_iff.2 hpassable]

end Frames

/-- A trace that is recorded is followed through all its frames. -/
theorem passages_of_refusal? {s : Settings} {file : FileCoverage} {trace : Value}
    (h : file.refusal? s trace = none) :
    ∃ tables frames, file.tables = some tables ∧ Trace.frames trace = .ok frames ∧
      file.passages s trace = frames.map (follow s tables) := by
  have hparts := h
  unfold refusal? at hparts
  split at hparts
  · cases hparts
  · cases hparts
  · next tables frames htables hframes =>
    exact ⟨tables, frames, htables, hframes,
      passages_of_frames htables hframes ((refusal?_eq_none_iff htables hframes).1 h)⟩

/-- Frames that do not align have executed nothing. -/
theorem sum_follow {g : List Entry → Nat} (hg : g [] = 0) (s : Settings) (t : Tables)
    (frames : List Frame) :
    ((frames.map (follow s t)).map fun p => g p.entries).sum =
      ((frames.filterMap fun f => (f.align s t).map (·.listing.matches s f)).map g).sum := by
  induction frames with
  | nil => rfl
  | cons f frames ih =>
    rw [List.map_cons, List.map_cons, List.sum_cons, ih, List.filterMap_cons, follow]
    cases f.align s t with
    | none => rw [hg, Nat.zero_add]; rfl
    | some table => rfl

/-- The runs of a trace that is recorded, frame by frame. -/
theorem visits_eq {s : Settings} {file : FileCoverage} {trace : Value}
    (hr : file.refusal? s trace = none) (key : TargetKey) :
    file.visits s trace key =
      ((file.passages s trace).map fun p => (runs (file.countsFor key) p.entries).length).sum := by
  obtain ⟨tables, frames, htables, hframes, hpassages⟩ := passages_of_refusal? hr
  have hsum := sum_follow (g := fun es => (runs (file.countsFor key) es).length) rfl s tables frames
  rw [hpassages, hsum]
  simp only [visits, executed, htables, hframes]

theorem countP_visits {s : Settings} {file : FileCoverage} {trace : Value} {key : TargetKey}
    (hr : file.refusal? s trace = none) (h : file.ListsOnce key) :
    ((file.passages s trace).flatMap (·.sightings file)).countP (begins key) =
      file.visits s trace key := by
  have hpassage : List.countP (begins key) ∘ (·.sightings file) =
      fun p : Passage => (runs (file.countsFor key) p.entries).length := by
    funext p
    exact countP_passage h p
  rw [List.countP_flatMap, hpassage, visits_eq hr]

/-- A target is met exactly when it is visited. -/
theorem any_visits {s : Settings} {file : FileCoverage} {trace : Value}
    (hr : file.refusal? s trace = none) (key : TargetKey) :
    ((file.passages s trace).flatMap (·.sightings file)).any (·.1.key == key) =
      !(file.visits s trace key == 0) := by
  have hnone : file.visits s trace key = 0 ↔
      ((file.passages s trace).flatMap (·.sightings file)).any (·.1.key == key) = false := by
    rw [visits_eq hr, List.sum_eq_zero_iff_forall_eq_nat, List.any_flatMap, List.any_eq_false]
    simp only [List.forall_mem_map, length_runs, runStarts_eq_zero_iff, any_passage,
      Bool.not_eq_true]
  cases ha : ((file.passages s trace).flatMap (·.sightings file)).any (·.1.key == key) with
  | false => rw [hnone.2 ha]; rfl
  | true =>
    have hne : file.visits s trace key ≠ 0 := fun h0 => by
      rw [hnone.1 h0] at ha
      cases ha
    simp [hne]

/-- A trace that is recorded is credited to a target once for every visit. -/
theorem credits_of_key {s : Settings} {file : FileCoverage} {trace : Value} {key : TargetKey}
    (hr : file.refusal? s trace = none) (h : file.ListsOnce key) :
    ((file.credits s trace).filter (·.1.key == key)).map (·.2) =
      if file.visits s trace key = 0 then [] else [(file.visits s trace key : Int)] := by
  rw [credits, hits_of_key, any_visits hr, countP_visits hr h]
  by_cases h0 : file.visits s trace key = 0
  · rw [h0]; rfl
  · simp [h0]

/-- What is sighted is registered in the range table. -/
theorem registered_of_sightings {file : FileCoverage} {P : Target → Prop}
    (hP : ∀ table, file.resolver.table? = some table → ∀ e ∈ table.registered, P e.2)
    (p : Passage) : ∀ sighting ∈ p.sightings file, P sighting.1 := by
  intro sighting hs
  obtain ⟨targets, htargets, ht⟩ := mem_of_sightings hs
  obtain ⟨e, -, rfl⟩ := List.mem_map.1 htargets
  unfold targetsOf at ht
  cases hr : file.resolver.table? with
  | none =>
    rw [hr] at ht
    cases ht
  | some table =>
    rw [hr] at ht
    simp only at ht
    split at ht
    · obtain ⟨found, hfound, heq⟩ := RangeTable.mem_registered_of_resolve (List.mem_filter.1 ht).1
      exact heq ▸ hP table hr found hfound
    · cases ht

/-- What is hit is registered in the range table. -/
theorem registered_of_hits {file : FileCoverage} {P : Target → Prop}
    (hP : ∀ table, file.resolver.table? = some table → ∀ e ∈ table.registered, P e.2)
    (passages : List Passage) : ∀ hit ∈ hits file passages, P hit.1 := by
  have hsightings : ∀ sighting ∈ passages.flatMap (·.sightings file), P sighting.1 := by
    intro sighting hs
    obtain ⟨p, -, hs⟩ := List.mem_flatMap.1 hs
    exact registered_of_sightings hP p sighting hs
  intro hit hmem
  obtain ⟨v, hv, rfl⟩ := List.mem_map.1 hmem
  obtain ⟨e, he, rfl⟩ := List.mem_map.1 hv
  exact (forall_entries_foldl_count (P := P) hsightings (fun e he => absurd he List.not_mem_nil) e
    he).2

/-- What a trace is credited to is registered in the range table. -/
theorem registered_of_credits {s : Settings} {file : FileCoverage} {trace : Value}
    {P : Target → Prop}
    (hP : ∀ table, file.resolver.table? = some table → ∀ e ∈ table.registered, P e.2) :
    ∀ credit ∈ file.credits s trace, P credit.1 :=
  registered_of_hits hP (file.passages s trace)

/-- A trace that is recorded adds its hits to the total. -/
theorem coverage_of_record {s : Settings} {file : FileCoverage} {trace : Value} {total : Fragment}
    (h : (file.record s trace).result = .ok total) :
    ∃ added, Fragment.hitAll { path := some file.path } (file.credits s trace) = .ok added ∧
      (file.record s trace).state.coverage = file.coverage.merge added := by
  have haddition : file.addition s trace = increment file (file.passages s trace) := by
    rw [addition, refusal?_of_record h]
  rw [record_result] at h
  rw [record_state]
  cases ha : file.addition s trace with
  | error fault =>
    rw [ha] at h
    cases h
  | ok added => exact ⟨added, haddition.symm.trans ha, rfl⟩

/-- The counter of a statement or a function grows by the number of its visits. -/
theorem counterOf_record {s : Settings} {file : FileCoverage} {trace : Value} {total : Fragment}
    (h : (file.record s trace).result = .ok total)
    (hb : ∀ table, file.resolver.table? = some table → table.Built) (key : TargetKey)
    (hplain : key.IsPlain) (hbranch : key.isBranch = false) (honce : file.ListsOnce key) :
    (file.record s trace).state.coverage.counterOf key =
      afterVisits (file.coverage.counterOf key) (file.visits s trace key) := by
  obtain ⟨added, hadded, htotal⟩ := coverage_of_record h
  have hkeys : ∀ credit ∈ file.credits s trace, credit.1.key.IsPlain :=
    registered_of_credits (P := fun t => t.key.IsPlain) fun table ht => (hb table ht).isPlain
  have hempty : ({ path := some file.path } : Fragment).counterOf key = none := by cases key <;> rfl
  have hgrown := Fragment.counterOf_hitAll hkeys hplain hbranch hadded
  rw [credits_of_key (refusal?_of_record h) honce, hempty] at hgrown
  rw [htotal, Fragment.counterOf_merge, hgrown, afterVisits]
  by_cases h0 : file.visits s trace key = 0
  · simp [h0]
  · cases file.coverage.counterOf key <;> simp [h0, Fragment.credit]

/-- **Once per visit.** The hits that a recorded trace adds to the total are, for a target, one for
every maximal run of instructions that count for it. So the counter of a statement or a function
grows by the number of these runs, and stays as it is when there are none. -/
theorem record_visits {s : Settings} {file : FileCoverage} {trace : Value} {total : Fragment}
    (h : (file.record s trace).result = .ok total) :
    (∃ added, Fragment.hitAll { path := some file.path } (file.credits s trace) = .ok added ∧
        (file.record s trace).state.coverage = file.coverage.merge added) ∧
      (∀ key, file.ListsOnce key →
        ((file.credits s trace).filter (·.1.key == key)).map (·.2) =
          if file.visits s trace key = 0 then [] else [(file.visits s trace key : Int)]) ∧
      ((∀ table, file.resolver.table? = some table → table.Built) →
        (∀ id, file.ListsOnce (.statement id) →
          (file.record s trace).state.coverage.statements.get? id =
            afterVisits (file.coverage.statements.get? id)
              (file.visits s trace (.statement id))) ∧
        ∀ id, file.ListsOnce (.function id) →
          (file.record s trace).state.coverage.functions.get? id =
            afterVisits (file.coverage.functions.get? id)
              (file.visits s trace (.function id))) := by
  refine ⟨coverage_of_record h, ?_, fun hb => ⟨?_, ?_⟩⟩
  · intro key honce
    exact credits_of_key (refusal?_of_record h) honce
  · intro id honce
    exact counterOf_record h hb (.statement id) (fun _ => rfl) rfl honce
  · intro id honce
    exact counterOf_record h hb (.function id) (fun _ => rfl) rfl honce

/-- Two visits of the first statement, of two instructions and of one. -/
theorem record_visits_pair :
    (∃ total, (pair.record {} (callOf [0, 1, 2, 0])).result = .ok total) ∧
      (∀ table, pair.resolver.table? = some table → table.Built) ∧
      pair.ListsOnce (.statement (.ofInt 1)) ∧
      pair.visits {} (callOf [0, 1, 2, 0]) (.statement (.ofInt 1)) = 2 ∧
      (pair.record {} (callOf [0, 1, 2, 0])).state.coverage.statements.get? (.ofInt 1) =
        afterVisits none 2 := by
  have hok : ∃ total, (pair.record {} (callOf [0, 1, 2, 0])).result = .ok total := by
    have hsome : (pair.record {} (callOf [0, 1, 2, 0])).result.toOption.isSome = true := by
      decide +kernel
    cases hr : (pair.record {} (callOf [0, 1, 2, 0])).result with
    | ok total => exact ⟨total, rfl⟩
    | error fault =>
      rw [hr] at hsome
      cases hsome
  have hbuilt : ∀ table, pair.resolver.table? = some table → table.Built := by
    intro table ht
    cases ht
    exact (RangeTable.Built.empty.add _).add _
  have honce : pair.ListsOnce (.statement (.ofInt 1)) := by
    intro table ht r
    cases ht
    refine Nat.le_trans (RangeTable.countP_resolve_le ..) ?_
    decide
  have hvisits : pair.visits {} (callOf [0, 1, 2, 0]) (.statement (.ofInt 1)) = 2 := by
    decide +kernel
  obtain ⟨total, h⟩ := hok
  have hstatement := ((record_visits h).2.2 hbuilt).1 (.ofInt 1) honce
  rw [hvisits] at hstatement
  exact ⟨⟨total, h⟩, hbuilt, honce, hvisits, hstatement⟩

end FileCoverage

end ContractCoverage
