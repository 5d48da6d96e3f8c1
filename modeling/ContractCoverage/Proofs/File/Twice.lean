import ContractCoverage.Proofs.Coverage.Alike
import ContractCoverage.Proofs.Data.Repeated
import ContractCoverage.Proofs.File.Visits

/-! Targets that some instructions count for twice.

An instruction that counts for a target twice is sighted twice under its key, and when the
first sighting begins a visit, so does the second one. Going through a trace once with and
once without the second sightings, the tallies differ in one entry only (`withMore`): it
has one visit more for every visit that begins with such an instruction, and what has been
met last may be the target itself. So the hits are the same, but with more of them for
this target (`hits_twice`). -/
namespace ContractCoverage

namespace Replay

/-! ### A tally with more visits of one target -/

theorem contains_foldl_count (all : List (Target × Bool)) (tally : Tally) (key : TargetKey) :
    (all.foldl count tally).contains key =
      (tally.contains key || all.any (·.1.key == key)) := by
  have hget := congrArg Option.isSome (get?_foldl_count all tally key)
  rw [Option.isSome_map] at hget
  rw [KeyedList.contains, hget, KeyedList.contains]
  split
  · next h => simp [h]
  · next h => simp [h]

theorem get?_count (tally : Tally) (t : Target) (new : Bool) (k : TargetKey) :
    (count tally (t, new)).get? k =
      if t.key == k then
        some (t, ((tally.get? t.key).map (·.2)).getD 0 + if new then 1 else 0)
      else tally.get? k :=
  KeyedList.get?_update ..

theorem keys_count (tally : Tally) (t : Target) (new : Bool) :
    (count tally (t, new)).keys =
      if tally.keys.any (· == t.key) then tally.keys else tally.keys ++ [t.key] := by
  rw [← KeyedList.contains_eq_any_keys]
  exact KeyedList.keys_update ..

section More
variable (x : Target)

/-- A tally with more visits of a target, which may be what has been met last under its key. -/
def withMore (last : Bool) (more : Nat) (tally : Tally) : Tally :=
  tally.adjust x.key fun v => (if last then x else v.1, v.2 + more)

/-- There are more visits of a target only when it has an entry. -/
def OnlyMet (more : Nat) (tally : Tally) : Prop := tally.contains x.key = false → more = 0

variable {x}

theorem get?_withMore (last : Bool) (more : Nat) (tally : Tally) (k : TargetKey) :
    (withMore x last more tally).get? k = (tally.get? k).map fun v =>
      if k == x.key then (if last then x else v.1, v.2 + more) else v :=
  KeyedList.get?_adjust ..

theorem keys_withMore (last : Bool) (more : Nat) (tally : Tally) :
    (withMore x last more tally).keys = tally.keys :=
  KeyedList.keys_adjust ..

/-- What is sighted under the key is what has been met last, and there are as many visits more. -/
theorem count_withMore (last : Bool) {more : Nat} {tally : Tally} (h : OnlyMet x more tally)
    (t : Target) (new : Bool) :
    count (withMore x last more tally) (t, new) =
      withMore x (last && !(t.key == x.key)) more (count tally (t, new)) := by
  apply KeyedList.ext_get?
  · rw [keys_count, keys_withMore, keys_withMore, keys_count]
  · intro k
    rw [get?_count, get?_withMore, get?_withMore, get?_withMore, get?_count]
    by_cases hk : (t.key == k) = true
    · rw [if_pos hk, if_pos hk, ← BEq.congr_left (c := x.key) hk]
      by_cases ht : (t.key == x.key) = true
      · have hmet : tally.get? t.key = none → more = 0 := fun hnone => h (by
          rw [← tally.contains_congr ht, KeyedList.contains, hnone]
          rfl)
        cases hget : tally.get? t.key with
        | none => simp [ht, hmet hget]
        | some v => simp [ht, Nat.add_right_comm]
      · simp [ht]
    · rw [if_neg hk, if_neg hk]
      by_cases hx : (k == x.key) = true
      · have ht : (t.key == x.key) = false := by
          rw [← BEq.congr_right (a := t.key) hx]
          exact Bool.eq_false_iff.2 hk
        simp [ht]
      · simp [hx]

/-- The target itself, sighted once more, is what has been met last, and begins one visit more when
the sighting does. -/
theorem count_repeated (last : Bool) (more : Nat) {tally : Tally}
    (h : tally.contains x.key = true) (new : Bool) :
    count (withMore x last more tally) (x, new) =
      withMore x true (more + if new then 1 else 0) tally := by
  obtain ⟨v, hv⟩ := Option.isSome_iff_exists.1 h
  apply KeyedList.ext_get?
  · rw [keys_count, keys_withMore, keys_withMore, ← KeyedList.contains_eq_any_keys, if_pos h]
  · intro k
    rw [get?_count, get?_withMore, get?_withMore, get?_withMore]
    by_cases hk : (x.key == k) = true
    · rw [if_pos hk, ← tally.get?_congr hk, hv]
      simp [BEq.symm hk, Nat.add_assoc]
    · have hx : (k == x.key) = false := by
        rw [BEq.comm]
        exact Bool.eq_false_iff.2 hk
      simp [hk, hx]

theorem OnlyMet.foldl_count {more : Nat} {tally : Tally} (h : OnlyMet x more tally)
    (all : List (Target × Bool)) : OnlyMet x more (all.foldl count tally) := by
  intro hnone
  rw [contains_foldl_count, Bool.or_eq_false_iff] at hnone
  exact h hnone.1

theorem foldl_count_withMore (last : Bool) {more : Nat} {tally : Tally} (h : OnlyMet x more tally)
    (all : List (Target × Bool)) :
    all.foldl count (withMore x last more tally) =
      withMore x (last && !all.any (·.1.key == x.key)) more (all.foldl count tally) := by
  induction all generalizing last tally with
  | nil => simp
  | cons sighting all ih =>
    have hnext : OnlyMet x more (count tally sighting) := h.foldl_count [sighting]
    rw [List.foldl_cons, List.foldl_cons, count_withMore last h, ih _ hnext, List.any_cons,
      Bool.not_or, Bool.and_assoc]

end More

/-! ### A target that some instructions count for twice -/

section Twice
variable {x : Target} {targets : Entry → List Target} {again : Entry → Bool}

/-- The targets of an instruction, with one of them once more behind them under a condition. -/
def twice (x : Target) (targets : Entry → List Target) (again : Entry → Bool) (e : Entry) :
    List Target :=
  targets e ++ if again e then [x] else []

/-- Whether the last instruction that counts for a target satisfies a condition. -/
def endsWith (x : Target) (targets : Entry → List Target) (again : Entry → Bool) (last : Bool)
    (es : List Entry) : Bool :=
  es.foldl (fun last e => if meets x.key (targets e) then again e else last) last

variable (hagain : ∀ e, again e = true → meets x.key (targets e) = true)
include hagain

theorem contains_twice (e : Entry) (key : TargetKey) :
    ((twice x targets again e).map (·.key)).contains key =
      ((targets e).map (·.key)).contains key := by
  rw [contains_keys, contains_keys, twice, meets, List.any_append]
  cases ha : again e with
  | false => simp [meets]
  | true =>
    by_cases hkey : (x.key == key) = true
    · have hmeets := hagain e ha
      simp only [meets, BEq.congr_right hkey] at hmeets ⊢
      rw [hmeets]
      rfl
    · simp [meets, hkey]

/-- One step adds a visit when it begins one of the target and counts for it twice. -/
theorem foldl_count_twice (last : Bool) {more : Nat} {tally : Tally} (h : OnlyMet x more tally)
    (previous : List TargetKey) (e : Entry) :
    ((twice x targets again e).map fun t => (t, !previous.contains t.key)).foldl count
        (withMore x last more tally) =
      withMore x (if meets x.key (targets e) then again e else last)
        (more + if meets x.key (targets e) && !previous.contains x.key && again e then 1 else 0)
        (((targets e).map fun t => (t, !previous.contains t.key)).foldl count tally) := by
  have hany : ((targets e).map fun t => (t, !previous.contains t.key)).any (·.1.key == x.key) =
      meets x.key (targets e) := by
    rw [List.any_map]
    rfl
  rw [twice, List.map_append, List.foldl_append, foldl_count_withMore last h, hany]
  cases ha : again e with
  | false => cases meets x.key (targets e) <;> simp
  | true =>
    have hmeets := hagain e ha
    have hcontains : (((targets e).map fun t => (t, !previous.contains t.key)).foldl count
        tally).contains x.key = true := by
      rw [contains_foldl_count, hany, hmeets, Bool.or_true]
    simp only [if_true, List.map_cons, List.map_nil, List.foldl_cons, List.foldl_nil,
      count_repeated _ more hcontains, hmeets, Bool.true_and, Bool.and_true]

/-- Over the steps of a frame there is a visit more for every visit that begins with an instruction
which counts for the target twice. -/
theorem foldl_sightings_twice (last : Bool) {more : Nat} {tally : Tally} (h : OnlyMet x more tally)
    {previous previous' : List TargetKey}
    (hprevious : ∀ key, previous'.contains key = previous.contains key) (es : List Entry) :
    (sightings previous' (es.map (twice x targets again))).foldl count
        (withMore x last more tally) =
      withMore x (endsWith x targets again last es)
        (more + runHeads (fun e => meets x.key (targets e)) again (previous.contains x.key) es)
        ((sightings previous (es.map targets)).foldl count tally) := by
  induction es generalizing last more tally previous previous' with
  | nil => rfl
  | cons e es ih =>
    have hfirst : ((twice x targets again e).map fun t => (t, !previous'.contains t.key)) =
        (twice x targets again e).map fun t => (t, !previous.contains t.key) := by
      simp only [hprevious]
    have hnext : OnlyMet x
        (more + if meets x.key (targets e) && !previous.contains x.key && again e then 1 else 0)
        (((targets e).map fun t => (t, !previous.contains t.key)).foldl count tally) := by
      intro hnone
      rw [contains_foldl_count, Bool.or_eq_false_iff, List.any_map] at hnone
      have hmeets : meets x.key (targets e) = false := hnone.2
      rw [h hnone.1, hmeets]
      rfl
    rw [List.map_cons, List.map_cons, sightings, sightings, List.foldl_append, List.foldl_append,
      hfirst, foldl_count_twice hagain last h previous e, ih _ hnext (contains_twice hagain e),
      runHeads, contains_keys, Nat.add_assoc]
    rfl

/-- Over the frames of a trace, that are followed one after the other, all these visits add up. -/
theorem foldl_passages_twice (last : Bool) {more : Nat} {tally : Tally} (h : OnlyMet x more tally)
    (frames : List (List Entry)) :
    (frames.flatMap fun es => sightings [] (es.map (twice x targets again))).foldl count
        (withMore x last more tally) =
      withMore x (endsWith x targets again last frames.flatten)
        (more + (frames.map (runHeads (fun e => meets x.key (targets e)) again false)).sum)
        ((frames.flatMap fun es => sightings [] (es.map targets)).foldl count tally) := by
  induction frames generalizing last more tally with
  | nil => rfl
  | cons es frames ih =>
    have hnext : OnlyMet x
        (more + runHeads (fun e => meets x.key (targets e)) again false es)
        ((sightings [] (es.map targets)).foldl count tally) := by
      intro hnone
      rw [contains_foldl_count, Bool.or_eq_false_iff, any_sightings, List.any_map] at hnone
      rw [h hnone.1, Nat.zero_add]
      exact runHeads_eq_zero again hnone.2 false
    rw [List.flatMap_cons, List.flatMap_cons, List.foldl_append, List.foldl_append,
      foldl_sightings_twice hagain last h (fun _ => rfl), List.contains_nil, ih _ hnext,
      List.map_cons, List.sum_cons, List.flatten_cons, Nat.add_assoc, endsWith, endsWith, endsWith,
      List.foldl_append]

end Twice

/-- The last instruction that counts for the target decides. -/
theorem endsWith_eq (x : Target) (targets : Entry → List Target) (again : Entry → Bool)
    (last : Bool) (es : List Entry) :
    endsWith x targets again last es =
      (((es.filter fun e => meets x.key (targets e)).getLast?).map again).getD last := by
  induction es generalizing last with
  | nil => rfl
  | cons e es ih =>
    rw [endsWith, List.foldl_cons]
    refine (ih _).trans ?_
    rw [List.filter_cons]
    split
    · rw [List.getLast?_cons, Option.map_some, Option.getD_some, Option.getD_map]
    · rfl

/-! ### Hits with more of one target -/

/-- A hit with more hits of a target, when it is one of that target. -/
def recredit (x : Target) (last : Bool) (more : Nat) (hit : Target × Int) : Target × Int :=
  if hit.1.key == x.key then (if last then x else hit.1, hit.2 + more) else hit

section Recredit
variable (x : Target) (last : Bool) (more : Nat)

theorem key_recredit (hit : Target × Int) (key : TargetKey) :
    ((recredit x last more hit).1.key == key) = (hit.1.key == key) := by
  unfold recredit
  split
  · next h =>
    cases last with
    | true => exact (BEq.congr_left h).symm
    | false => rfl
  · rfl

theorem forall_recredit {P : Target → Prop} {hits : List (Target × Int)}
    (h : ∀ hit ∈ hits, P hit.1) (hx : P x) : ∀ hit ∈ hits.map (recredit x last more), P hit.1 := by
  refine List.forall_mem_map.2 fun hit hmem => ?_
  unfold recredit
  split
  · cases last with
    | true => exact hx
    | false => exact h hit hmem
  · exact h hit hmem

/-- Hits are of the same targets as before when those of the target agree with it. -/
theorem forall₂_recredit {r : Int → Int → Prop} {hits : List (Target × Int)}
    (hsame : ∀ hit ∈ hits, (hit.1.key == x.key) = true → hit.1.Same x) (hself : ∀ n, r n n)
    (hmore : ∀ n, r n (n + more)) :
    List.Forall₂ (fun hit hit' => hit.1.Same hit'.1 ∧ r hit.2 hit'.2) hits
      (hits.map (recredit x last more)) := by
  refine List.forall₂_map_right_iff.2 (List.forall₂_same.2 fun hit hmem => ?_)
  unfold recredit
  split
  · next h =>
    cases last with
    | true => exact ⟨hsame hit hmem h, hmore hit.2⟩
    | false => exact ⟨.refl hit.1, hmore hit.2⟩
  · exact ⟨.refl hit.1, hself hit.2⟩

/-- The numbers of hits of the target. -/
theorem filter_recredit (hits : List (Target × Int)) :
    ((hits.map (recredit x last more)).filter (·.1.key == x.key)).map (·.2) =
      ((hits.filter (·.1.key == x.key)).map (·.2)).map (· + (more : Int)) := by
  induction hits with
  | nil => rfl
  | cons hit hits ih =>
    rw [List.map_cons, List.filter_cons, List.filter_cons, key_recredit]
    by_cases h : (hit.1.key == x.key) = true
    · rw [if_pos h, if_pos h, List.map_cons, List.map_cons, List.map_cons, ih, recredit, if_pos h]
    · rw [if_neg h, if_neg h, ih]

/-- Hits have one entry for the target, or none, and then there are no more hits of it. -/
def OneEntry (hits : List (Target × Int)) : Prop :=
  (∃ n, (hits.filter (·.1.key == x.key)).map (·.2) = [n]) ∨
    (hits.filter (·.1.key == x.key)).map (·.2) = [] ∧ more = 0

/-- Other names of the target weigh as much. -/
theorem sum_recredit (weight : Target → Int) {hits : List (Target × Int)}
    (h : ∀ hit ∈ hits, (hit.1.key == x.key) = true → weight hit.1 = weight x) :
    ((hits.map (recredit x last more)).map fun hit => hit.2 * weight hit.1).sum =
      (hits.map fun hit => hit.2 * weight hit.1).sum +
        more * weight x * ((hits.filter (·.1.key == x.key)).map (·.2)).length := by
  induction hits with
  | nil => simp
  | cons hit hits ih =>
    obtain ⟨hfirst, hrest⟩ := List.forall_mem_cons.1 h
    have hstep : (recredit x last more hit).2 * weight (recredit x last more hit).1 =
        hit.2 * weight hit.1 + if hit.1.key == x.key then more * weight x else 0 := by
      unfold recredit
      split
      · next hkey =>
        have hname : weight (if last then x else hit.1) = weight hit.1 := by
          cases last with
          | true => exact (hfirst hkey).symm
          | false => rfl
        rw [hname, Int.add_mul, hfirst hkey]
      · exact (add_zero _).symm
    rw [List.map_cons, List.map_cons, List.map_cons, List.sum_cons, List.sum_cons, hstep, ih hrest,
      List.filter_cons]
    split
    · rw [List.map_cons, List.length_cons, Int.natCast_add, Int.mul_add]
      omega
    · omega

end Recredit

/-- More visits of a target in a tally are more hits of it. -/
theorem values_withMore {x : Target} {tally : Tally}
    (h : ∀ e ∈ tally.entries, (e.1 == e.2.1.key) = true) (last : Bool) (more : Nat) :
    ((withMore x last more tally).values.map fun v => (v.1, (v.2 : Int))) =
      (tally.values.map fun v => (v.1, (v.2 : Int))).map (recredit x last more) := by
  simp only [KeyedList.values, withMore, KeyedList.adjust, List.map_map]
  refine List.map_congr_left fun e he => ?_
  have hkey : (e.1 == x.key) = (e.2.1.key == x.key) := BEq.congr_left (h e he)
  simp only [Function.comp_apply, recredit, hkey]
  split
  · exact congrArg (Prod.mk _) (Int.natCast_add ..)
  · rfl

/-- Where instructions count for a target twice, the hits are those where they count for it once,
with more hits of the target. -/
theorem hits_twice {file file' : FileCoverage} {x : Target} {again : Entry → Bool}
    (hagain : ∀ e, again e = true → meets x.key (file.targetsOf e) = true)
    (htargets : file'.targetsOf = twice x file.targetsOf again) (passages : List Passage) :
    hits file' passages = (hits file passages).map
      (recredit x (endsWith x file.targetsOf again false (passages.flatMap (·.entries)))
        (passages.map fun p =>
          runHeads (fun e => meets x.key (file.targetsOf e)) again false p.entries).sum) := by
  have hall : ∀ f : FileCoverage, passages.flatMap (·.sightings f) =
      (passages.map (·.entries)).flatMap fun es => sightings [] (es.map f.targetsOf) := by
    intro f
    rw [List.flatMap_map]
    rfl
  have hempty : OnlyMet x 0 KeyedList.empty := fun _ => rfl
  have htally := foldl_passages_twice hagain false hempty (passages.map (·.entries))
  rw [← htargets, ← hall, ← hall, Nat.zero_add, List.map_map] at htally
  have hentries : ∀ e ∈ ((passages.flatMap (·.sightings file)).foldl count KeyedList.empty).entries,
      (e.1 == e.2.1.key) = true ∧ True :=
    forall_entries_foldl_count (P := fun _ => True) (fun _ _ => trivial)
      fun e he => absurd he List.not_mem_nil
  exact (congrArg (fun tally : Tally => tally.values.map fun v => (v.1, (v.2 : Int))) htally).trans
    (values_withMore (fun e he => (hentries e he).1) ..)

end Replay

end ContractCoverage
