import ContractCoverage.Proofs.File.Twice

/-! Registrations that are repeated.

A step that has been taken registers its target once more when it is taken again, and from
then on the instructions of its range count for the target twice (`targetsOf_withTable`). So a
trace is credited to the target once more for every visit that begins with one of them
(`credits_withTable`). Where all registrations of the target agree, this decides about nothing
but numbers, and the counters that a trace leaves are the same exactly when there is no such
visit (`repeated_registration`). -/
namespace ContractCoverage

namespace RangeTable

/-! ### Steps that are taken again -/

/-- The table that steps make one after the other, also those that fail. -/
def perform (steps : List Registration) : RangeTable :=
  steps.foldl (fun t step => (t.add step).1) .empty

theorem built_perform (steps : List Registration) : (perform steps).Built := by
  have hrest : ∀ t : RangeTable, t.Built →
      (steps.foldl (fun t step => (t.add step).1) t).Built := by
    induction steps with
    | nil => exact fun t ht => ht
    | cons step steps ih => exact fun t ht => ih _ (ht.add step)
  exact hrest .empty .empty

/-- What is registered stays registered. -/
theorem registered_foldl_add {t : RangeTable} {e : RangeKey × Target} (h : e ∈ t.registered)
    (steps : List Registration) :
    e ∈ (steps.foldl (fun t step => (t.add step).1) t).registered := by
  induction steps generalizing t with
  | nil => exact h
  | cons step steps ih =>
    refine ih ?_
    rcases registered_add t step with hr | ⟨src, target, key, -, -, hr⟩
    · rw [hr]
      exact h
    · rw [hr]
      exact List.mem_append_left _ h

/-- What a step registers when it is taken again is registered. -/
theorem mem_registered_perform {steps : List Registration} {step : Registration}
    (hstep : step ∈ steps) {t t' : RangeTable} (h : t.add step = (t', .ok ())) :
    ∀ e ∈ step.entries, e ∈ (perform steps).registered := by
  intro e he
  have hrest : ∀ u : RangeTable,
      e ∈ (steps.foldl (fun t step => (t.add step).1) u).registered := by
    induction steps with
    | nil => cases hstep
    | cons first steps ih =>
      intro u
      rcases List.mem_cons.1 hstep with rfl | hstep
      · obtain ⟨u', hu⟩ := (add_of_ok h).2 u
        have hfirst : e ∈ (u.add step).1.registered := by
          rw [hu, (add_of_ok hu).1]
          exact List.mem_append_right _ he
        exact registered_foldl_add hfirst steps
      · exact ih hstep _
  exact hrest .empty

/-- All registrations of an arm of a branch agree. -/
theorem Built.same_of_branch {t : RangeTable} (h : t.Built) {e e' : RangeKey × Target}
    (he : e ∈ t.registered) (he' : e' ∈ t.registered) (hbranch : e'.2.key.isBranch = true)
    (hkey : (e.2.key == e'.2.key) = true) : e.2.Same e'.2 := by
  have hplain := h.forall_registered
    (P := fun target => target.key.isBranch = true → target.location = none ∧ target.parent = none)
    fun step src target ht => by
      cases step with
      | branch => cases ht
      | statement | function => cases ht; exact fun hb => by cases hb
      | arm => cases ht; exact fun _ => ⟨rfl, rfl⟩
  obtain ⟨hlocation, hparent⟩ := hplain e he ((TargetKey.isBranch_congr hkey).trans hbranch)
  obtain ⟨hlocation', hparent'⟩ := hplain e' he' hbranch
  refine ⟨hkey, hlocation.trans hlocation'.symm, ?_⟩
  rw [hparent, hparent']
  exact .none

end RangeTable

namespace FileCoverage
open Replay

/-- A file with another range table and another total. -/
def withTable (file : FileCoverage) (resolver : Resolver) (coverage : Fragment) : FileCoverage :=
  { file with resolver, coverage }

/-- The number of visits of a target in a trace that begin with an instruction of a range. -/
def visitsFrom (s : Settings) (file : FileCoverage) (trace : Value) (key : TargetKey)
    (range : RangeKey) : Nat :=
  ((file.executed s trace).map fun es =>
    (runs (file.countsFor key) es).countP (·.head?.any (·.range.key == range))).sum

/-- The last instruction that a trace executed among those that count for a target. -/
def lastMet (s : Settings) (file : FileCoverage) (trace : Value) (key : TargetKey) : Option Entry :=
  ((file.executed s trace).flatten.filter (file.countsFor key)).getLast?

section Again
variable {file : FileCoverage} {t t' : RangeTable} {range : RangeKey} {x : Target}
  (htable : file.resolver.table? = some t) (hmem : (range, x) ∈ t.registered)

/-- Whether an instruction of a range counts for a target. -/
def countsFrom (file : FileCoverage) (key : TargetKey) (range : RangeKey) (e : Entry) : Bool :=
  file.countsFor key e && e.range.key == range

theorem meets_of_countsFrom {key : TargetKey} {e : Entry}
    (h : file.countsFrom key range e = true) : meets key (file.targetsOf e) = true := by
  rw [meets_targetsOf]
  exact (Bool.and_eq_true_iff.1 h).1

include htable hmem

theorem targetsOf_withTable {resolver : Resolver} (hresolver : resolver.table? = some t')
    (hregistered : t'.registered = t.registered ++ [(range, x)]) (coverage : Fragment) :
    (file.withTable resolver coverage).targetsOf =
      twice x file.targetsOf (file.countsFrom x.key range) := by
  funext e
  have hlisted : t'.targetsOf e.range.key =
      t.targetsOf e.range.key ++ if e.range.key == range then [x] else [] := by
    unfold RangeTable.targetsOf
    rw [hregistered, List.filter_append, List.map_append]
    by_cases hrange : e.range.key = range
    · simp [hrange]
    · simp [hrange, Ne.symm hrange]
  unfold twice countsFrom countsFor targetsOf withTable
  simp only [hresolver, htable, Option.any_some]
  by_cases hown : e.range.isOwn file.sourceId = true
  · have hcomplete : e.range.isComplete = true := (Bool.and_eq_true_iff.1 hown).1
    simp only [hown, if_true, RangeTable.resolve, hcomplete, hlisted, List.filter_append]
    by_cases hrange : (e.range.key == range) = true
    · have hany : (t.targetsOf e.range.key).any (·.key == x.key) = true := by
        refine List.any_eq_true.2 ⟨x, ?_, BEq.rfl⟩
        refine List.mem_map.2 ⟨(range, x), List.mem_filter.2 ⟨hmem, ?_⟩, rfl⟩
        exact BEq.symm hrange
      simp only [hrange, hany, if_true, List.filter_cons, List.filter_nil, Bool.true_and,
        Bool.and_true]
    · simp [hrange]
  · simp [hown]

end Again

/-! ### What is executed from a range -/

/-- Frames that do not align have executed no instructions. -/
theorem flatMap_follow (s : Settings) (t : Tables) (frames : List Frame) :
    (frames.map (follow s t)).flatMap (·.entries) =
      (frames.filterMap fun f => (f.align s t).map (·.listing.matches s f)).flatten := by
  induction frames with
  | nil => rfl
  | cons f frames ih =>
    rw [List.map_cons, List.flatMap_cons, ih, List.filterMap_cons, follow]
    cases f.align s t <;> rfl

section Executed
variable {s : Settings} {file : FileCoverage} {trace : Value}

theorem lastMet_eq (hr : file.refusal? s trace = none) (key : TargetKey) :
    file.lastMet s trace key =
      (((file.passages s trace).flatMap (·.entries)).filter (file.countsFor key)).getLast? := by
  obtain ⟨tables, frames, htables, hframes, hpassages⟩ := passages_of_refusal? hr
  rw [hpassages, flatMap_follow]
  simp only [lastMet, executed, htables, hframes]

theorem visitsFrom_eq (hr : file.refusal? s trace = none) (key : TargetKey) (range : RangeKey) :
    file.visitsFrom s trace key range =
      ((file.passages s trace).map fun p =>
        runHeads (file.countsFor key) (·.range.key == range) false p.entries).sum := by
  obtain ⟨tables, frames, htables, hframes, hpassages⟩ := passages_of_refusal? hr
  have hsum := sum_follow
    (g := runHeads (file.countsFor key) (·.range.key == range) false) rfl s tables frames
  rw [hpassages, hsum]
  simp only [visitsFrom, executed, htables, hframes, countP_runs_head]

/-- Where a target is not visited at all, no visit begins with an instruction of a range. -/
theorem visitsFrom_eq_zero {key : TargetKey} (h : file.visits s trace key = 0) (range : RangeKey) :
    file.visitsFrom s trace key range = 0 := by
  rw [visits, List.sum_eq_zero_iff_forall_eq_nat, List.forall_mem_map] at h
  refine List.sum_eq_zero (List.forall_mem_map.2 fun es hes => Nat.le_zero.1 ?_)
  exact h es hes ▸ List.countP_le_length

end Executed

/-! ### Credits -/

section Credits
variable {file : FileCoverage} {t t' : RangeTable} {range : RangeKey} {x : Target}
  (htable : file.resolver.table? = some t) (hmem : (range, x) ∈ t.registered)
  {resolver : Resolver} (hresolver : resolver.table? = some t')
  (hregistered : t'.registered = t.registered ++ [(range, x)]) (coverage : Fragment)
  {s : Settings} {trace : Value} (hr : file.refusal? s trace = none)
include htable hmem hresolver hregistered hr

/-- What a trace is credited to where a registration is repeated. -/
theorem credits_withTable :
    (file.withTable resolver coverage).credits s trace = (file.credits s trace).map
      (recredit x ((file.lastMet s trace x.key).any (·.range.key == range))
        (file.visitsFrom s trace x.key range)) := by
  have htwice := hits_twice (fun _ => meets_of_countsFrom)
    (targetsOf_withTable htable hmem hresolver hregistered coverage) (file.passages s trace)
  have hmeets : (fun e => meets x.key (file.targetsOf e)) = file.countsFor x.key := by
    funext e
    exact meets_targetsOf file x.key e
  have hheads : ∀ es, runHeads (file.countsFor x.key) (file.countsFrom x.key range) false es =
      runHeads (file.countsFor x.key) (·.range.key == range) false es :=
    runHeads_and (file.countsFor x.key) (·.range.key == range) false
  have hlast : ((file.lastMet s trace x.key).map (file.countsFrom x.key range)).getD false =
      (file.lastMet s trace x.key).any (·.range.key == range) := by
    cases hmet : file.lastMet s trace x.key with
    | none => rfl
    | some e =>
      have he : file.countsFor x.key e = true :=
        (List.mem_filter.1 (List.mem_of_getLast? hmet)).2
      rw [Option.map_some, Option.getD_some, countsFrom, he, Bool.true_and, Option.any_some]
  rw [endsWith_eq, hmeets, ← lastMet_eq hr, hlast] at htwice
  simp only [hheads, ← visitsFrom_eq hr] at htwice
  exact htwice

end Credits

/-- What a trace is credited to is registered in the table of the file. -/
theorem credits_of_table {file : FileCoverage} {t : RangeTable}
    (htable : file.resolver.table? = some t) {P : Target → Prop} (hP : ∀ e ∈ t.registered, P e.2)
    {s : Settings} {trace : Value} : ∀ credit ∈ file.credits s trace, P credit.1 :=
  registered_of_credits fun t' ht => by
    rw [htable] at ht
    cases ht
    exact hP

/-- The credit of a target agrees with one of its registrations where they all agree, as they do for
an arm of a branch. -/
theorem same_of_credits {file : FileCoverage} {t : RangeTable}
    (htable : file.resolver.table? = some t) (hbuilt : t.Built) {range : RangeKey} {x : Target}
    (hmem : (range, x) ∈ t.registered)
    (hagree : x.key.isBranch = false → ∀ e ∈ t.registered, (e.2.key == x.key) = true → e.2.Same x)
    (s : Settings) (trace : Value) :
    ∀ credit ∈ file.credits s trace, (credit.1.key == x.key) = true → credit.1.Same x := by
  refine credits_of_table htable (P := fun t => (t.key == x.key) = true → t.Same x) ?_
  intro e he hkey
  cases hbranch : x.key.isBranch with
  | false => exact hagree hbranch e he hkey
  | true => exact hbuilt.same_of_branch he hmem hbranch hkey

/-- A target that is met has one credit, and one that is not has none and no visits. -/
theorem oneEntry_credits {s : Settings} {file : FileCoverage} {trace : Value}
    (hr : file.refusal? s trace = none) (x : Target) (range : RangeKey) :
    OneEntry x (file.visitsFrom s trace x.key range) (file.credits s trace) := by
  rw [OneEntry, credits, hits_of_key]
  cases hany : ((file.passages s trace).flatMap (·.sightings file)).any (·.1.key == x.key) with
  | true => exact .inl ⟨_, rfl⟩
  | false =>
    rw [any_visits hr, Bool.not_eq_false', beq_iff_eq] at hany
    exact .inr ⟨rfl, visitsFrom_eq_zero hany range⟩

/-! ### Counters -/

section Counters
variable {x : Target} {last : Bool} {more : Nat} {hits : List (Target × Int)}
  (hone : OneEntry x more hits)
  {path : Option String} {added added' : Fragment}
  (hadded : ({ path } : Fragment).hitAll hits = .ok added)
  (hadded' : ({ path } : Fragment).hitAll (hits.map (recredit x last more)) = .ok added')
include hone hadded hadded'

/-- The counter of a statement or a function, of which there are more hits. -/
theorem counterOf_recredit (hplain : ∀ hit ∈ hits, hit.1.key.IsPlain) (hx : x.key.IsPlain)
    (hbranch : x.key.isBranch = false) :
    added'.counterOf x.key = (added.counterOf x.key).map (· + (more : Int)) ∧
      (added.counterOf x.key = none → more = 0) := by
  have hempty : ({ path } : Fragment).counterOf x.key = none := by cases x.key <;> rfl
  have hcounter := Fragment.counterOf_hitAll hplain hx hbranch hadded
  have hcounter' := Fragment.counterOf_hitAll
    (forall_recredit x last more (P := fun t => t.key.IsPlain) hplain hx) hx hbranch hadded'
  rw [filter_recredit, hempty] at hcounter'
  rw [hempty] at hcounter
  rcases hone with ⟨n, hn⟩ | ⟨hnone, hmore⟩
  · rw [hn] at hcounter hcounter'
    rw [hcounter, hcounter']
    refine ⟨congrArg some ?_, nofun⟩
    show 0 + (n + (more : Int)) = 0 + n + (more : Int)
    omega
  · rw [hnone] at hcounter hcounter'
    rw [hcounter, hcounter']
    exact ⟨rfl, fun _ => hmore⟩

/-- All arms of a branch, when there are more hits of one of them. -/
theorem armSum_recredit (hsame : ∀ hit ∈ hits, (hit.1.key == x.key) = true → hit.1.Same x)
    (hbranch : x.key.isBranch = true)
    (h : added.armSum x.key.id = added'.armSum x.key.id) : more = 0 := by
  have hsum := sum_recredit x last more (Fragment.weight x.key.id) fun hit hmem hkey =>
    Fragment.weight_congr (hsame hit hmem hkey) x.key.id
  rw [Fragment.armSum_hitAll hadded, Fragment.armSum_hitAll hadded', hsum] at h
  rcases hone with ⟨n, hn⟩ | ⟨-, hmore⟩
  · rw [hn, List.length_singleton, Int.natCast_one, Int.mul_one] at h
    have hproduct : (more : Int) * Fragment.weight x.key.id x = 0 := by omega
    rcases Int.mul_eq_zero.1 hproduct with hmore | hweight
    · exact Int.natCast_eq_zero.1 hmore
    · exact absurd hweight (Fragment.weight_ne_zero hbranch)
  · exact hmore

end Counters

/-! ### Recording -/

/-- What a trace that is followed to its end leads to. -/
theorem result_of_followed {s : Settings} {file : FileCoverage} {trace : Value}
    (hr : file.refusal? s trace = none) :
    (file.record s trace).result =
      (Fragment.hitAll { path := some file.path } (file.credits s trace)).map
        file.coverage.merge := by
  rw [record_result, addition, hr]
  rfl

theorem counterOf_congr {a b : Fragment} (h : a.SameCounts b) (key : TargetKey) :
    a.counterOf key = b.counterOf key := by
  cases key with
  | statement id => exact congrArg Counts.statement (h id)
  | function id => exact congrArg Counts.function (h id)
  | branch => rfl

theorem armSum_congr {a b : Fragment} (h : a.SameCounts b) (id : Ident) :
    a.armSum id = b.armSum id := by
  have hbranch : a.branches.get? id = b.branches.get? id := congrArg Counts.branch (h id)
  rw [Fragment.armSum, Fragment.armSum, Fragment.armCounts, Fragment.armCounts, hbranch]

/-- Hits and more hits of a target are counted in the same places, or refused for one reason. -/
theorem hitAll_recredit {r : Int → Int → Prop} (hr : Additive r) {x : Target} (last : Bool)
    (more : Nat) {hits : List (Target × Int)}
    (hsame : ∀ hit ∈ hits, (hit.1.key == x.key) = true → hit.1.Same x) (hself : ∀ n, r n n)
    (hmore : ∀ n, r n (n + more)) (f : Fragment) :
    (∃ added added', f.hitAll hits = .ok added ∧
        f.hitAll (hits.map (recredit x last more)) = .ok added' ∧ added.Alike r added') ∨
      ∃ fault, f.hitAll hits = .error fault ∧
        f.hitAll (hits.map (recredit x last more)) = .error fault :=
  Fragment.hitAll_alike hr (f.alike_same hself) (forall₂_recredit x last more hsame hself hmore)

section Totals
variable {x : Target} {last : Bool} {more : Nat} {hits : List (Target × Int)}
  (hone : OneEntry x more hits)
  {path : Option String} {added added' : Fragment}
  (hadded : ({ path } : Fragment).hitAll hits = .ok added)
  (hadded' : ({ path } : Fragment).hitAll (hits.map (recredit x last more)) = .ok added')
  {coverage coverage' : Fragment} (hcoverage : coverage'.SameCounts coverage)
  (hplain : ∀ hit ∈ hits, hit.1.key.IsPlain) (hx : x.key.IsPlain)
include hone hadded hadded' hcoverage hplain hx

/-- The counter of a statement or a function in the total. -/
theorem counterOf_total (hbranch : x.key.isBranch = false) :
    (coverage'.merge added').counterOf x.key =
      ((coverage.merge added).counterOf x.key).map (· + (more : Int)) ∧
    ((coverage.merge added).counterOf x.key = none → more = 0) := by
  obtain ⟨hcounter, hzero⟩ := counterOf_recredit hone hadded hadded' hplain hx hbranch
  rw [Fragment.counterOf_merge, Fragment.counterOf_merge, counterOf_congr hcoverage, hcounter]
  cases hnone : added.counterOf x.key with
  | none =>
    rw [hzero hnone]
    cases coverage.counterOf x.key <;> simp
  | some n =>
    cases coverage.counterOf x.key with
    | none => simp
    | some total => simp [Int.add_assoc]

/-- Totals that count the same have no more hits. -/
theorem more_eq_zero (hsame : ∀ hit ∈ hits, (hit.1.key == x.key) = true → hit.1.Same x)
    (h : (coverage.merge added).SameCounts (coverage'.merge added')) : more = 0 := by
  cases hbranch : x.key.isBranch with
  | false =>
    obtain ⟨hcounter, hzero⟩ := counterOf_total hone hadded hadded' hcoverage hplain hx hbranch
    rw [← counterOf_congr h] at hcounter
    cases hown : (coverage.merge added).counterOf x.key with
    | none => exact hzero hown
    | some n =>
      rw [hown, Option.map_some, Option.some.injEq] at hcounter
      omega
  | true =>
    refine armSum_recredit hone hadded hadded' hsame hbranch ?_
    have hsum := armSum_congr h x.key.id
    rw [Fragment.armSum_merge, Fragment.armSum_merge, armSum_congr hcoverage] at hsum
    omega

end Totals

/-- Totals after hits and after more hits of a target agree exactly when there are no more of them,
or the hits are refused. -/
theorem agree_recredit {x : Target} {last : Bool} {more : Nat} {hits : List (Target × Int)}
    (hsame : ∀ hit ∈ hits, (hit.1.key == x.key) = true → hit.1.Same x)
    (hone : OneEntry x more hits)
    {coverage coverage' : Fragment} (hcoverage : coverage'.SameCounts coverage)
    (hplain : ∀ hit ∈ hits, hit.1.key.IsPlain) (hx : x.key.IsPlain) {path : Option String} :
    let result := (({ path } : Fragment).hitAll hits).map coverage.merge
    let result' := (({ path } : Fragment).hitAll (hits.map (recredit x last more))).map
      coverage'.merge
    ((∃ total, result = .ok total) ↔ ∃ total, result' = .ok total) ∧
      (Fragment.Agree result result' ↔ more = 0 ∨ ∃ fault, result = .error fault) := by
  rcases hitAll_recredit additive_true last more hsame (fun _ => trivial) (fun _ => trivial)
      { path } with
    ⟨added, added', hadded, hadded', -⟩ | ⟨fault, hrefused, hrefused'⟩
  · rw [hadded, hadded']
    refine ⟨iff_of_true ⟨_, rfl⟩ ⟨_, rfl⟩, ?_, ?_⟩
    · rintro ⟨h⟩
      exact .inl (more_eq_zero hone hadded hadded' hcoverage hplain hx hsame
        (Fragment.sameCounters_iff.1 h))
    · rintro (rfl | ⟨fault, hfault⟩)
      · rcases hitAll_recredit additive_eq last 0 hsame (fun _ => rfl)
            (fun n => (add_zero n).symm) { path } with
          ⟨total, total', htotal, htotal', halike⟩ | ⟨fault, hrefused, -⟩
        · rw [hadded] at htotal
          rw [hadded'] at htotal'
          cases htotal
          cases htotal'
          refine .counted (Fragment.sameCounters_iff.2 fun k => ?_)
          rw [Fragment.counts_merge, Fragment.counts_merge, hcoverage k, halike.sameCounts k]
        · rw [hadded] at hrefused
          cases hrefused
      · cases hfault
  · rw [hrefused, hrefused']
    exact ⟨Iff.rfl, iff_of_true (.refused fault) (.inr ⟨fault, rfl⟩)⟩

section Repeated
variable {steps : List Registration} {step : Registration} (hstep : step ∈ steps) {src : SourceRef}
  {x : Target} (htarget : step.target? = some (src, x)) {range : RangeKey}
  (hsrc : src.key = .ok range) {t : RangeTable}
  (hadd : (RangeTable.perform steps).add step = (t, .ok ()))
  {file : FileCoverage} (htable : file.resolver.table? = some (RangeTable.perform steps))
  {resolver : Resolver} (hresolver : resolver.table? = some t)
  {coverage : Fragment} (hcoverage : coverage.SameCounts file.coverage)
  (s : Settings) (trace : Value)
include hstep htarget hsrc hadd

/-- A target that is registered again has been registered for its range before. -/
theorem registered_again :
    t.registered = (RangeTable.perform steps).registered ++ [(range, x)] ∧
      (range, x) ∈ (RangeTable.perform steps).registered := by
  have hentries : step.entries = [(range, x)] := by
    unfold Registration.entries
    rw [htarget]
    simp only [hsrc]
  refine ⟨hentries ▸ (RangeTable.add_of_ok hadd).1, ?_⟩
  exact RangeTable.mem_registered_perform hstep hadd _ (hentries ▸ List.mem_singleton.2 rfl)

include htable hresolver hcoverage

/-- **Registering once more.** When a step that has been taken registers its target once more,
visits of the target count twice: those that begin with an instruction of the range that it is
registered for. A trace is credited to the target that many times more, under the new registration
when the last instruction that counts for the target is one of the range, and all other credits
stay. So the counter of a statement or a function gets that many hits more. Where all registrations
of the target agree, a trace is recorded or refused as before, and it leaves the same counters
exactly when it is refused or there are no such visits. -/
theorem repeated_registration :
    (file.refusal? s trace = none →
        (file.withTable resolver coverage).credits s trace = (file.credits s trace).map
          (recredit x ((file.lastMet s trace x.key).any (·.range.key == range))
            (file.visitsFrom s trace x.key range))) ∧
      (∀ total total', (file.record s trace).result = .ok total →
        ((file.withTable resolver coverage).record s trace).result = .ok total' →
        x.key.isBranch = false →
          total'.counterOf x.key =
            (total.counterOf x.key).map (· + (file.visitsFrom s trace x.key range : Int))) ∧
      ((x.key.isBranch = false → ∀ e ∈ (RangeTable.perform steps).registered,
          (e.2.key == x.key) = true → e.2.Same x) →
        ((∃ total, (file.record s trace).result = .ok total) ↔
            ∃ total, ((file.withTable resolver coverage).record s trace).result = .ok total) ∧
          (Fragment.Agree (file.record s trace).result
              ((file.withTable resolver coverage).record s trace).result ↔
            file.visitsFrom s trace x.key range = 0 ∨
              ∃ fault, (file.record s trace).result = .error fault)) := by
  obtain ⟨hregistered, hmem⟩ := registered_again hstep htarget hsrc hadd
  have hbuilt := RangeTable.built_perform steps
  have hcredits (hr : file.refusal? s trace = none) :=
    credits_withTable htable hmem hresolver hregistered coverage hr
  have hresult (hr : file.refusal? s trace = none) :
      ((file.withTable resolver coverage).record s trace).result =
        (Fragment.hitAll { path := some file.path }
          ((file.withTable resolver coverage).credits s trace)).map coverage.merge :=
    result_of_followed hr
  have hplain : ∀ credit ∈ file.credits s trace, credit.1.key.IsPlain :=
    credits_of_table htable (P := fun t => t.key.IsPlain) hbuilt.isPlain
  have hx : x.key.IsPlain := hbuilt.isPlain _ hmem
  refine ⟨hcredits, fun total total' h h' hbranch => ?_, fun hagree => ?_⟩
  · have hr := refusal?_of_record h
    rw [result_of_followed hr] at h
    rw [hresult hr, hcredits hr] at h'
    obtain ⟨added, hadded, rfl⟩ := map_eq_ok_iff.1 h
    obtain ⟨added', hadded', rfl⟩ := map_eq_ok_iff.1 h'
    exact (counterOf_total (oneEntry_credits hr x range) hadded hadded' hcoverage hplain hx
      hbranch).1
  · have hsame := same_of_credits htable hbuilt hmem hagree s trace
    cases hr : file.refusal? s trace with
    | some fault =>
      have hrefused : ((file.withTable resolver coverage).record s trace).result = .error fault :=
        result_of_refusal? hr
      rw [result_of_refusal? hr, hrefused]
      exact ⟨Iff.rfl, iff_of_true (.refused fault) (.inr ⟨fault, rfl⟩)⟩
    | none =>
      rw [result_of_followed hr, hresult hr, hcredits hr]
      exact agree_recredit hsame (oneEntry_credits hr x range) hcoverage hplain hx

end Repeated

/-- The registration of the first statement of the file. -/
def firstStep : Registration := .statement (.ofInt 1) (.range firstRange)

/-- The registrations of both statements. -/
def bothSteps : List Registration := [firstStep, .statement (.ofInt 2) (.range secondRange)]

/-- The statements of the file, the first of them once more. -/
def firstTwice : RangeTable := (twoStatements.add firstStep).1

/-- One visit of the first statement is two hits when the statement is registered once more. -/
theorem not_once_firstTwice :
    firstStep ∈ bothSteps ∧ RangeTable.perform bothSteps = twoStatements ∧
      twoStatements.add firstStep = (firstTwice, .ok ()) ∧
      (pair.record {} (callOf [0])).state.coverage.statements.get? (.ofInt 1) = some 1 ∧
      ((pair.withTable (.given firstTwice) pair.coverage).record {}
        (callOf [0])).state.coverage.statements.get? (.ofInt 1) = some 2 := by
  refine ⟨List.mem_cons_self .., rfl, rfl, ?_, ?_⟩ <;> decide +kernel

/-- Both visits of the first statement count twice, and without visits of it nothing changes. -/
theorem repeated_registration_firstTwice :
    firstStep ∈ bothSteps ∧
      (RangeTable.perform bothSteps).add firstStep = (firstTwice, .ok ()) ∧
      pair.visitsFrom {} (callOf [0, 1, 2, 0]) (.statement (.ofInt 1)) firstRange.key = 2 ∧
      (∃ total total', (pair.record {} (callOf [0, 1, 2, 0])).result = .ok total ∧
        ((pair.withTable (.given firstTwice) pair.coverage).record {}
          (callOf [0, 1, 2, 0])).result = .ok total' ∧
        total'.counterOf (.statement (.ofInt 1)) =
          (total.counterOf (.statement (.ofInt 1))).map (· + 2)) ∧
      Fragment.Agree (pair.record {} (callOf [2])).result
        ((pair.withTable (.given firstTwice) pair.coverage).record {} (callOf [2])).result := by
  have hstep : firstStep ∈ bothSteps := List.mem_cons_self ..
  have hadd : (RangeTable.perform bothSteps).add firstStep = (firstTwice, .ok ()) := rfl
  have hmem : (firstRange.key, ⟨.statement (.ofInt 1), none, none⟩) ∈
      (RangeTable.perform bothSteps).registered := List.mem_cons_self ..
  have hdistinct : (RangeTable.perform bothSteps).registered.Pairwise
      fun e e' => (e.2.key == e'.2.key) = false := by decide +kernel
  have hagree := fun e he => RangeTable.uniform_of_distinct hdistinct e he _ hmem
  have hsame : pair.coverage.SameCounts pair.coverage := fun _ => rfl
  have hgiven : (Resolver.given firstTwice).table? = some firstTwice := rfl
  have hrepeated := repeated_registration hstep rfl rfl hadd rfl hgiven hsame {}
  have hvisits : pair.visitsFrom {} (callOf [0, 1, 2, 0]) (.statement (.ofInt 1))
      firstRange.key = 2 := by decide +kernel
  have hnone : pair.visitsFrom {} (callOf [2]) (.statement (.ofInt 1)) firstRange.key = 0 := by
    decide +kernel
  have hok : ∃ total, (pair.record {} (callOf [0, 1, 2, 0])).result = .ok total := by
    have hsome : (pair.record {} (callOf [0, 1, 2, 0])).result.toOption.isSome = true := by
      decide +kernel
    cases hr : (pair.record {} (callOf [0, 1, 2, 0])).result with
    | ok total => exact ⟨total, rfl⟩
    | error fault =>
      rw [hr] at hsome
      cases hsome
  obtain ⟨-, hcounter, hrecorded⟩ := hrepeated (callOf [0, 1, 2, 0])
  obtain ⟨total, h⟩ := hok
  obtain ⟨total', h'⟩ := (hrecorded fun _ => hagree).1.1 ⟨total, h⟩
  refine ⟨hstep, hadd, hvisits, ⟨total, total', h, h', ?_⟩, ?_⟩
  · have hmore := hcounter total total' h h' rfl
    rw [hvisits] at hmore
    exact hmore
  · exact (((hrepeated (callOf [2])).2.2 fun _ => hagree).2).2 (.inl hnone)

end FileCoverage

end ContractCoverage
