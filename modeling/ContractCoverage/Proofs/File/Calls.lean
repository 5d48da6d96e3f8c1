import ContractCoverage.Proofs.Coverage.Additions
import ContractCoverage.Proofs.File.Order
import ContractCoverage.Proofs.File.Visits
import ContractCoverage.Proofs.Trace.Nesting

/-! Traces call by call.

The visits of all frames of a trace go into one tally, under the target that was met last.
Where all registrations of a key agree, it does not matter which of them that is, and the
tally is worth what its sightings are worth one by one (`sum_foldl_count`). So a trace adds
the sum of what its frames add (`counts_gain`), leaves the marks of all of them and is
refused when one of them is (`addition_ok_iff`). As a frame taken for a trace is a single
frame again, the calls of a trace may as well be recorded one by one, in any order
(`record_by_calls`). -/
namespace ContractCoverage

namespace Replay

/-! ### What a tally is worth -/

/-- What a sighting adds to the counts of an identifier: a hit of its target when it begins a visit,
and otherwise no hits of it. -/
def worth (k : Ident) (sighting : Target × Bool) : Counts :=
  sighting.1.gain (if sighting.2 then 1 else 0) k

/-- What the entry of a target in a tally adds to the counts of an identifier. -/
def entryWorth (k : Ident) (e : TargetKey × Target × Nat) : Counts := e.2.1.gain e.2.2 k

section Tally
variable {P : Target → Prop}
  (hsame : ∀ t t', P t → P t' → (t.key == t'.key) = true → t.Same t')
include hsame

/-- A sighting adds an entry, or its hits to the entry that is under its key, which is as good under
the name of the sighting as under the one before. -/
theorem entries_count {tally : Tally}
    (hentries : ∀ e ∈ tally.entries, (e.1 == e.2.1.key) = true ∧ P e.2.1) {t : Target} (ht : P t)
    (new : Bool) :
    (count tally (t, new)).entries = tally.entries ++ [(t.key, t, if new then 1 else 0)] ∨
      ∃ before key t' n after, tally.entries = before ++ (key, t', n) :: after ∧ t'.Same t ∧
        (count tally (t, new)).entries =
          before ++ (key, t, n + if new then 1 else 0) :: after := by
  have hupdate := KeyedList.entries_update tally t.key fun old =>
    (t, (old.map (·.2)).getD 0 + if new then 1 else 0)
  rcases hupdate with hnew | ⟨before, key, v, after, hold, hkey, hnew⟩
  · refine .inl (hnew.trans ?_)
    rw [Option.map_none, Option.getD_none, Nat.zero_add]
  · have hmem : (key, v) ∈ tally.entries := by
      rw [hold]
      exact List.mem_append_right _ (List.mem_cons_self ..)
    obtain ⟨hown, hv⟩ := hentries _ hmem
    exact .inr ⟨before, key, v.1, v.2, after, hold,
      hsame v.1 t hv ht (BEq.trans (BEq.symm hown) hkey), hnew⟩

/-- A tally is worth what has been sighted. -/
theorem sum_foldl_count {all : List (Target × Bool)} (hall : ∀ sighting ∈ all, P sighting.1)
    {tally : Tally} (hentries : ∀ e ∈ tally.entries, (e.1 == e.2.1.key) = true ∧ P e.2.1)
    (k : Ident) :
    ((all.foldl count tally).entries.map (entryWorth k)).sum =
      (tally.entries.map (entryWorth k)).sum + (all.map (worth k)).sum := by
  induction all generalizing tally with
  | nil => exact (add_zero _).symm
  | cons sighting all ih =>
    obtain ⟨hfirst, hrest⟩ := List.forall_mem_cons.1 hall
    have hnext := forall_entries_count hfirst hentries
    have hstep : ((count tally sighting).entries.map (entryWorth k)).sum =
        (tally.entries.map (entryWorth k)).sum + worth k sighting := by
      obtain ⟨t, new⟩ := sighting
      rcases entries_count hsame hentries hfirst new with
        hnew | ⟨before, key, t', n, after, hold, hnames, hnew⟩
      · rw [hnew, List.map_append, List.sum_append]
        cases new <;> exact congrArg _ (add_zero _)
      · have hentry : entryWorth k (key, t, n + if new then 1 else 0) =
            entryWorth k (key, t', n) + worth k (t, new) := by
          unfold entryWorth worth
          rw [hnames.gain_eq, Target.gain_add]
          cases new <;> rfl
        rw [hnew, hold, List.map_append, List.map_append, List.sum_append, List.sum_append,
          List.map_cons, List.map_cons, List.sum_cons, List.sum_cons, hentry, add_right_comm,
          add_assoc (before.map _).sum]
    rw [List.foldl_cons, ih hrest hnext, hstep, List.map_cons, List.sum_cons, add_assoc]

/-- A tally can be counted when everything that has been sighted can. -/
theorem isCountable_foldl_count {all : List (Target × Bool)} (hall : ∀ sighting ∈ all, P sighting.1)
    {tally : Tally} (hentries : ∀ e ∈ tally.entries, (e.1 == e.2.1.key) = true ∧ P e.2.1) :
    (∀ e ∈ (all.foldl count tally).entries, e.2.1.IsCountable) ↔
      (∀ e ∈ tally.entries, e.2.1.IsCountable) ∧ ∀ sighting ∈ all, sighting.1.IsCountable := by
  induction all generalizing tally with
  | nil => simp
  | cons sighting all ih =>
    obtain ⟨hfirst, hrest⟩ := List.forall_mem_cons.1 hall
    have hnext := forall_entries_count hfirst hentries
    have hstep : (∀ e ∈ (count tally sighting).entries, e.2.1.IsCountable) ↔
        (∀ e ∈ tally.entries, e.2.1.IsCountable) ∧ sighting.1.IsCountable := by
      obtain ⟨t, new⟩ := sighting
      rcases entries_count hsame hentries hfirst new with
        hnew | ⟨before, key, t', n, after, hold, hnames, hnew⟩
      · rw [hnew, List.forall_mem_append, List.forall_mem_singleton]
      · rw [hnew, hold, List.forall_mem_append, List.forall_mem_append, List.forall_mem_cons,
          List.forall_mem_cons, hnames.isCountable_iff]
        tauto
    rw [List.foldl_cons, ih hrest hnext, hstep, List.forall_mem_cons, and_assoc]

end Tally

/-! ### Marks of many passages -/

theorem foldl_markAll {α : Type} (passages : α → List Passage) (items : List α) (t : Tables) :
    items.foldl (fun t item => markAll (passages item) t) t = markAll (items.flatMap passages) t :=
  List.foldl_flatMap.symm

theorem markAll_perm {ps qs : List Passage} (h : ps.Perm qs) (t : Tables) :
    markAll ps t = markAll qs t :=
  h.foldl_eq' (fun p _ q _ t => mark_comm q p t) t

end Replay

namespace FileCoverage
open Replay

/-! ### What a frame adds -/

/-- What a passage adds to the counts of an identifier. -/
def passageWorth (file : FileCoverage) (k : Ident) (p : Passage) : Counts :=
  ((p.sightings file).map (worth k)).sum

/-- A frame can be followed, and what it executes can be counted. -/
def Takes (s : Settings) (file : FileCoverage) (tables : Tables) (f : Frame) : Prop :=
  obstacle? s tables f = none ∧
    ∀ sighting ∈ (follow s tables f).sightings file, sighting.1.IsCountable

section Registered
variable {file : FileCoverage}
  (huniform : ∀ table, file.resolver.table? = some table → table.Uniform)

/-- A target is one of those in the range table of a file. -/
def Registers (file : FileCoverage) (t : Target) : Prop :=
  ∃ table, file.resolver.table? = some table ∧ ∃ e ∈ table.registered, e.2 = t

theorem registers_of_sightings (passages : List Passage) :
    ∀ sighting ∈ passages.flatMap (·.sightings file), file.Registers sighting.1 := by
  intro sighting hs
  obtain ⟨p, -, hs⟩ := List.mem_flatMap.1 hs
  exact registered_of_sightings (fun table ht e he => ⟨table, ht, e, he, rfl⟩) p sighting hs

include huniform

theorem Registers.same {t t' : Target} (h : file.Registers t) (h' : file.Registers t')
    (hkey : (t.key == t'.key) = true) : t.Same t' := by
  obtain ⟨table, ht, e, he, rfl⟩ := h
  obtain ⟨table', ht', e', he', rfl⟩ := h'
  obtain rfl := Option.some.inj (ht.symm.trans ht')
  exact huniform table ht e he e' he' hkey

/-- The hits of passages can be counted when everything that has been sighted can. -/
theorem isCountable_hits_iff (passages : List Passage) :
    (∀ hit ∈ hits file passages, hit.1.IsCountable) ↔
      ∀ p ∈ passages, ∀ sighting ∈ p.sightings file, sighting.1.IsCountable := by
  have hnone : ∀ e ∈ (KeyedList.empty : Tally).entries,
      (e.1 == e.2.1.key) = true ∧ file.Registers e.2.1 := fun e he => absurd he List.not_mem_nil
  have htally := isCountable_foldl_count (fun _ _ h h' => Registers.same huniform h h')
    (registers_of_sightings passages) hnone
  simp only [hits, KeyedList.values, List.forall_mem_map]
  rw [htally]
  simp only [KeyedList.empty, List.not_mem_nil, false_imp_iff, implies_true, true_and,
    List.forall_mem_flatMap]

/-- The hits of passages are worth what has been sighted. -/
theorem sum_hits (passages : List Passage) (k : Ident) :
    ((hits file passages).map fun hit => hit.1.gain hit.2 k).sum =
      (passages.map (file.passageWorth k)).sum := by
  have hnone : ∀ e ∈ (KeyedList.empty : Tally).entries,
      (e.1 == e.2.1.key) = true ∧ file.Registers e.2.1 := fun e he => absurd he List.not_mem_nil
  have htally := sum_foldl_count (fun _ _ h h' => Registers.same huniform h h')
    (registers_of_sightings passages) hnone k
  have hpassages : ((passages.flatMap (·.sightings file)).map (worth k)).sum =
      (passages.map (file.passageWorth k)).sum := by
    rw [List.flatMap, List.map_flatten, List.sum_flatten, List.map_map, List.map_map]
    rfl
  rw [← hpassages, hits, KeyedList.values, List.map_map, List.map_map]
  exact htally.trans (zero_add _)

variable (hstart : ∀ table, file.resolver.table? = some table → table.FromStart)
include hstart

/-- The hits of passages can be counted when their sightings can, and then they are worth the
sightings of all of them. -/
theorem increment_of_uniform (passages : List Passage) :
    ((∃ added, increment file passages = .ok added) ↔
        ∀ p ∈ passages, ∀ sighting ∈ p.sightings file, sighting.1.IsCountable) ∧
      ∀ added, increment file passages = .ok added →
        ∀ k, added.counts k = (passages.map (file.passageWorth k)).sum := by
  have hfromStart : ∀ hit ∈ hits file passages, hit.1.FromStart :=
    registered_of_hits hstart passages
  rw [← isCountable_hits_iff huniform]
  refine ⟨⟨?_, fun h => ?_⟩, fun added hadded k => ?_⟩
  · rintro ⟨added, hadded⟩
    exact Fragment.isCountable_of_hitAll hadded
  · obtain ⟨added, hadded, -⟩ := Fragment.hitAll_of_countable _ hfromStart h
    exact ⟨added, hadded⟩
  · obtain ⟨g, hg, hcounts⟩ :=
      Fragment.hitAll_of_countable _ hfromStart (Fragment.isCountable_of_hitAll hadded)
    obtain rfl := Except.ok.inj (hadded.symm.trans hg)
    rw [hcounts, sum_hits huniform]
    exact zero_add _

section Frames
variable {s : Settings} {tables : Tables} (htables : file.tables = some tables) {trace : Value}
  {frames : List Frame} (hframes : Trace.frames trace = .ok frames)
include htables hframes

/-- A trace can be recorded when each of its frames can. -/
theorem addition_ok_iff :
    (∃ added, file.addition s trace = .ok added) ↔ ∀ f ∈ frames, file.Takes s tables f := by
  unfold Takes
  by_cases h : ∀ f ∈ frames, obstacle? s tables f = none
  · rw [addition, (refusal?_eq_none_iff htables hframes).2 h, passages_of_frames htables hframes h]
    simp only [(increment_of_uniform huniform hstart _).1, List.forall_mem_map]
    exact forall₂_congr fun f hf => (and_iff_right (h f hf)).symm
  · constructor
    · rintro ⟨added, hadded⟩
      unfold addition at hadded
      split at hadded
      · cases hadded
      · next hnone => exact absurd ((refusal?_eq_none_iff htables hframes).1 hnone) h
    · exact fun htakes => absurd (fun f hf => (htakes f hf).1) h

/-- A trace that can be recorded adds what its frames add. -/
theorem counts_gain (h : ∀ f ∈ frames, file.Takes s tables f) (k : Ident) :
    (file.gain s trace).counts k =
      (frames.map fun f => file.passageWorth k (follow s tables f)).sum := by
  have hfollowed : ∀ f ∈ frames, obstacle? s tables f = none := fun f hf => (h f hf).1
  obtain ⟨added, hadded⟩ := (addition_ok_iff huniform hstart htables hframes).2 h
  have hincrement : increment file (frames.map (follow s tables)) = .ok added := by
    rw [← hadded, addition, (refusal?_eq_none_iff htables hframes).2 hfollowed,
      passages_of_frames htables hframes hfollowed]
  rw [gain, hadded]
  exact ((increment_of_uniform huniform hstart _).2 added hincrement k).trans
    (by rw [List.map_map]; rfl)

end Frames

end Registered

/-! ### Frames as traces -/

/-- Records the steps of calls as traces of their own, up to the first that is refused. -/
def recordCalls (s : Settings) (file : FileCoverage) : List Frame → Except Fault FileCoverage
  | [] => .ok file
  | f :: calls =>
    match (file.recordSteps s f.steps).result with
    | .ok _ => recordCalls s (file.recordSteps s f.steps).state calls
    | .error fault => .error fault

/-- The steps of a frame are those of a trace, as the tracer writes it, which is that frame. -/
theorem exists_call {trace : Value} {frames : List Frame} (h : Trace.frames trace = .ok frames)
    {f : Frame} (hf : f ∈ frames) :
    ∃ call, Trace.load call = .ok f.steps ∧ Trace.frames call = .ok [f] := by
  unfold Trace.frames at h
  split at h
  · cases h
  · next steps hload =>
    have hframes := mapError_eq_ok_iff.1 h
    obtain ⟨first, rest, -, hsub, -⟩ := Frame.level_of_mem_ofSteps hframes hf
    have hread : ∀ step ∈ f.steps, ∃ v, Step.ofValue v = .ok step := by
      intro step hstep
      obtain ⟨part, -, hload⟩ := bind_eq_ok_iff.1 hload
      obtain ⟨items, -, hload⟩ := bind_eq_ok_iff.1 hload
      obtain ⟨v, -, hv⟩ := (mem_of_mapM (mapError_eq_ok_iff.1 hload)).2 step (hsub step hstep)
      exact ⟨v, hv⟩
    choose! read hread using hread
    have hsteps : (f.steps.map read).mapM Step.ofValue = .ok f.steps :=
      mapM_eq_ok_iff.2 (List.forall₂_map_left_iff.2 (List.forall₂_same.2 hread))
    have hcall : Trace.load (.list (f.steps.map read)) = .ok f.steps := by
      show ((f.steps.map read).mapM Step.ofValue).mapError Fault.shape = _
      rw [hsteps]
      rfl
    exact ⟨_, hcall, Trace.frames_of_load hcall (Frame.ofSteps_steps hframes hf)⟩

/-- Recording calls one by one is recording the traces that they make. -/
theorem recordCalls_eq_ok_iff {s : Settings} {file file' : FileCoverage} {calls : List Frame}
    {read : Frame → Value} (hread : ∀ f ∈ calls, Trace.load (read f) = .ok f.steps) :
    file.recordCalls s calls = .ok file' ↔
      (∀ f ∈ calls, ∃ added, file.addition s (read f) = .ok added) ∧
        file' = file.recordAll s (calls.map read) := by
  induction calls generalizing file with
  | nil => simp [recordCalls, recordAll, eq_comm]
  | cons f calls ih =>
    obtain ⟨hfirst, hrest⟩ := List.forall_mem_cons.1 hread
    have hground := ground_record s file (read f)
    rw [recordCalls, ← file.record_eq_recordSteps s hfirst, record_result, List.forall_mem_cons,
      List.map_cons, recordAll]
    cases hadded : file.addition s (read f) with
    | error fault =>
      constructor
      · intro h
        cases h
      · rintro ⟨⟨⟨added, h⟩, -⟩, -⟩
        cases h
    | ok added =>
      refine (ih hrest).trans ?_
      simp only [addition_congr hground]
      exact and_congr_left fun _ => (and_iff_right ⟨added, rfl⟩).symm

/-! ### Calls as traces -/

section Calls
variable {s : Settings} {file : FileCoverage} {tables : Tables}
  (htables : file.tables = some tables) {calls : List Frame} {read : Frame → Value}
  (hread : ∀ f ∈ calls, Trace.frames (read f) = .ok [f])
include htables hread

theorem passages_of_calls (h : ∀ f ∈ calls, obstacle? s tables f = none) :
    (calls.map read).flatMap (file.passages s) = calls.map (follow s tables) := by
  rw [List.flatMap_map, List.map_eq_flatMap]
  apply List.flatMap_congr
  intro f hf
  exact passages_of_frames htables (hread f hf) (List.forall_mem_singleton.2 (h f hf))

variable (huniform : ∀ table, file.resolver.table? = some table → table.Uniform)
  (hstart : ∀ table, file.resolver.table? = some table → table.FromStart)
include huniform hstart

theorem additions_of_calls : (∀ f ∈ calls, ∃ added, file.addition s (read f) = .ok added) ↔
    ∀ f ∈ calls, file.Takes s tables f := by
  refine forall₂_congr fun f hf => ?_
  rw [addition_ok_iff huniform hstart htables (hread f hf), List.forall_mem_singleton]

theorem gains_of_calls (h : ∀ f ∈ calls, file.Takes s tables f) (k : Ident) :
    (calls.map read).map (fun call => (file.gain s call).counts k) =
      calls.map fun f => file.passageWorth k (follow s tables f) := by
  rw [List.map_map]
  apply List.map_congr_left
  intro f hf
  show (file.gain s (read f)).counts k = _
  rw [counts_gain huniform hstart htables (hread f hf) (List.forall_mem_singleton.2 (h f hf))]
  exact add_zero _

end Calls

/-- A trace is recorded when what it adds can be told. -/
theorem exists_total_iff (s : Settings) (file : FileCoverage) (trace : Value) :
    (∃ total, (file.record s trace).result = .ok total) ↔
      ∃ added, file.addition s trace = .ok added := by
  rw [record_result]
  cases file.addition s trace with
  | error fault => exact ⟨nofun, nofun⟩
  | ok added => exact ⟨fun _ => ⟨added, rfl⟩, fun _ => ⟨_, rfl⟩⟩

/-- A trace that does not fall into calls is refused, and nothing else happens. -/
theorem record_of_frames_error {s : Settings} {file : FileCoverage} {trace : Value} {fault : Fault}
    (hingested : file.isIngested = true) (h : Trace.frames trace = .error fault) :
    (file.record s trace).result = .error fault ∧ (file.record s trace).state = file := by
  obtain ⟨tables, htables⟩ := Option.isSome_iff_exists.1 hingested
  have haddition : file.addition s trace = .error fault := by
    rw [addition, refusal?_of_tables htables, h]
  have hmarks : file.tables.map (markAll (file.passages s trace)) = file.tables := by
    rw [passages_of_tables htables, h, htables]
    rfl
  rw [record_result, record_state, haddition, hmarks]
  exact ⟨rfl, rfl⟩

/-- **Calls one by one.** Where all registrations of a key agree and arms are counted from the
start, recording a trace is recording the steps of its calls as traces of their own, in any order:
the one can be done when the other can, and then both leave the same counters and the same marks. A
trace that does not fall into calls changes nothing. -/
theorem record_by_calls (s : Settings) {file : FileCoverage} (hingested : file.isIngested = true)
    (huniform : ∀ table, file.resolver.table? = some table → table.Uniform)
    (hstart : ∀ table, file.resolver.table? = some table → table.FromStart) (trace : Value) :
    (∀ fault, Trace.frames trace = .error fault →
        (file.record s trace).result = .error fault ∧ (file.record s trace).state = file) ∧
      ∀ frames, Trace.frames trace = .ok frames → ∀ calls : List Frame, calls.Perm frames →
        ((∃ total, (file.record s trace).result = .ok total) ↔
            ∃ file', file.recordCalls s calls = .ok file') ∧
          ∀ file', file.recordCalls s calls = .ok file' →
            (file.record s trace).state.coverage.SameCounts file'.coverage ∧
              (file.record s trace).state.tables = file'.tables := by
  obtain ⟨tables, htables⟩ := Option.isSome_iff_exists.1 hingested
  refine ⟨fun fault hfault => record_of_frames_error hingested hfault, ?_⟩
  intro frames hframes calls hperm
  have hcalls : ∀ f ∈ calls,
      ∃ call, Trace.load call = .ok f.steps ∧ Trace.frames call = .ok [f] :=
    fun f hf => exists_call hframes (hperm.mem_iff.1 hf)
  choose! read hread using hcalls
  have hload : ∀ f ∈ calls, Trace.load (read f) = .ok f.steps := fun f hf => (hread f hf).1
  have hframe : ∀ f ∈ calls, Trace.frames (read f) = .ok [f] := fun f hf => (hread f hf).2
  have hadditions := additions_of_calls (s := s) htables hframe huniform hstart
  refine ⟨?_, fun file' h => ?_⟩
  · have hmembers : (∀ f ∈ frames, file.Takes s tables f) ↔ ∀ f ∈ calls, file.Takes s tables f :=
      forall_congr' fun f => imp_congr_left hperm.mem_iff.symm
    rw [exists_total_iff, addition_ok_iff huniform hstart htables hframes, hmembers, ← hadditions]
    constructor
    · exact fun h => ⟨_, (recordCalls_eq_ok_iff hload).2 ⟨h, rfl⟩⟩
    · rintro ⟨file', h⟩
      exact ((recordCalls_eq_ok_iff hload).1 h).1
  · obtain ⟨hadds, rfl⟩ := (recordCalls_eq_ok_iff hload).1 h
    have htakes := hadditions.1 hadds
    have hwhole : ∀ f ∈ frames, file.Takes s tables f := fun f hf => htakes f (hperm.mem_iff.2 hf)
    refine ⟨fun k => ?_, ?_⟩
    · have hsum : ((calls.map read).map fun call => (file.gain s call).counts k).sum =
          (file.gain s trace).counts k := by
        rw [gains_of_calls htables hframe huniform hstart htakes,
          counts_gain huniform hstart htables hframes hwhole]
        exact (hperm.map _).sum_eq
      rw [record_state, counts_recordAll, hsum]
      exact counts_totalAfter s file trace k
    · have hpassages := passages_of_calls htables hframe fun f hf => (htakes f hf).1
      rw [record_state, tables_recordAll, htables, Option.map_some, Option.map_some,
        foldl_markAll, hpassages, passages_of_frames htables hframes fun f hf => (hwhole f hf).1]
      exact congrArg some (markAll_perm (hperm.symm.map _) tables)

/-- A call of the first statement that makes a call of both and goes on afterwards. -/
def nested : Value :=
  .list ([(0, 1), (0, 2), (2, 2), (1, 1)].map fun (pc, depth) =>
    .object [("pc", .int pc), ("depth", .int depth)])

/-- The inner call first, then the outer one: two visits of the first statement. -/
theorem record_by_calls_nested :
    pair.isIngested = true ∧
      (∀ table, pair.resolver.table? = some table → table.Uniform) ∧
      (∀ table, pair.resolver.table? = some table → table.FromStart) ∧
      ∃ frames file', Trace.frames nested = .ok frames ∧ frames.length = 2 ∧
        pair.recordCalls {} frames.reverse = .ok file' ∧
        (pair.record {} nested).state.coverage.SameCounts file'.coverage ∧
        (pair.record {} nested).state.tables = file'.tables ∧
        file'.coverage.statements.get? (.ofInt 1) = some 2 := by
  have huniform : ∀ table, pair.resolver.table? = some table → table.Uniform := by
    intro table ht
    cases ht
    exact RangeTable.uniform_of_distinct (by decide)
  have hstart : ∀ table, pair.resolver.table? = some table → table.FromStart := by
    intro table ht
    cases ht
    refine List.forall_mem_cons.2 ⟨⟨nofun, nofun⟩, ?_⟩
    exact List.forall_mem_singleton.2 ⟨nofun, nofun⟩
  have hlength : (Trace.frames nested).toOption.map List.length = some 2 := by decide +kernel
  have hok : (pair.record {} nested).result.toOption.isSome = true := by decide +kernel
  have hvisits : (pair.record {} nested).state.coverage.statements.get? (.ofInt 1) = some 2 := by
    decide +kernel
  cases hframes : Trace.frames nested with
  | error fault =>
    rw [hframes] at hlength
    cases hlength
  | ok frames =>
    rw [hframes] at hlength
    cases hrecord : (pair.record {} nested).result with
    | error fault =>
      rw [hrecord] at hok
      cases hok
    | ok total =>
      obtain ⟨hiff, hsame⟩ := (record_by_calls {} rfl huniform hstart nested).2 frames hframes
        frames.reverse frames.reverse_perm
      obtain ⟨file', h⟩ := hiff.1 ⟨total, hrecord⟩
      obtain ⟨hcounts, htables⟩ := hsame file' h
      exact ⟨rfl, huniform, hstart, frames, file', rfl, Option.some.inj hlength, h, hcounts,
        htables, (hcounts.statement (.ofInt 1)).symm.trans hvisits⟩

end FileCoverage

end ContractCoverage
