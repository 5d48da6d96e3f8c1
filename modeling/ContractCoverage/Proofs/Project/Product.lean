import ContractCoverage.Proofs.File.History
import ContractCoverage.Proofs.Project.Ingestion
import ContractCoverage.Proofs.Project.Recording
import ContractCoverage.Proofs.Trace.Depths

/-! A project as the product of its files.

A call to a project does to each file what it would do to the file alone. Ingestion gives
every file its slice. Recording gives every file the whole trace, except that files
without code may be left out, and those lose nothing: no frame aligns with a listing that
is empty, so the trace adds nothing to their totals (`record_of_isInterface`). A run of
calls is thus a run of every file on its own (`run_product`), and the setting that leaves
files out decides which names come with an answer, and nothing else. -/
namespace ContractCoverage

namespace Fragment

/-- Adding a fragment that has a path and nothing else changes nothing but a missing path. -/
theorem merge_path (f : Fragment) (path : Option String) (h : f.path = path) :
    f.merge { path } = f := by
  obtain ⟨own, statements, branches, functions, lines, statementMap, functionMap, branchMap⟩ := f
  cases h
  simp only [merge, firstPath_self, union_empty]
  rfl

end Fragment

/-- The settings with another choice of whether files without code are left out. -/
def Settings.withSkips (skip : Bool) (s : Settings) : Settings := { s with skipInterfaces := skip }

namespace FileCoverage
open Replay

/-! ### Files without code -/

/-- The total of a file knows the path of the file, as it does from the beginning. -/
def IsRooted (file : FileCoverage) : Prop := file.coverage.path = some file.path

theorem isRooted_new (name path text : String) (table : Option RangeTable) :
    (new name path text table).IsRooted := by
  cases table with
  | none => rfl
  | some table => exact Fragment.firstPath_self (some path)

theorem IsRooted.setResolver {file : FileCoverage} (h : file.IsRooted) (table : RangeTable) :
    (file.setResolver table).IsRooted := by
  show Fragment.firstPath file.coverage.path (some file.path) = some file.path
  rw [h, Fragment.firstPath_self]

theorem IsRooted.record {file : FileCoverage} (h : file.IsRooted) (s : Settings) (trace : Value) :
    (file.record s trace).state.IsRooted := by
  rw [record_state]
  show (file.totalAfter (file.addition s trace)).path = some file.path
  cases ha : file.addition s trace with
  | error fault => exact h
  | ok added =>
    unfold addition at ha
    split at ha
    · cases ha
    · have hpath : added.path = some file.path := Fragment.path_hitAll ha
      show Fragment.firstPath file.coverage.path added.path = some file.path
      rw [h, hpath, Fragment.firstPath_self]

theorem IsRooted.ingest {file : FileCoverage} (h : file.IsRooted) (s : Settings)
    (contracts source : Value) : (file.ingest s contracts source).state.IsRooted := by
  rcases ingest_cases s file contracts source with hsame | ⟨sourceId, artifacts, table, hinstall, -⟩
  · rwa [hsame]
  · rw [hinstall]
    cases table with
    | none => exact h
    | some table => exact h.setResolver table

/-- A file stays rooted whatever happens to it. -/
theorem IsRooted.after {file : FileCoverage} (h : file.IsRooted) (actions : List Action) :
    (file.after actions).IsRooted := by
  induction actions generalizing file with
  | nil => exact h
  | cons a actions ih =>
    apply ih
    cases a with
    | ingest s contracts source => exact h.ingest s contracts source
    | record s trace => exact h.record s trace

/-- No frame can align with a listing of a file without code. -/
theorem candidates_of_isInterface {file : FileCoverage} (h : file.isInterface = true)
    {tables : Tables} (htables : file.tables = some tables) (s : Settings) :
    tables.candidates s = [] := by
  rw [isInterface, htables] at h
  have hempty : tables.nonempty = [] := by
    rw [Tables.nonempty, List.filter_eq_nil_iff]
    intro table htable
    rw [List.all_eq_true.1 h table htable]
    exact Bool.false_ne_true
  rw [Tables.candidates, hempty, List.filter_nil]

/-- A passage through a file without code leaves no mark and meets no target. -/
theorem passages_of_isInterface {file : FileCoverage} (h : file.isInterface = true) (s : Settings)
    (trace : Value) : ∀ p ∈ file.passages s trace, p.table = none ∧ p.entries = [] := by
  intro p hp
  unfold passages at hp
  split at hp
  · next tables frames htables _ =>
    obtain ⟨f, -, rfl⟩ := List.mem_map.1 hp
    rw [follow, Frame.align, candidates_of_isInterface h htables s]
    exact ⟨rfl, rfl⟩
  · cases hp

theorem markAll_unaligned {passages : List Passage} (h : ∀ p ∈ passages, p.table = none)
    (t : Tables) : markAll passages t = t := by
  induction passages generalizing t with
  | nil => rfl
  | cons p passages ih =>
    obtain ⟨hp, hrest⟩ := List.forall_mem_cons.1 h
    have hmark : p.mark t = t := by rw [Passage.mark, hp]
    show markAll passages (p.mark t) = t
    rw [hmark, ih hrest]

theorem increment_of_isInterface {file : FileCoverage} (h : file.isInterface = true) (s : Settings)
    (trace : Value) :
    increment file (file.passages s trace) = .ok { path := some file.path } := by
  have hnone : (file.passages s trace).flatMap (·.sightings file) = [] := by
    apply List.flatMap_eq_nil_iff.2
    intro p hp
    rw [Passage.sightings, (passages_of_isInterface h s trace p hp).2]
    rfl
  rw [increment, hits, hnone]
  rfl

/-- A trace does nothing to a file without code. -/
theorem record_of_isInterface {file : FileCoverage} (hrooted : file.IsRooted)
    (h : file.isInterface = true) (s : Settings) (trace : Value) :
    (file.record s trace).state = file := by
  have hmarks : markAll (file.passages s trace) = id := by
    funext t
    exact markAll_unaligned (fun p hp => (passages_of_isInterface h s trace p hp).1) t
  have htotal : file.totalAfter (file.addition s trace) = file.coverage := by
    rw [addition, increment_of_isInterface h]
    split
    · rfl
    · exact Fragment.merge_path _ _ hrooted
  rw [record_state, hmarks, htotal, Option.map_id]
  rfl

/-- Nor does a file without code refuse a trace with integer depths. -/
theorem result_of_isInterface {file : FileCoverage} (h : file.isInterface = true) (s : Settings)
    {trace : Value} {steps : List Step} (hload : Trace.load trace = .ok steps)
    (hdepths : HasDepths trace) : ∃ total, (file.record s trace).result = .ok total := by
  obtain ⟨frames, hframes, htexts⟩ := Frame.ofSteps_of_depths (hdepths steps hload)
  have hread := Trace.frames_of_load hload hframes
  have hrefusal : file.refusal? s trace = none := by
    cases htables : file.tables with
    | none =>
      rw [isInterface, htables] at h
      cases h
    | some tables =>
      have hcandidates := candidates_of_isInterface h htables s
      have hobstacle : frames.findSome? (obstacle? s tables) = none := by
        rw [List.findSome?_eq_none_iff]
        intro f hf
        obtain ⟨text, htext⟩ := htexts f hf
        simp only [obstacle?, hcandidates, List.isEmpty_nil, Bool.not_true, Bool.and_false,
          Bool.false_eq_true, if_false, htext]
      simp only [refusal?, htables, hread, hobstacle, Option.map_none]
  refine ⟨file.coverage.merge { path := some file.path }, ?_⟩
  rw [record_result, addition, hrefusal]
  simp only [increment_of_isInterface h, map_ok]

/-- The answer to a trace is the total after it. -/
theorem coverage_of_recorded {s : Settings} {file : FileCoverage} {trace : Value} {total : Fragment}
    (h : (file.record s trace).result = .ok total) :
    (file.record s trace).state.coverage = total := by
  rw [record_result] at h
  rw [record_state]
  cases ha : file.addition s trace with
  | error fault =>
    rw [ha] at h
    cases h
  | ok added =>
    rw [ha] at h
    exact Except.ok.inj h

/-! ### Settings of the project -/

theorem ingest_withSkips (skip : Bool) (s : Settings) (file : FileCoverage)
    (contracts source : Value) :
    file.ingest (s.withSkips skip) contracts source = file.ingest s contracts source := rfl

end FileCoverage

namespace Project
open FileCoverage (callOf)

/-! ### Calls -/

/-- A call to a project. -/
inductive Call where
  | ingest (s : Settings) (output : Value)
  | record (s : Settings) (trace : Value)

/-- The call with another choice of whether files without code are left out. -/
def Call.withSkips (skip : Bool) : Call → Call
  | .ingest s output => .ingest (s.withSkips skip) output
  | .record s trace => .record (s.withSkips skip) trace

/-- What a call means for one file on its own: it takes in its slice of the output, if it has one, or
records the trace. -/
def Call.own (name : String) : Call → Option Action
  | .ingest s output => (slice? output name).map fun part => .ingest s part.1 part.2
  | .record s trace => some (.record s trace)

/-- The output of a call names every file once. -/
def Call.NamesOnce : Call → Prop
  | .ingest _ output => Project.NamesOnce output
  | .record .. => True

/-- The trace of a call has integer depths. -/
def Call.HasDepths : Call → Prop
  | .ingest .. => True
  | .record _ trace => ContractCoverage.HasDepths trace

/-- What some calls mean for one file on its own. -/
def ownActions (name : String) (calls : List Call) : List Action := calls.filterMap (Call.own name)

/-- The project after a run of calls, with the answers to its traces. The first call that fails ends
the run. -/
def run (p : Project) : List Call → Except Fault (Project × List (List (String × Fragment)))
  | [] => .ok (p, [])
  | .ingest s output :: calls => do
    (p.ingest s output).result
    (p.ingest s output).state.run calls
  | .record s trace :: calls => do
    let answer ← (p.record s trace).result
    let (q, answers) ← (p.record s trace).state.run calls
    return (q, answer :: answers)

/-- The files that are not left out. -/
def reported (s : Settings) (files : List (String × FileCoverage)) :
    List (String × FileCoverage) :=
  files.filter fun e => !isSkipped s e.2

/-- The totals that files on their own have after each trace of some calls, of those files that are
not left out then. -/
def totals (files : List (String × FileCoverage)) : List Call → List (List (String × Fragment))
  | [] => []
  | c@(.ingest ..) :: calls =>
    totals (files.map fun e => (e.1, e.2.after (ownActions e.1 [c]))) calls
  | c@(.record s trace) :: calls =>
    (reported s files).map (fun e => (e.1, (e.2.record s trace).state.coverage)) ::
      totals (files.map fun e => (e.1, e.2.after (ownActions e.1 [c]))) calls

/-! ### One call -/

theorem ownActions_cons (name : String) (file : FileCoverage) (c : Call) (calls : List Call) :
    file.after (ownActions name (c :: calls)) =
      (file.after (ownActions name [c])).after (ownActions name calls) := by
  rw [← List.singleton_append, ownActions, List.filterMap_append, FileCoverage.after,
    List.foldl_append]
  rfl

/-- Output that is accepted does to every file what its slice does to the file alone. -/
theorem entries_ingest {s : Settings} {p : Project} {output : Value} (honce : NamesOnce output)
    (h : (p.ingest s output).result = .ok ()) :
    (p.ingest s output).state.files.entries =
      p.files.entries.map fun e => (e.1, e.2.after (ownActions e.1 [.ingest s output])) := by
  rw [entries_of_accepted honce h]
  apply List.map_congr_left
  intro e _
  simp only [alone, ownActions, List.filterMap_cons, List.filterMap_nil, Call.own]
  cases slice? output e.1 <;> rfl

/-- A trace that is accepted does to every file what it does to the file alone, also to those that
are left out. -/
theorem entries_record {s : Settings} {p : Project} {trace : Value}
    (hrooted : ∀ e ∈ p.files.entries, e.2.IsRooted) {answer : List (String × Fragment)}
    (h : (p.record s trace).result = .ok answer) :
    (p.record s trace).state.files.entries =
      p.files.entries.map fun e => (e.1, e.2.after (ownActions e.1 [.record s trace])) := by
  rw [entries_of_recorded h]
  apply List.map_congr_left
  intro e he
  show (e.1, if isSkipped s e.2 then e.2 else (e.2.record s trace).state) =
    (e.1, (e.2.record s trace).state)
  by_cases hskipped : isSkipped s e.2 = true
  · have hinterface : e.2.isInterface = true := (Bool.and_eq_true_iff.1 hskipped).2
    rw [if_pos hskipped, FileCoverage.record_of_isInterface (hrooted e he) hinterface]
  · rw [if_neg hskipped]

/-- The answer to a trace has the new totals of the files that are not left out. -/
theorem answer_of_recordFiles {s : Settings} {trace : Value} {steps : List Step}
    (hload : Trace.load trace = .ok steps) {p : Project} {files : List (String × FileCoverage)}
    {answer : List (String × Fragment)} (h : (recordFiles s steps p files).result = .ok answer) :
    answer = (reported s files).map fun e => (e.1, (e.2.record s trace).state.coverage) := by
  induction files generalizing p answer with
  | nil =>
    cases h
    rfl
  | cons e files ih =>
    obtain ⟨name, file⟩ := e
    rw [recordFiles] at h
    rw [reported, List.filter_cons]
    split at h
    · next hskipped =>
      simp only [hskipped, Bool.not_true, Bool.false_eq_true, if_false]
      exact ih h
    · next hreported =>
      simp only [hreported, Bool.not_false, if_true, List.map_cons]
      dsimp only at h
      split at h
      · cases h
      · next total htotal =>
        dsimp only at h
        rw [← FileCoverage.record_eq_recordSteps s file hload] at htotal
        cases hrest : (recordFiles s steps { p with
            files := p.files.insert name (file.recordSteps s steps).state } files).result with
        | error fault =>
          rw [hrest] at h
          cases h
        | ok answers =>
          rw [hrest] at h
          cases h
          rw [FileCoverage.coverage_of_recorded htotal, ih hrest]
          rfl

theorem answer_record {s : Settings} {p : Project} {trace : Value}
    {answer : List (String × Fragment)} (h : (p.record s trace).result = .ok answer) :
    answer =
      (reported s p.files.entries).map fun e => (e.1, (e.2.record s trace).state.coverage) := by
  unfold record at h
  cases hload : Trace.load trace with
  | error fault =>
    rw [hload] at h
    cases h
  | ok steps =>
    rw [hload] at h
    exact answer_of_recordFiles hload h

/-- The report has the totals of the files that are not left out. -/
theorem result_report (s : Settings) (p : Project) :
    (p.report s).result = (reported s p.files.entries).mapM fun e =>
      (e.2.coverage.report.map fun report => (e.1, report)).mapError Fault.shape := by
  rw [report, Logged.result_bind, Logged.result_mapM]
  simp only [Logged.result_pure]
  induction p.files.entries with
  | nil => rfl
  | cons e files ih =>
    rw [List.mapM_cons, reported, List.filter_cons]
    by_cases hskipped : isSkipped s e.2 = true
    · have hleft : (reportFile s e).result = .ok none := by rw [reportFile, if_pos hskipped]
      simp only [hskipped, Bool.not_true, Bool.false_eq_true, if_false]
      rw [hleft, ok_bind, ← reported, ← ih]
      cases files.mapM fun e => (reportFile s e).result <;> rfl
    · have hreport : (reportFile s e).result =
          (e.2.coverage.report.map fun report => some (e.1, report)).mapError Fault.shape := by
        rw [reportFile, if_neg hskipped]
      simp only [hskipped, Bool.not_false, if_true, List.mapM_cons]
      rw [hreport, ← reported, ← ih]
      cases e.2.coverage.report with
      | error fault => rfl
      | ok report => cases files.mapM fun e => (reportFile s e).result <;> rfl

/-! ### Runs -/

/-- Every file of the project is rooted. -/
def IsRooted (p : Project) : Prop := ∀ e ∈ p.files.entries, e.2.IsRooted

theorem isRooted_of_after {p q : Project} (h : p.IsRooted) (actions : String → List Action)
    (hentries : q.files.entries = p.files.entries.map fun e => (e.1, e.2.after (actions e.1))) :
    q.IsRooted := by
  intro e he
  rw [hentries] at he
  obtain ⟨e', he', rfl⟩ := List.mem_map.1 he
  exact (h e' he').after _

/-- Every file after a run of calls is the file on its own after what the calls mean for it, and the
answers are those of the files. -/
theorem run_of_accepted {p q : Project} (hrooted : p.IsRooted) {calls : List Call}
    (honce : ∀ c ∈ calls, c.NamesOnce) {answers : List (List (String × Fragment))}
    (h : p.run calls = .ok (q, answers)) :
    q.files.entries = p.files.entries.map (fun e => (e.1, e.2.after (ownActions e.1 calls))) ∧
      answers = totals p.files.entries calls := by
  induction calls generalizing p answers with
  | nil =>
    cases h
    exact ⟨(List.map_id' _).symm, rfl⟩
  | cons c calls ih =>
    obtain ⟨hc, hcalls⟩ := List.forall_mem_cons.1 honce
    have hgo : ∀ p' : Project, p'.files.entries =
        p.files.entries.map (fun e => (e.1, e.2.after (ownActions e.1 [c]))) →
        ∀ answers', p'.run calls = .ok (q, answers') →
          q.files.entries =
              p.files.entries.map (fun e => (e.1, e.2.after (ownActions e.1 (c :: calls)))) ∧
            answers' = totals
              (p.files.entries.map fun e => (e.1, e.2.after (ownActions e.1 [c]))) calls := by
      intro p' hp' answers' hrun
      obtain ⟨hfiles, hanswers⟩ := ih
        (isRooted_of_after hrooted (ownActions · [c]) hp') hcalls hrun
      rw [hfiles, hanswers, hp', List.map_map]
      refine ⟨List.map_congr_left fun e _ => ?_, rfl⟩
      rw [ownActions_cons]
      rfl
    cases c with
    | ingest s output =>
      simp only [run, bind_eq_ok_iff] at h
      obtain ⟨⟨⟩, hingest, hrun⟩ := h
      exact hgo _ (entries_ingest hc hingest) _ hrun
    | record s trace =>
      simp only [run, bind_eq_ok_iff] at h
      obtain ⟨answer, hrecord, ⟨q', answers'⟩, hrun, h⟩ := h
      cases h
      obtain ⟨hfiles, hanswers⟩ := hgo _ (entries_record hrooted hrecord) _ hrun
      refine ⟨hfiles, ?_⟩
      rw [totals, hanswers, answer_record hrecord]

/-! ### Files that are left out -/

theorem ingestFiles_withSkips (skip : Bool) (s : Settings) (contracts sources : Value) (p : Project)
    (names : List Value) :
    ingestFiles (s.withSkips skip) contracts sources p names =
      ingestFiles s contracts sources p names := by
  induction names generalizing p with
  | nil => rfl
  | cons name names ih => simp only [ingestFiles, FileCoverage.ingest_withSkips, ih]

theorem ingest_withSkips (skip : Bool) (s : Settings) (p : Project) (output : Value) :
    p.ingest (s.withSkips skip) output = p.ingest s output := by
  simp only [ingest, ingestFiles_withSkips]

/-- A trace is accepted when it can be read and every file takes it. -/
theorem accepted_of_takes {s : Settings} {p : Project} {trace : Value} {steps : List Step}
    (hload : Trace.load trace = .ok steps) (h : ∀ e ∈ p.files.entries, Takes s trace e) :
    ∃ answer, (p.record s trace).result = .ok answer := by
  cases hr : (p.record s trace).result with
  | ok answer => exact ⟨answer, rfl⟩
  | error fault =>
    have hwent := went_recordFiles s hload (List.nil_append p.files.entries).symm
    unfold record at hr
    rw [hload] at hr
    unfold Went at hwent
    rw [hr] at hwent
    obtain ⟨before, refuser, after, hfirst, -⟩ := hwent
    have hmem : refuser ∈ p.files.entries := by
      rw [hfirst.files]
      exact List.mem_append_right _ (List.mem_cons_self ..)
    rcases h refuser hmem with hskipped | ⟨total, htotal⟩
    · rw [hfirst.reported] at hskipped
      cases hskipped
    · rw [hfirst.refused] at htotal
      cases htotal

theorem takes_of_accepted {s : Settings} {p : Project} {trace : Value}
    {answer : List (String × Fragment)} (h : (p.record s trace).result = .ok answer) :
    ∃ steps, Trace.load trace = .ok steps ∧ ∀ e ∈ p.files.entries, Takes s trace e := by
  unfold record at h
  cases hload : Trace.load trace with
  | error fault =>
    rw [hload] at h
    cases h
  | ok steps =>
    have hwent := went_recordFiles s hload (List.nil_append p.files.entries).symm
    rw [hload] at h
    unfold Went at hwent
    rw [h] at hwent
    exact ⟨steps, rfl, hwent.1⟩

/-- A trace with integer depths that is accepted is accepted whether or not files without code are
left out, and does the same to the project. -/
theorem record_withSkips {s : Settings} {p : Project} {trace : Value} (hrooted : p.IsRooted)
    (hdepths : HasDepths trace) {answer : List (String × Fragment)}
    (h : (p.record s trace).result = .ok answer) (skip : Bool) :
    (∃ answer', (p.record (s.withSkips skip) trace).result = .ok answer') ∧
      (p.record (s.withSkips skip) trace).state = (p.record s trace).state := by
  obtain ⟨steps, hload, htakes⟩ := takes_of_accepted h
  have htakes' : ∀ e ∈ p.files.entries, Takes (s.withSkips skip) trace e := by
    intro e he
    right
    rcases htakes e he with hskipped | htaken
    · exact FileCoverage.result_of_isInterface (Bool.and_eq_true_iff.1 hskipped).2 _ hload hdepths
    · exact htaken
  obtain ⟨answer', hanswer'⟩ := accepted_of_takes hload htakes'
  refine ⟨⟨answer', hanswer'⟩, ext_files ?_⟩
  rw [entries_record hrooted h, entries_record hrooted hanswer']
  rfl

/-- A run of calls is accepted whether or not files without code are left out, call by call, and
leads to the same project. -/
theorem run_withSkips {p q : Project} (hrooted : p.IsRooted) {calls : List Call}
    (honce : ∀ c ∈ calls, c.NamesOnce) (hdepths : ∀ c ∈ calls, c.HasDepths)
    {answers : List (List (String × Fragment))} (h : p.run calls = .ok (q, answers))
    {skips : List Bool} (hskips : skips.length = calls.length) :
    ∃ answers', p.run (List.zipWith Call.withSkips skips calls) = .ok (q, answers') := by
  induction calls generalizing p answers skips with
  | nil =>
    rw [List.zipWith_nil_right]
    exact ⟨_, h⟩
  | cons c calls ih =>
    obtain ⟨skip, skips, rfl⟩ : ∃ skip rest, skips = skip :: rest :=
      List.exists_cons_of_length_eq_add_one hskips
    obtain ⟨hc, hcalls⟩ := List.forall_mem_cons.1 honce
    obtain ⟨hd, hds⟩ := List.forall_mem_cons.1 hdepths
    have hlength : skips.length = calls.length := Nat.succ.inj hskips
    rw [List.zipWith_cons_cons]
    cases c with
    | ingest s output =>
      simp only [run, bind_eq_ok_iff] at h
      obtain ⟨⟨⟩, hingest, hrun⟩ := h
      have hnext : (p.ingest s output).state.IsRooted :=
        isRooted_of_after hrooted (ownActions · [.ingest s output])
          (entries_ingest hc hingest)
      obtain ⟨answers', hrun'⟩ := ih hnext hcalls hds hrun hlength
      refine ⟨answers', ?_⟩
      simp only [Call.withSkips, run, ingest_withSkips, hingest, ok_bind, hrun']
    | record s trace =>
      simp only [run, bind_eq_ok_iff] at h
      obtain ⟨answer, hrecord, ⟨q', rest⟩, hrun, h⟩ := h
      cases h
      have hnext : (p.record s trace).state.IsRooted :=
        isRooted_of_after hrooted (ownActions · [.record s trace])
          (entries_record hrooted hrecord)
      obtain ⟨⟨answer', hanswer'⟩, hstate⟩ := record_withSkips hrooted hd hrecord skip
      obtain ⟨answers', hrun'⟩ := ih hnext hcalls hds hrun hlength
      refine ⟨answer' :: answers', ?_⟩
      simp only [Call.withSkips, run, hanswer', hstate, ok_bind, hrun']
      rfl

theorem namesOnce_withSkips {calls : List Call} (h : ∀ c ∈ calls, c.NamesOnce)
    (skips : List Bool) : ∀ c ∈ List.zipWith Call.withSkips skips calls, c.NamesOnce := by
  induction calls generalizing skips with
  | nil =>
    rw [List.zipWith_nil_right]
    exact h
  | cons c calls ih =>
    obtain ⟨hc, hcalls⟩ := List.forall_mem_cons.1 h
    cases skips with
    | nil => exact fun _ hmem => absurd hmem List.not_mem_nil
    | cons skip skips =>
      rw [List.zipWith_cons_cons]
      refine List.forall_mem_cons.2 ⟨?_, ih hcalls skips⟩
      cases c with
      | ingest s output => exact hc
      | record s trace => trivial

/-! ### The product -/

/-- A project that is loaded from files is rooted. -/
theorem isRooted_load {w : Workspace} {paths : List String} {base : Option String} {p : Project}
    (h : load w paths base = .ok p) : p.IsRooted := by
  have hadd : ∀ (paths : List String) (p q : Project), p.IsRooted →
      paths.foldlM (addFile w base) p = .ok q → q.IsRooted := by
    intro paths
    induction paths with
    | nil =>
      intro p q hp h
      cases h
      exact hp
    | cons path paths ih =>
      intro p q hp h
      rw [List.foldlM_cons, bind_eq_ok_iff] at h
      obtain ⟨p', hp', h⟩ := h
      refine ih p' q ?_ h
      unfold addFile at hp'
      cases htext : w.readText path with
      | error fault =>
        rw [htext] at hp'
        cases hp'
      | ok text =>
        rw [htext] at hp'
        cases hp'
        have hnew := FileCoverage.isRooted_new (w.nameOf base path) path text none
        exact KeyedList.forall_entries_update (P := fun _ (file : FileCoverage) => file.IsRooted) hp
          hnew fun _ _ _ => hnew
  exact hadd paths {} p (fun e he => absurd he List.not_mem_nil) h

/-- A project after a run of calls is the product of its files on their own. -/
structure IsProduct (p q : Project) (calls : List Call)
    (answers : List (List (String × Fragment))) : Prop where
  /-- Every file is the file on its own after its slices of the outputs and all traces. -/
  files : q.files.entries =
    p.files.entries.map fun e => (e.1, e.2.after (ownActions e.1 calls))
  /-- The answers to the traces are the totals of the files on their own, of those that are not left
  out. -/
  answers : answers = totals p.files.entries calls
  /-- The report has the totals of the files that are not left out. -/
  report : ∀ s, (q.report s).result = (reported s q.files.entries).mapM fun e =>
    (e.2.coverage.report.map fun report => (e.1, report)).mapError Fault.shape
  /-- Whatever is left out at any point of the run, it is accepted and leads to the same project. -/
  skips : (∀ c ∈ calls, c.HasDepths) → ∀ skips : List Bool, skips.length = calls.length →
    p.run (List.zipWith Call.withSkips skips calls) =
      .ok (q, totals p.files.entries (List.zipWith Call.withSkips skips calls))

/-- **A project is the product of its files.** After any run of calls in which none fails, every file
is what it would be on its own after its slices of the outputs and all traces, also those for which
it was left out as a file without code. Leaving files out only takes names out of answers and
reports. -/
theorem run_product {p q : Project} (hrooted : p.IsRooted) {calls : List Call}
    (honce : ∀ c ∈ calls, c.NamesOnce) {answers : List (List (String × Fragment))}
    (h : p.run calls = .ok (q, answers)) : IsProduct p q calls answers where
  files := (run_of_accepted hrooted honce h).1
  answers := (run_of_accepted hrooted honce h).2
  report s := result_report s q
  skips hdepths skips hskips := by
    obtain ⟨answers', hrun⟩ := run_withSkips hrooted honce hdepths h hskips
    rw [hrun, (run_of_accepted hrooted (namesOnce_withSkips honce skips) hrun).2]

/-- A file with a contract and a file with an interface. -/
def mainAndFace : Project where
  files := (KeyedList.empty.insert "Main.sol" (.new "Main.sol" "Main.sol" "main;")).insert "Face.sol"
    (.new "Face.sol" "Face.sol" "face;")

/-- The output of a contract whose code runs a text. -/
def contractOf (code : String) : Value :=
  .object [("evm", .object [("bytecode", .object [("object", .text "")]),
    ("deployedBytecode", .object [("object", .text code), ("sourceMap", .text "0:4:0")])])]

/-- The output for both files. The interface has no code. -/
def mainAndFaceOutput : Value :=
  .object
    [("contracts", .object [("Main.sol", .object [("Main", contractOf "00")]),
      ("Face.sol", .object [("Face", contractOf "")])])]

/-- A trace for which the interface is left out, and the same trace for which it is not. -/
def mainAndFaceCalls : List Call :=
  [.ingest {} mainAndFaceOutput, .record {} (callOf [0]),
    .record { skipInterfaces := false } (callOf [0])]

/-- The interface appears in the second answer only. -/
theorem run_product_face :
    ∃ q answers, mainAndFace.run mainAndFaceCalls = .ok (q, answers) ∧
      IsProduct mainAndFace q mainAndFaceCalls answers ∧
      answers.map (·.map (·.1)) = [["Main.sol"], ["Main.sol", "Face.sol"]] := by
  have hrooted : mainAndFace.IsRooted := by
    unfold IsRooted FileCoverage.IsRooted
    decide +kernel
  have honce : ∀ c ∈ mainAndFaceCalls, c.NamesOnce := by
    intro c hc
    rcases List.mem_cons.1 hc with rfl | hc
    · exact ⟨by decide, by decide⟩
    · simp only [List.mem_cons, List.not_mem_nil, or_false] at hc
      rcases hc with rfl | rfl <;> trivial
  have hnames : (mainAndFace.run mainAndFaceCalls).toOption.map (·.2.map (·.map (·.1))) =
      some [["Main.sol"], ["Main.sol", "Face.sol"]] := by
    decide +kernel
  cases hrun : mainAndFace.run mainAndFaceCalls with
  | error fault =>
    rw [hrun] at hnames
    cases hnames
  | ok found =>
    rw [hrun] at hnames
    exact ⟨found.1, found.2, rfl, run_product hrooted honce hrun, Option.some.inj hnames⟩

end Project

end ContractCoverage
