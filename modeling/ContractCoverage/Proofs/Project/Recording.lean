import ContractCoverage.Project.Ingest
import ContractCoverage.Proofs.File.Order

/-! Recording in a project, file by file.

Files record a trace one after the other, and the first that refuses it ends the
recording. What has been recorded before stays: `record_refused` says which files have
recorded the trace then and which have not. So a trace that is recorded again, when the
refusal has been dealt with, counts twice in the files that come before (`Interrupted`). -/
namespace ContractCoverage

namespace FileCoverage

theorem isInterface_ground (file : FileCoverage) : file.ground.isInterface = file.isInterface := by
  unfold isInterface ground
  cases file.tables with
  | none => rfl
  | some tables =>
    have hempty : (fun table : Table => table.listing.isEmpty) ∘ Table.unmarked =
        fun table => table.listing.isEmpty := by
      funext table
      exact Listing.isEmpty_unmarked table.listing
    simp only [Option.map_some, Tables.inOrder_unmarked, List.all_map, hempty]

end FileCoverage

namespace Project
open FileCoverage (callOf)

/-! ### Files in turn -/

/-- A file of a project after a trace. One that is left out stays as it is. -/
def recorded (s : Settings) (trace : Value) (e : String × FileCoverage) : String × FileCoverage :=
  (e.1, if isSkipped s e.2 then e.2 else (e.2.record s trace).state)

theorem recorded_of_reported (s : Settings) (trace : Value) {e : String × FileCoverage}
    (h : isSkipped s e.2 = false) : recorded s trace e = (e.1, (e.2.record s trace).state) := by
  rw [recorded, h]
  rfl

/-- A file takes a trace, or is left out. -/
def Takes (s : Settings) (trace : Value) (e : String × FileCoverage) : Prop :=
  isSkipped s e.2 = true ∨ ∃ total, (e.2.record s trace).result = .ok total

/-- The first of some files that refuses a trace. -/
structure FirstRefusal (s : Settings) (trace : Value) (fault : Fault)
    (files before : List (String × FileCoverage)) (refuser : String × FileCoverage)
    (after : List (String × FileCoverage)) : Prop where
  files : files = before ++ refuser :: after
  taken : ∀ e ∈ before, Takes s trace e
  reported : isSkipped s refuser.2 = false
  refused : (refuser.2.record s trace).result = .error fault

theorem FirstRefusal.cons {s : Settings} {trace : Value} {fault : Fault}
    {files before after : List (String × FileCoverage)} {refuser e : String × FileCoverage}
    (h : FirstRefusal s trace fault files before refuser after) (he : Takes s trace e) :
    FirstRefusal s trace fault (e :: files) (e :: before) refuser after :=
  ⟨congrArg _ h.files, List.forall_mem_cons.2 ⟨he, h.taken⟩, h.reported, h.refused⟩

/-- What recording a trace in files makes of a project that has `done` before them: all of them have
recorded it, or those up to the first that refuses. -/
def Went (s : Settings) (trace : Value) (done files : List (String × FileCoverage))
    (out : Outcome Project (List (String × Fragment))) : Prop :=
  match out.result with
  | .ok _ => (∀ e ∈ files, Takes s trace e) ∧
      out.state.files.entries = done ++ files.map (recorded s trace)
  | .error fault => ∃ before refuser after, FirstRefusal s trace fault files before refuser after ∧
      out.state.files.entries =
        done ++ (before.map (recorded s trace) ++ recorded s trace refuser :: after)

/-- A file that takes the trace comes before what the others make of the project. -/
theorem Went.cons {s : Settings} {trace : Value} {done files : List (String × FileCoverage)}
    {out out' : Outcome Project (List (String × Fragment))} {e : String × FileCoverage}
    (answer : List (String × Fragment) → List (String × Fragment))
    (h : Went s trace (done ++ [recorded s trace e]) files out) (he : Takes s trace e)
    (hstate : out'.state = out.state) (hresult : out'.result = out.result.map answer) :
    Went s trace done (e :: files) out' := by
  unfold Went at h ⊢
  rw [hstate, hresult]
  cases hr : out.result with
  | ok found =>
    rw [hr] at h
    obtain ⟨htakes, hentries⟩ := h
    refine ⟨List.forall_mem_cons.2 ⟨he, htakes⟩, ?_⟩
    rw [hentries, List.append_assoc]
    rfl
  | error fault =>
    rw [hr] at h
    obtain ⟨before, refuser, after, hfirst, hentries⟩ := h
    refine ⟨e :: before, refuser, after, hfirst.cons he, ?_⟩
    rw [hentries, List.append_assoc]
    rfl

/-- Files record a trace one after the other, up to the first that refuses it. -/
theorem went_recordFiles (s : Settings) {trace : Value} {steps : List Step}
    (hload : Trace.load trace = .ok steps) {p : Project}
    {done files : List (String × FileCoverage)} (h : p.files.entries = done ++ files) :
    Went s trace done files (recordFiles s steps p files) := by
  induction files generalizing p done with
  | nil => exact ⟨fun e he => absurd he List.not_mem_nil, h⟩
  | cons e files ih =>
    obtain ⟨name, file⟩ := e
    have hsteps := FileCoverage.record_eq_recordSteps s file hload
    rw [recordFiles]
    split
    · next hskipped =>
      have hself : recorded s trace (name, file) = (name, file) := by
        rw [recorded, if_pos hskipped]
      have hrest : p.files.entries = (done ++ [recorded s trace (name, file)]) ++ files := by
        rw [h, hself, List.append_assoc]
        rfl
      refine (ih hrest).cons id (.inl hskipped) rfl ?_
      cases (recordFiles s steps p files).result <;> rfl
    · next hreported =>
      have hself : recorded s trace (name, file) = (name, (file.recordSteps s steps).state) := by
        rw [recorded_of_reported s trace (by simpa using hreported), hsteps]
      have hinsert : (p.files.insert name (file.recordSteps s steps).state).entries =
          done ++ recorded s trace (name, file) :: files := by
        rw [hself]
        exact KeyedList.entries_insert_of_mem h _
      simp only
      cases hr : (file.recordSteps s steps).result with
      | error fault =>
        refine ⟨[], (name, file), files, ⟨rfl, fun e he => absurd he List.not_mem_nil, ?_, ?_⟩, ?_⟩
        · simpa using hreported
        · rw [hsteps, hr]
        · exact hinsert
      | ok total =>
        have hrest : (p.files.insert name (file.recordSteps s steps).state).entries =
            (done ++ [recorded s trace (name, file)]) ++ files := by
          rw [hinsert, List.append_assoc]
          rfl
        have htaken : Takes s trace (name, file) := .inr ⟨total, by rw [hsteps, hr]⟩
        exact (ih (p := { p with files := _ }) hrest).cons _ htaken rfl rfl

theorem isSkipped_record (s : Settings) (file : FileCoverage) (trace : Value) :
    isSkipped s (file.record s trace).state = isSkipped s file := by
  rw [isSkipped, isSkipped, ← FileCoverage.isInterface_ground, FileCoverage.ground_record,
    FileCoverage.isInterface_ground]

/-- A trace that all files take is recorded in all of them. -/
theorem entries_of_recorded {s : Settings} {p : Project} {trace : Value}
    {answer : List (String × Fragment)} (h : (p.record s trace).result = .ok answer) :
    (p.record s trace).state.files.entries = p.files.entries.map (recorded s trace) := by
  unfold record at h ⊢
  cases hload : Trace.load trace with
  | error fault =>
    rw [hload] at h
    cases h
  | ok steps =>
    have hwent := went_recordFiles s hload (List.nil_append p.files.entries).symm
    rw [hload] at h
    unfold Went at hwent
    rw [h] at hwent
    exact hwent.2

/-- In a recording that is not refused every file that is not left out counts the trace once. -/
theorem counts_of_recorded {s : Settings} {p : Project} {trace : Value}
    {answer : List (String × Fragment)} (h : (p.record s trace).result = .ok answer)
    {e : String × FileCoverage} (he : e ∈ p.files.entries) (hreported : isSkipped s e.2 = false) :
    ∃ file, (p.record s trace).state.files.get? e.1 = some file ∧
      ∀ k, file.coverage.counts k = e.2.coverage.counts k + (e.2.gain s trace).counts k := by
  have hmem : (e.1, (e.2.record s trace).state) ∈ (p.record s trace).state.files.entries := by
    rw [entries_of_recorded h, ← recorded_of_reported s trace hreported]
    exact List.mem_map_of_mem he
  refine ⟨(e.2.record s trace).state, KeyedList.get?_of_mem hmem, fun k => ?_⟩
  rw [FileCoverage.record_state]
  exact FileCoverage.counts_totalAfter ..

/-! ### After a refusal -/

/-- What a recording leaves of a project when a file refuses the trace. The files before it have
recorded the trace, and count it once more when it is recorded again; those behind it have not. -/
structure Interrupted (s : Settings) (trace : Value) (p left : Project)
    (before : List (String × FileCoverage)) (refuser : String × FileCoverage)
    (after : List (String × FileCoverage)) : Prop where
  files : left.files.entries =
    before.map (recorded s trace) ++ recorded s trace refuser :: after
  refused : (recorded s trace refuser).2.coverage = refuser.2.coverage
  /-- Nothing has happened exactly when the trace does nothing to the files that it reached. -/
  untouched : left = p ↔ ∀ e ∈ before ++ [refuser], recorded s trace e = e
  /-- The files before the refusal count the trace twice when it is recorded again. -/
  twice : ∀ e ∈ before, isSkipped s e.2 = false → ∀ (fixed : Project) (answer),
    (fixed.record s trace).result = .ok answer → recorded s trace e ∈ fixed.files.entries →
    ∃ file, (fixed.record s trace).state.files.get? e.1 = some file ∧ ∀ k,
      file.coverage.counts k =
        e.2.coverage.counts k + ((e.2.gain s trace).counts k + (e.2.gain s trace).counts k)
  /-- The files behind it count the trace once. -/
  once : ∀ e ∈ after, isSkipped s e.2 = false → ∀ (fixed : Project) (answer),
    (fixed.record s trace).result = .ok answer → e ∈ fixed.files.entries →
    ∃ file, (fixed.record s trace).state.files.get? e.1 = some file ∧
      ∀ k, file.coverage.counts k = e.2.coverage.counts k + (e.2.gain s trace).counts k

theorem interrupted_of_entries {s : Settings} {trace : Value} {p left : Project} {fault : Fault}
    {before after : List (String × FileCoverage)} {refuser : String × FileCoverage}
    (hfirst : FirstRefusal s trace fault p.files.entries before refuser after)
    (hentries : left.files.entries =
      before.map (recorded s trace) ++ recorded s trace refuser :: after) :
    Interrupted s trace p left before refuser after where
  files := hentries
  refused := by
    rw [recorded_of_reported s trace hfirst.reported]
    exact FileCoverage.coverage_of_refused hfirst.refused
  untouched := by
    have hmapped : left.files.entries = (before ++ [refuser]).map (recorded s trace) ++ after := by
      rw [hentries, List.map_append, List.append_assoc]
      rfl
    have hbefore : p.files.entries = (before ++ [refuser]) ++ after := by
      rw [hfirst.files, List.append_assoc]
      rfl
    have hsame : left = p ↔ left.files.entries = p.files.entries := by
      refine ⟨fun h => h ▸ rfl, fun h => ?_⟩
      obtain ⟨files⟩ := left
      obtain ⟨files'⟩ := p
      exact congrArg Project.mk (KeyedList.ext_entries h)
    rw [hsame, hmapped, hbefore, List.append_left_inj, ← List.map_inj_left, List.map_id']
  twice e _ hreported fixed answer hfixed hmem := by
    rw [recorded_of_reported s trace hreported] at hmem
    obtain ⟨file, hget, hcounts⟩ :=
      counts_of_recorded hfixed hmem (by rw [isSkipped_record, hreported])
    refine ⟨file, hget, fun k => ?_⟩
    rw [hcounts, FileCoverage.gain_congr (FileCoverage.ground_record s e.2 trace),
      FileCoverage.record_state, FileCoverage.counts_totalAfter, add_assoc]
  once e _ hreported fixed answer hfixed hmem := counts_of_recorded hfixed hmem hreported

/-- **A recording that is refused is not undone.** A trace that cannot be read leaves the project as
it was. Otherwise some file is the first to refuse it, and the files before that one keep what they
have recorded. -/
theorem record_refused (s : Settings) (p : Project) (trace : Value) {fault : Fault}
    (h : (p.record s trace).result = .error fault) :
    (Trace.load trace = .error fault ∧ (p.record s trace).state = p) ∨
      ∃ before refuser after, FirstRefusal s trace fault p.files.entries before refuser after ∧
        Interrupted s trace p (p.record s trace).state before refuser after := by
  unfold record at h ⊢
  cases hload : Trace.load trace with
  | error _ =>
    rw [hload] at h
    cases h
    exact .inl ⟨rfl, rfl⟩
  | ok steps =>
    have hwent := went_recordFiles s hload (List.nil_append p.files.entries).symm
    rw [hload] at h
    unfold Went at hwent
    rw [h] at hwent
    obtain ⟨before, refuser, after, hfirst, hentries⟩ := hwent
    exact .inr ⟨before, refuser, after, hfirst, interrupted_of_entries hfirst hentries⟩

/-- A file with code, and one behind it that no compiler output has come for. -/
def pairAndLate : Project where
  files := (KeyedList.empty.insert "Pair.sol" FileCoverage.pair).insert "Late.sol"
    (.new "Late.sol" "Late.sol" "late;")

/-- The compiler's output for the late file: there is no contract in it. -/
def lateOutput : Value := .object [("contracts", .object [("Late.sol", .object [])])]

/-- Hits of the first statement in the file with code. -/
def firstHits (p : Project) : Option Int :=
  (p.files.get? "Pair.sol").bind (·.coverage.statements.get? (.ofInt 1))

/-- The late file refuses the trace, and the file before it has recorded it. -/
theorem record_refused_late :
    (pairAndLate.record {} (callOf [0, 1, 2, 0])).result = .error .notIngested ∧
      ∃ before refuser after,
        FirstRefusal {} (callOf [0, 1, 2, 0]) .notIngested pairAndLate.files.entries before refuser
          after ∧
        Interrupted {} (callOf [0, 1, 2, 0]) pairAndLate
          (pairAndLate.record {} (callOf [0, 1, 2, 0])).state before refuser after := by
  have hrefused : (pairAndLate.record {} (callOf [0, 1, 2, 0])).result = .error .notIngested :=
    Outcome.fault?_eq_some.1 (by decide +kernel)
  refine ⟨hrefused, ?_⟩
  rcases record_refused {} pairAndLate (callOf [0, 1, 2, 0]) hrefused with
    ⟨hload, -⟩ | hinterrupted
  · cases hload
  · exact hinterrupted

/-- The project with the late file after a refused recording and the late file's output. -/
def completed : Project :=
  ((pairAndLate.record {} (callOf [0, 1, 2, 0])).state.ingest {} lateOutput).state

/-- A refused recording has counted two visits, and once the cause is gone the same trace makes
four of them. -/
theorem not_undone_late :
    (pairAndLate.record {} (callOf [0, 1, 2, 0])).fault? = some .notIngested ∧
      firstHits pairAndLate = none ∧
      firstHits (pairAndLate.record {} (callOf [0, 1, 2, 0])).state = some 2 ∧
      (completed.record {} (callOf [0, 1, 2, 0])).fault? = none ∧
      firstHits (completed.record {} (callOf [0, 1, 2, 0])).state = some 4 := by
  refine ⟨?_, ?_, ?_, ?_, ?_⟩ <;> decide +kernel

end Project

end ContractCoverage
