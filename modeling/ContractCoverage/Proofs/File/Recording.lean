import ContractCoverage.Proofs.Coverage.Counts
import ContractCoverage.Proofs.File.Marks

/-! What recording a trace does to a file.

A trace leaves marks in the tables (`passages`) and adds something to the total, unless
it is refused (`addition`): `record_state` and `record_result` say that recording is
these two and nothing else. Both are read off the ground of the file, which is the file
without its marks and without its total, and recording leaves the ground as it is
(`ground_record`). So a trace does the same to a file whatever has been recorded
before. -/
namespace ContractCoverage

/-- The fault that ended a step. -/
def Outcome.fault? {σ α : Type} (o : Outcome σ α) : Option Fault :=
  match o.result with
  | .ok _ => none
  | .error fault => some fault

theorem Outcome.fault?_eq_some {σ α : Type} {o : Outcome σ α} {fault : Fault} :
    o.fault? = some fault ↔ o.result = .error fault := by
  unfold fault?
  cases o.result <;> simp

/-- The frames of a trace as the tracer writes it. -/
def Trace.frames (trace : Value) : Except Fault (List Frame) :=
  match Trace.load trace with
  | .error fault => .error fault
  | .ok steps => (Frame.ofSteps steps).mapError .shape

theorem Trace.frames_of_load {trace : Value} {steps : List Step} {frames : List Frame}
    (hload : Trace.load trace = .ok steps) (hframes : Frame.ofSteps steps = .ok frames) :
    Trace.frames trace = .ok frames := by
  rw [Trace.frames, hload]
  simp only [hframes]
  rfl

namespace Replay

/-- Leaves the marks of passages one after the other. -/
def markAll (passages : List Passage) (t : Tables) : Tables :=
  passages.foldl (fun t p => p.mark t) t

/-- Passages leave the same marks however they are seen. -/
theorem markAll_outlined (o : Outline) (passages : List Passage) :
    markAll (passages.map o.passage) = markAll passages := by
  funext t
  simp only [markAll, List.foldl_map, Outline.mark_passage]

/-- Passages leave their marks before the listings are looked at or afterwards. -/
theorem tables_markAll {o : Outline} (h : o.KeepsMarks) (passages : List Passage) (t : Tables) :
    o.tables (markAll passages t) = markAll passages (o.tables t) := by
  induction passages generalizing t with
  | nil => rfl
  | cons p passages ih =>
    show o.tables (markAll passages (p.mark t)) = _
    rw [ih, h.tables_mark]
    rfl

/-- What passages do to the codes of one contract. -/
theorem get?_markAll (passages : List Passage) (t : Tables) (contract : String) :
    (markAll passages t).get? contract = (t.get? contract).map
      (·.mark fun part address => passages.any (·.marks part contract address)) := by
  induction passages generalizing t with
  | nil => simp [markAll, Artifact.mark_none]
  | cons p passages ih =>
    show (markAll passages (p.mark t)).get? contract = _
    simp only [ih, get?_mark, Option.map_map, Function.comp_def, Artifact.mark_mark, List.any_cons]

theorem unmarked_markAll (passages : List Passage) (t : Tables) :
    (markAll passages t).unmarked = t.unmarked := by
  induction passages generalizing t with
  | nil => rfl
  | cons p passages ih => exact (ih (p.mark t)).trans (unmarked_mark p t)

theorem mark_markAll (p : Passage) (passages : List Passage) (t : Tables) :
    p.mark (markAll passages t) = markAll passages (p.mark t) := by
  induction passages generalizing t with
  | nil => rfl
  | cons q passages ih =>
    show p.mark (markAll passages (q.mark t)) = markAll passages (q.mark (p.mark t))
    rw [ih, mark_comm]

theorem markAll_comm (ps qs : List Passage) (t : Tables) :
    markAll ps (markAll qs t) = markAll qs (markAll ps t) := by
  induction ps generalizing t with
  | nil => rfl
  | cons p ps ih =>
    show markAll ps (p.mark (markAll qs t)) = markAll qs (markAll ps (p.mark t))
    rw [mark_markAll, ih]

end Replay

namespace FileCoverage
open Replay

/-- The passages of a trace through a file, up to a frame that cannot be followed. -/
def passages (s : Settings) (file : FileCoverage) (trace : Value) : List Passage :=
  match file.tables, Trace.frames trace with
  | some tables, .ok frames => (frames.takeWhile (isPassable s tables)).map (follow s tables)
  | _, _ => []

/-- Why a trace cannot be followed through a file to its end. -/
def refusal? (s : Settings) (file : FileCoverage) (trace : Value) : Option Fault :=
  match file.tables, Trace.frames trace with
  | none, _ => some .notIngested
  | some _, .error fault => some fault
  | some tables, .ok frames => (frames.findSome? (obstacle? s tables)).map .shape

/-- The passages of a trace through the listings of a file. -/
theorem passages_of_tables {file : FileCoverage} {tables : Tables} (h : file.tables = some tables)
    (s : Settings) (trace : Value) :
    file.passages s trace = match Trace.frames trace with
      | .ok frames => (frames.takeWhile (isPassable s tables)).map (follow s tables)
      | .error _ => [] := by
  unfold passages
  rw [h]
  cases Trace.frames trace <;> rfl

theorem refusal?_of_tables {file : FileCoverage} {tables : Tables} (h : file.tables = some tables)
    (s : Settings) (trace : Value) :
    file.refusal? s trace = match Trace.frames trace with
      | .ok frames => (frames.findSome? (obstacle? s tables)).map .shape
      | .error fault => some fault := by
  unfold refusal?
  rw [h]
  cases Trace.frames trace <;> rfl

/-- What a trace adds to the total of a file, or why it is refused. -/
def addition (s : Settings) (file : FileCoverage) (trace : Value) : Except Fault Fragment :=
  match file.refusal? s trace with
  | some fault => .error fault
  | none => increment file (file.passages s trace)

/-- The total after an addition; one that is refused adds nothing. -/
def totalAfter (file : FileCoverage) : Except Fault Fragment → Fragment
  | .ok added => file.coverage.merge added
  | .error _ => file.coverage

/-- Recording, by the marks and the addition of a trace. -/
theorem record_outcome (s : Settings) (file : FileCoverage) (trace : Value) :
    (file.record s trace).state =
        { file with
          tables := file.tables.map (markAll (file.passages s trace))
          coverage := file.totalAfter (file.addition s trace) } ∧
      (file.record s trace).result = (file.addition s trace).map file.coverage.merge := by
  obtain ⟨name, path, text, sourceId, tables, resolver, coverage⟩ := file
  cases tables with
  | none => exact ⟨rfl, rfl⟩
  | some tables =>
    simp only [record, isIngested, Option.isSome_some, addition, refusal?, passages, Trace.frames]
    cases Trace.load trace with
    | error fault => exact ⟨rfl, rfl⟩
    | ok steps =>
      simp only [recordSteps]
      cases Frame.ofSteps steps with
      | error fault => exact ⟨rfl, rfl⟩
      | ok frames =>
        simp only [Except.mapError, replay]
        cases frames.findSome? (obstacle? s tables) with
        | some fault => exact ⟨rfl, rfl⟩
        | none =>
          simp only [Option.map_none]
          split
          · next he =>
            rw [he]
            exact ⟨rfl, rfl⟩
          · next he =>
            rw [he]
            exact ⟨rfl, rfl⟩

/-- A trace leaves marks and adds to the total, and changes nothing else. -/
theorem record_state (s : Settings) (file : FileCoverage) (trace : Value) :
    (file.record s trace).state =
      { file with
        tables := file.tables.map (markAll (file.passages s trace))
        coverage := file.totalAfter (file.addition s trace) } :=
  (record_outcome s file trace).1

/-- The answer is the new total. -/
theorem record_result (s : Settings) (file : FileCoverage) (trace : Value) :
    (file.record s trace).result = (file.addition s trace).map file.coverage.merge :=
  (record_outcome s file trace).2

theorem result_of_refusal? {s : Settings} {file : FileCoverage} {trace : Value} {fault : Fault}
    (hr : file.refusal? s trace = some fault) : (file.record s trace).result = .error fault := by
  rw [record_result, addition, hr]
  rfl

/-- A trace that is refused adds nothing to the total. -/
theorem coverage_of_refused {s : Settings} {file : FileCoverage} {trace : Value} {fault : Fault}
    (h : (file.record s trace).result = .error fault) :
    (file.record s trace).state.coverage = file.coverage := by
  rw [record_result] at h
  rw [record_state]
  cases ha : file.addition s trace with
  | error _ => rfl
  | ok added =>
    rw [ha] at h
    cases h

/-- Steps are recorded as the trace that they are read from. -/
theorem record_eq_recordSteps (s : Settings) (file : FileCoverage) {trace : Value}
    {steps : List Step} (h : Trace.load trace = .ok steps) :
    file.record s trace = file.recordSteps s steps := by
  unfold record
  rw [h]
  cases ht : file.tables with
  | none => simp only [isIngested, ht, recordSteps, Option.isSome_none]
  | some tables => simp only [isIngested, ht, Option.isSome_some]

/-! ### Files through an outline -/

/-- A file with its listings in outline. -/
def outlined (o : Outline) (file : FileCoverage) : FileCoverage :=
  { file with tables := file.tables.map o.tables }

section Outline
variable (o : Outline) (s : Settings) (file : FileCoverage) (trace : Value)

theorem passages_outlined :
    (file.outlined o).passages s trace = (file.passages s trace).map o.passage := by
  simp only [passages, outlined]
  cases file.tables with
  | none => rfl
  | some tables =>
    cases Trace.frames trace with
    | error fault => rfl
    | ok frames =>
      simp only [Option.map_some, Outline.isPassable_tables, List.map_map]
      congr 1
      funext f
      exact o.follow_tables s tables f

theorem refusal?_outlined : (file.outlined o).refusal? s trace = file.refusal? s trace := by
  simp only [refusal?, outlined]
  cases file.tables with
  | none => rfl
  | some tables =>
    cases Trace.frames trace with
    | error fault => rfl
    | ok frames =>
      have hobstacle : obstacle? s (o.tables tables) = obstacle? s tables := by
        funext f
        exact o.obstacle?_tables s tables f
      simp only [Option.map_some, hobstacle]

/-- A trace adds the same in outline, when every entry counts for the same there. -/
theorem addition_outlined (h : ∀ e, file.targetsOf (o.entry e) = file.targetsOf e) :
    (file.outlined o).addition s trace = file.addition s trace := by
  have hincrement : increment (file.outlined o) ((file.outlined o).passages s trace) =
      increment file (file.passages s trace) := by
    rw [passages_outlined]
    exact o.increment_passages h (file.passages s trace)
  rw [addition, addition, hincrement, refusal?_outlined]

end Outline

/-- A file with its listings as they are seen. -/
def view (v : View) (file : FileCoverage) : FileCoverage :=
  { file with tables := file.tables.map v.tables }

section View
variable (v : View) (s : Settings) (file : FileCoverage) (trace : Value)

theorem passages_view : (file.view v).passages s trace = (file.passages s trace).map v.passage :=
  passages_outlined v.outline s file trace

/-- A trace adds the same however the listings are seen. -/
theorem addition_view : (file.view v).addition s trace = file.addition s trace :=
  addition_outlined v.outline s file trace (v.targetsOf_entry file)

end View

/-! ### The ground of a file -/

/-- A file without its marks and its total. -/
def ground (file : FileCoverage) : FileCoverage :=
  { file with tables := file.tables.map Tables.unmarked, coverage := {} }

theorem passages_ground (s : Settings) (file : FileCoverage) (trace : Value) :
    file.ground.passages s trace = (file.passages s trace).map Passage.unmarked :=
  passages_view .unmarked s file trace

theorem addition_ground (s : Settings) (file : FileCoverage) (trace : Value) :
    file.ground.addition s trace = file.addition s trace :=
  addition_view .unmarked s file trace

/-- Recording leaves the ground as it is. -/
theorem ground_record (s : Settings) (file : FileCoverage) (trace : Value) :
    (file.record s trace).state.ground = file.ground := by
  rw [record_state]
  cases h : file.tables with
  | none => simp [ground, h]
  | some tables => simp [ground, h, unmarked_markAll]

theorem ground_withoutTotal (file : FileCoverage) :
    ({ file with coverage := {} } : FileCoverage).ground = file.ground := rfl

section Congruence
variable {file file' : FileCoverage} (h : file.ground = file'.ground)
include h

theorem addition_congr (s : Settings) (trace : Value) :
    file.addition s trace = file'.addition s trace := by
  rw [← addition_ground, h, addition_ground]

theorem markAll_congr (s : Settings) (trace : Value) :
    markAll (file.passages s trace) = markAll (file'.passages s trace) := by
  have hmarks : ∀ f : FileCoverage, markAll (f.ground.passages s trace) =
      markAll (f.passages s trace) := fun f => by
    rw [passages_ground]
    exact markAll_outlined View.unmarked.outline (f.passages s trace)
  rw [← hmarks, h, hmarks]

theorem fault?_congr (s : Settings) (trace : Value) :
    (file.record s trace).fault? = (file'.record s trace).fault? := by
  simp only [Outcome.fault?, record_result, addition_congr h]
  cases file'.addition s trace <;> rfl

end Congruence

/-! ### What an addition is made of -/

/-- What a trace adds to the total; nothing when it is refused. -/
def gain (s : Settings) (file : FileCoverage) (trace : Value) : Fragment :=
  match file.addition s trace with
  | .ok added => added
  | .error _ => {}

theorem counts_totalAfter (s : Settings) (file : FileCoverage) (trace : Value) (k : Ident) :
    (file.totalAfter (file.addition s trace)).counts k =
      file.coverage.counts k + (file.gain s trace).counts k := by
  unfold gain totalAfter
  cases file.addition s trace with
  | ok added => exact Fragment.counts_merge ..
  | error fault => exact (add_zero _).symm

theorem samePlaces_totalAfter (s : Settings) (file : FileCoverage) (trace : Value) :
    (file.totalAfter (file.addition s trace)).SamePlaces file.coverage := by
  cases ha : file.addition s trace with
  | error fault => exact .refl _
  | ok added =>
    have hplaces : added.SamePlaces {} := by
      unfold addition at ha
      split at ha
      · cases ha
      · exact (Fragment.samePlaces_hitAll ha).trans ⟨rfl, rfl, rfl⟩
    exact Fragment.samePlaces_merge _ hplaces

/-! ### A file of two statements -/

/-- The first statement of the file. -/
def firstRange : Range := { offset := some 0, length := some 4, fileId := some 0 }

/-- The second statement of the file. -/
def secondRange : Range := { offset := some 4, length := some 4, fileId := some 0 }

/-- The statements of the file. -/
def twoStatements : RangeTable :=
  ((RangeTable.empty.add (.statement (.ofInt 1) (.range firstRange))).1.add
    (.statement (.ofInt 2) (.range secondRange))).1

/-- A contract of three instructions, two of the first statement and one of the second. -/
def pair : FileCoverage where
  name := "Pair.sol"
  path := "Pair.sol"
  text := "one;two;"
  tables := some (KeyedList.empty.insert "Pair" ⟨⟨[], []⟩,
    .ofBytes ['5', 'b', '5', 'b', '0', '0'] [0x5b, 0x5b, 0]
      [firstRange, firstRange, secondRange]⟩)
  resolver := .given twoStatements

/-- A trace of instructions, all in one call. -/
def callOf (counters : List Int) : Value :=
  .list (counters.map fun pc => .object [("pc", .int pc), ("depth", .int 1)])

end FileCoverage

end ContractCoverage
