import ContractCoverage.Proofs.File.Recording

/-! Recording many traces, in any order.

Every trace adds to the total what it would add to an empty total (`alone`), and is
refused for the reason for which it would be refused if it came first. So the counters
after a list of traces are a sum (`counts_recordAll`), the marks a union, and
`recordAll_perm` says that the order of the list does not show: not in the counters,
not in the places, not in the marks, and not in which traces are refused. -/
namespace ContractCoverage.FileCoverage
open Replay

/-- Records traces one after the other; one that is refused does not end the recording. -/
def recordAll (s : Settings) (file : FileCoverage) : List Value → FileCoverage
  | [] => file
  | trace :: traces => recordAll s (file.record s trace).state traces

/-- The traces with the faults for which they are refused when recorded one after the other. -/
def verdicts (s : Settings) (file : FileCoverage) : List Value → List (Value × Option Fault)
  | [] => []
  | trace :: traces =>
    (trace, (file.record s trace).fault?) :: verdicts s (file.record s trace).state traces

/-- The total that a trace alone makes of an empty one. -/
def alone (s : Settings) (file : FileCoverage) (trace : Value) : Fragment :=
  (({ file with coverage := {} } : FileCoverage).record s trace).state.coverage

/-! ### One trace after others -/

section Ground
variable {file file' : FileCoverage} (h : file.ground = file'.ground)
include h

theorem gain_congr (s : Settings) : file.gain s = file'.gain s := by
  funext trace
  unfold gain
  rw [addition_congr h]

theorem verdicts_of_ground (s : Settings) (traces : List Value) :
    file'.verdicts s traces = traces.map fun trace => (trace, (file.record s trace).fault?) := by
  induction traces generalizing file' with
  | nil => rfl
  | cons trace traces ih =>
    rw [verdicts, ih (h.trans (ground_record s file' trace).symm), List.map_cons, fault?_congr h]

end Ground

/-- Each trace is refused for the reason for which it is refused when it comes first. -/
theorem verdicts_eq (s : Settings) (file : FileCoverage) (traces : List Value) :
    file.verdicts s traces = traces.map fun trace => (trace, (file.record s trace).fault?) :=
  verdicts_of_ground rfl s traces

theorem counts_alone (s : Settings) (file : FileCoverage) (trace : Value) (k : Ident) :
    (file.alone s trace).counts k = (file.gain s trace).counts k := by
  have hgain : ({ file with coverage := {} } : FileCoverage).gain s = file.gain s :=
    gain_congr (ground_withoutTotal file) s
  rw [alone, record_state]
  show (totalAfter _ _).counts k = _
  rw [counts_totalAfter, hgain]
  exact zero_add _

/-! ### All traces -/

/-- The counters after traces are those before and those that each trace adds. -/
theorem counts_recordAll (s : Settings) (file : FileCoverage) (traces : List Value) (k : Ident) :
    (file.recordAll s traces).coverage.counts k =
      file.coverage.counts k + (traces.map fun trace => (file.gain s trace).counts k).sum := by
  induction traces generalizing file with
  | nil => exact (add_zero _).symm
  | cons trace traces ih =>
    have hstep : (file.record s trace).state.coverage.counts k =
        file.coverage.counts k + (file.gain s trace).counts k := by
      rw [record_state]
      exact counts_totalAfter s file trace k
    rw [recordAll, ih, hstep, gain_congr (ground_record s file trace), List.map_cons,
      List.sum_cons, add_assoc]

theorem samePlaces_recordAll (s : Settings) (file : FileCoverage) (traces : List Value) :
    (file.recordAll s traces).coverage.SamePlaces file.coverage := by
  induction traces generalizing file with
  | nil => exact .refl _
  | cons trace traces ih =>
    refine (ih (file.record s trace).state).trans ?_
    rw [record_state]
    exact samePlaces_totalAfter s file trace

/-- The marks after traces are those that each trace leaves. -/
theorem tables_recordAll (s : Settings) (file : FileCoverage) (traces : List Value) :
    (file.recordAll s traces).tables =
      file.tables.map fun t =>
        traces.foldl (fun t trace => markAll (file.passages s trace) t) t := by
  induction traces generalizing file with
  | nil => simp [recordAll]
  | cons trace traces ih =>
    have hmarks : ∀ trace', markAll ((file.record s trace).state.passages s trace') =
        markAll (file.passages s trace') := markAll_congr (ground_record s file trace) s
    have htables : (file.record s trace).state.tables =
        file.tables.map (markAll (file.passages s trace)) := by rw [record_state]
    rw [recordAll, ih]
    simp only [hmarks, htables, Option.map_map, List.foldl_cons, Function.comp_def]

/-- **The order of traces does not matter.** Recording them in another order gives the same
counters, places and marks, refuses the same traces for the same reasons, and the counters are
those before merged with the sum of what each trace makes of an empty total. -/
theorem recordAll_perm (s : Settings) (file : FileCoverage) {traces traces' : List Value}
    (h : traces.Perm traces') :
    (file.recordAll s traces).coverage.SameCounts (file.recordAll s traces').coverage ∧
      (file.recordAll s traces).coverage.SamePlaces (file.recordAll s traces').coverage ∧
      (file.recordAll s traces).tables = (file.recordAll s traces').tables ∧
      file.verdicts s traces = traces.map (fun trace => (trace, (file.record s trace).fault?)) ∧
      file.verdicts s traces' = traces'.map (fun trace => (trace, (file.record s trace).fault?)) ∧
      (file.recordAll s traces).coverage.SameCounts
        (file.coverage.merge ((traces.map (file.alone s)).foldl Fragment.merge {})) := by
  refine ⟨?_, ?_, ?_, verdicts_eq s file traces, verdicts_eq s file traces', ?_⟩
  · intro k
    rw [counts_recordAll, counts_recordAll]
    exact congrArg _ (h.map _).sum_eq
  · exact (samePlaces_recordAll s file traces).trans (samePlaces_recordAll s file traces').symm
  · rw [tables_recordAll, tables_recordAll]
    congr 1
    funext t
    exact h.foldl_eq' (fun a _ b _ t => markAll_comm ..) t
  · intro k
    rw [counts_recordAll, Fragment.counts_merge, Fragment.counts_foldl_merge, List.map_map]
    simp only [Function.comp_def, counts_alone]
    exact congrArg _ (zero_add _).symm

/-- Two traces and one that cannot be read, in two orders. -/
theorem recordAll_perm_pair :
    [callOf [0, 1, 2, 0], .null, callOf [2]].Perm [callOf [2], callOf [0, 1, 2, 0], .null] ∧
      (pair.recordAll {} [callOf [0, 1, 2, 0], .null, callOf [2]]).coverage.SameCounts
        (pair.recordAll {} [callOf [2], callOf [0, 1, 2, 0], .null]).coverage ∧
      (pair.recordAll {} [callOf [0, 1, 2, 0], .null, callOf [2]]).coverage.statements.get?
        (.ofInt 1) = some 2 := by
  have hperm : [callOf [0, 1, 2, 0], .null, callOf [2]].Perm
      [callOf [2], callOf [0, 1, 2, 0], .null] := by
    show ([callOf [0, 1, 2, 0], .null] ++ [callOf [2]]).Perm ([callOf [2]] ++ _)
    exact List.perm_append_comm
  exact ⟨hperm, (recordAll_perm {} pair hperm).1, by decide +kernel⟩

end ContractCoverage.FileCoverage
