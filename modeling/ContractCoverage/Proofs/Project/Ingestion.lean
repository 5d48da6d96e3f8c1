import ContractCoverage.Project.Ingest
import ContractCoverage.Proofs.Data.Chain
import ContractCoverage.Proofs.Data.Repeated
import ContractCoverage.Proofs.File.Recording

/-! The output of a project, file by file.

A file takes in its own part of the output, its slice, as it would without the other
files: `entries_of_ingestFiles` gives every file after the output from that file before
it, whatever became of the others and in whatever order they came. The files that refuse
their slices are collected, each once and in the order of their names, and named in the
one fault with which the step ends (`ingest_isolated`). -/
namespace ContractCoverage

namespace Project

/-! ### Slices -/

/-- The names of files in some contracts and source entries: those with contracts, then those with a
source entry only. -/
def namesOf (contracts sources : List (String × Value)) : List String :=
  contracts.map (·.1) ++ (sources.map (·.1)).filter (· ∉ contracts.map (·.1))

/-- The contracts and the source entry of a file. What is missing says nothing. -/
def sliceOf (contracts sources : List (String × Value)) (name : String) : Value × Value :=
  ((contracts.lookup name).getD (.object []), (sources.lookup name).getD .null)

/-- The contracts and the source entries of the compiler's output, by file. There are none when one of
the parts is not an object. -/
def parts (output : Value) : List (String × Value) × List (String × Value) :=
  match outputPart output "contracts", outputPart output "sources" with
  | .ok (.object contracts), .ok (.object sources) => (contracts, sources)
  | _, _ => ([], [])

/-- The names of files in the compiler's output. -/
def fileNames (output : Value) : List String := namesOf (parts output).1 (parts output).2

/-- The part of the compiler's output that is for a file, when the output names the file. -/
def slice? (output : Value) (name : String) : Option (Value × Value) :=
  if name ∈ fileNames output then some (sliceOf (parts output).1 (parts output).2 name) else none

/-- The contracts and the source entries each name a file once, as the fields of an object do. -/
structure NamesOnce (output : Value) : Prop where
  contracts : ((parts output).1.map (·.1)).Nodup
  sources : ((parts output).2.map (·.1)).Nodup

theorem mem_namesOf {contracts sources : List (String × Value)} {name : String} :
    name ∈ namesOf contracts sources ↔
      name ∈ contracts.map (·.1) ∨ name ∈ sources.map (·.1) := by
  by_cases h : name ∈ contracts.map (·.1)
  · simp only [namesOf, List.mem_append, h, true_or]
  · simp only [namesOf, List.mem_append, List.mem_filter, h, not_false_eq_true, decide_true,
      and_true, false_or]

theorem nodup_fileNames {output : Value} (h : NamesOnce output) : (fileNames output).Nodup := by
  refine List.nodup_append.2 ⟨h.contracts, h.sources.filter _, ?_⟩
  rintro a ha b hb rfl
  exact of_decide_eq_true (List.mem_filter.1 hb).2 ha

/-- A field of an object that names each field once is found under its name. -/
theorem lookup_eq_some_iff {fields : List (String × Value)} (h : (fields.map (·.1)).Nodup)
    {name : String} {v : Value} : fields.lookup name = some v ↔ (name, v) ∈ fields := by
  induction fields with
  | nil => simp only [List.lookup_nil, List.not_mem_nil, reduceCtorEq]
  | cons e fields ih =>
    obtain ⟨a, u⟩ := e
    obtain ⟨ha, hrest⟩ := List.nodup_cons.1 h
    by_cases hname : name = a
    · have hnew : ∀ w, (name, w) ∉ fields := fun w hw =>
        ha (hname ▸ List.mem_map_of_mem (f := (·.1)) hw)
      simp only [hname, List.lookup_cons_self, Option.some.injEq, List.mem_cons, Prod.mk.injEq,
        true_and, hname ▸ hnew v, or_false, eq_comm]
    · have hne : (name == a) = false := by simpa using hname
      simp only [List.lookup_cons, hne, List.mem_cons, Prod.mk.injEq, hname, false_and, false_or,
        ih hrest]

theorem lookup_perm {fields fields' : List (String × Value)} (h : (fields.map (·.1)).Nodup)
    (h' : (fields'.map (·.1)).Nodup) (hperm : fields.Perm fields') (name : String) :
    fields.lookup name = fields'.lookup name := by
  apply Option.ext
  intro v
  rw [lookup_eq_some_iff h, lookup_eq_some_iff h', hperm.mem_iff]

/-- Which slice a file gets does not depend on the order of the names. -/
theorem slice?_perm {output output' : Value} (h : NamesOnce output) (h' : NamesOnce output')
    (hcontracts : (parts output).1.Perm (parts output').1)
    (hsources : (parts output).2.Perm (parts output').2) (name : String) :
    slice? output' name = slice? output name := by
  have hnamed : name ∈ fileNames output' ↔ name ∈ fileNames output := by
    rw [fileNames, fileNames, mem_namesOf, mem_namesOf, (hcontracts.map _).mem_iff,
      (hsources.map _).mem_iff]
  rw [slice?, slice?, sliceOf, sliceOf, lookup_perm h.contracts h'.contracts hcontracts,
    lookup_perm h.sources h'.sources hsources]
  simp only [hnamed]

/-- Whether a name is none of those of contracts. -/
def isFresh (contracts : List (String × Value)) : Value → Bool
  | .text name => decide (name ∉ contracts.map (·.1))
  | _ => false

/-- The names in an output are those of its contracts and source entries. -/
theorem outputNames_objects (contracts sources : List (String × Value)) :
    outputNames (.object contracts) (.object sources) =
      .ok ((namesOf contracts sources).map .text) := by
  have hnew : ∀ name : String, (contracts.any (·.1 == name)) =
      decide (name ∈ contracts.map (·.1)) := fun name => by
    rw [Bool.eq_iff_iff, List.any_eq_true, decide_eq_true_iff, List.mem_map]
    simp only [beq_iff_eq]
  have hfilter : (sources.map fun e => Value.text e.1).filterM (fun name =>
      ((Value.object contracts).contains name).map (!·)) =
        .ok (((sources.map (·.1)).filter (· ∉ contracts.map (·.1))).map Value.text) := by
    rw [filterM_eq_filter (q := isFresh contracts)]
    · simp only [List.filter_map, List.map_map]
      rfl
    · intro name hname
      obtain ⟨e, -, rfl⟩ := List.mem_map.1 hname
      simp only [Value.contains, hnew, map_ok, isFresh, decide_not]
  simp only [outputNames, Value.elements, ok_bind, hfilter, namesOf, List.map_append, List.map_map]
  rfl

/-- The contracts and the source entries of the compiler's output are given by file. -/
def IsReadable (output : Value) : Prop :=
  ∃ contracts sources, outputPart output "contracts" = .ok (.object contracts) ∧
    outputPart output "sources" = .ok (.object sources)

theorem readOutput_of_isReadable {output : Value} (h : IsReadable output) :
    readOutput output = .ok (.object (parts output).1, .object (parts output).2,
      (fileNames output).map .text) := by
  obtain ⟨contracts, sources, hcontracts, hsources⟩ := h
  simp only [readOutput, fileNames, parts, hcontracts, hsources, ok_bind, outputNames_objects]
  rfl

/-- Output of another form has no part for any file. -/
theorem parts_of_not_isReadable {output : Value} (h : ¬ IsReadable output) :
    parts output = ([], []) := by
  unfold parts
  split
  · next hcontracts hsources => exact absurd ⟨_, _, hcontracts, hsources⟩ h
  · rfl

theorem filePart_of_not_isReadable {output : Value} (h : ¬ IsReadable output)
    {contracts sources : Value} {names : List Value}
    (hread : readOutput output = .ok (contracts, sources, names)) (name : String) :
    ∃ fault, filePart contracts sources name = .error fault := by
  simp only [readOutput, bind_eq_ok_iff] at hread
  obtain ⟨c, hcontracts, src, hsources, _, -, hread⟩ := hread
  cases hread
  cases contracts with
  | object fields =>
    cases sources with
    | object entries => exact absurd ⟨_, _, hcontracts, hsources⟩ h
    | _ => exact ⟨_, rfl⟩
  | _ => exact ⟨_, rfl⟩

/-! ### One file after the other -/

section Files
variable (s : Settings) (contracts sources : List (String × Value))

/-- A file takes in its slice of the output. -/
def takeSlice (name : String) (file : FileCoverage) : Outcome FileCoverage Unit :=
  file.ingest s (sliceOf contracts sources name).1 (sliceOf contracts sources name).2

/-- A project of which one file has taken in its slice. A slice that is refused leaves the file as it
was. -/
def takeIn (p : Project) (name : String) : Project :=
  { p with files := p.files.adjust name fun file => (takeSlice s contracts sources name file).state }

/-- The fault for which a file of the project refuses its slice. -/
def faultIn (p : Project) (name : String) : Option Fault :=
  (p.files.get? name).bind fun file => (takeSlice s contracts sources name file).fault?

/-- A file with the fault of compiler output for which it refuses its slice. -/
def failureIn (p : Project) (name : String) : Option (String × CompilerFault) :=
  ((faultIn s contracts sources p name).bind Fault.compiler?).map (name, ·)

/-- Output that is refused leaves a file as it was. -/
theorem state_of_refused {s : Settings} {file : FileCoverage} {part source : Value} {fault : Fault}
    (h : (file.ingest s part source).result = .error fault) :
    (file.ingest s part source).state = file := by
  unfold FileCoverage.ingest at h ⊢
  dsimp only at h ⊢
  split
  · next hr =>
    rw [hr] at h
    cases h
  · rfl

variable {s contracts sources}

/-- The output of one file does one of two things: it ends the step with a fault that is none of
compiler output, or it does to the file what it would do on its own, and the other files go on. -/
theorem ingestFiles_cons (p : Project) (name : String) (rest : List Value) :
    (∃ fault, faultIn s contracts sources p name = some fault ∧ fault.compiler? = none ∧
      (ingestFiles s (.object contracts) (.object sources) p (.text name :: rest)).result =
        .error fault) ∨
    (∀ fault ∈ faultIn s contracts sources p name, fault.compiler?.isSome) ∧
      (ingestFiles s (.object contracts) (.object sources) p (.text name :: rest)).state =
        (ingestFiles s (.object contracts) (.object sources) (takeIn s contracts sources p name)
          rest).state ∧
      (ingestFiles s (.object contracts) (.object sources) p (.text name :: rest)).result =
        (ingestFiles s (.object contracts) (.object sources) (takeIn s contracts sources p name)
          rest).result.map ((failureIn s contracts sources p name).toList ++ ·) := by
  have hmap : ∀ x : Except Fault (List (String × CompilerFault)), x = x.map ([] ++ ·) := by
    intro x
    cases x <;> rfl
  cases hget : p.files.get? name with
  | none =>
    have hsame : takeIn s contracts sources p name = p := by
      rw [takeIn, KeyedList.adjust_of_get?_none hget]
    have hfault : faultIn s contracts sources p name = none := by
      rw [faultIn, hget]
      rfl
    right
    rw [failureIn, hfault, hsame, ingestFiles, tracked?, hget]
    exact ⟨fun _ h => (Option.not_mem_none _ h).elim, rfl, hmap _⟩
  | some file =>
    have hpart : filePart (.object contracts) (.object sources) name =
        .ok ((sliceOf contracts sources name).1, (sliceOf contracts sources name).2) := rfl
    have hfault : faultIn s contracts sources p name =
        (takeSlice s contracts sources name file).fault? := by
      rw [faultIn, hget]
      rfl
    have htaken : takeIn s contracts sources p name = { p with
        files := p.files.insert name (takeSlice s contracts sources name file).state } := by
      rw [takeIn, KeyedList.adjust_of_get?_some hget]
    rw [failureIn, hfault, htaken, ingestFiles, tracked?, hget]
    simp only [Option.map_some, hpart]
    rw [← takeSlice]
    cases hr : (takeSlice s contracts sources name file).result with
    | ok _ =>
      right
      rw [Outcome.fault?, hr]
      exact ⟨fun _ h => (Option.not_mem_none _ h).elim, rfl, hmap _⟩
    | error fault =>
      have hsame : p.files.insert name (takeSlice s contracts sources name file).state =
          p.files := by
        rw [takeSlice, state_of_refused hr]
        exact KeyedList.update_eq_self hget rfl
      rw [Outcome.fault?, hr, hsame]
      cases fault with
      | compiler cause => exact .inr ⟨by rintro _ ⟨⟩; rfl, rfl, rfl⟩
      | _ => exact .inl ⟨_, rfl, rfl, rfl⟩

/-- What a file does with its slice does not depend on the other files. -/
theorem faultIn_takeIn {p : Project} {name other : String} (h : other ≠ name) :
    faultIn s contracts sources (takeIn s contracts sources p name) other =
      faultIn s contracts sources p other := by
  rw [faultIn, takeIn, KeyedList.get?_adjust_of_ne (by simpa using h), faultIn]

theorem filterMap_failureIn_takeIn {p : Project} {name : String} {names : List String}
    (h : name ∉ names) :
    names.filterMap (failureIn s contracts sources (takeIn s contracts sources p name)) =
      names.filterMap (failureIn s contracts sources p) := by
  apply List.filterMap_congr
  intro other hother
  rw [failureIn, faultIn_takeIn (ne_of_mem_of_not_mem hother h), failureIn]

/-- What the output of files that are named once makes of them and which of them fail, when no fault
ends the step. -/
theorem ingestFiles_run {p : Project} {names : List String} (hnames : names.Nodup)
    {failed : List (String × CompilerFault)}
    (h : (ingestFiles s (.object contracts) (.object sources) p (names.map .text)).result =
      .ok failed) :
    (ingestFiles s (.object contracts) (.object sources) p (names.map .text)).state =
        names.foldl (takeIn s contracts sources) p ∧
      failed = names.filterMap (failureIn s contracts sources p) := by
  induction names generalizing p failed with
  | nil =>
    cases h
    exact ⟨rfl, rfl⟩
  | cons name names ih =>
    obtain ⟨hname, hrest⟩ := List.nodup_cons.1 hnames
    rw [List.map_cons] at h ⊢
    rcases ingestFiles_cons p name (names.map .text) with
      ⟨fault, -, -, hended⟩ | ⟨-, hstate, hresult⟩
    · rw [hended] at h
      cases h
    · cases hr : (ingestFiles s (.object contracts) (.object sources)
          (takeIn s contracts sources p name) (names.map .text)).result with
      | error fault =>
        rw [hresult, hr] at h
        cases h
      | ok others =>
        rw [hresult, hr] at h
        cases h
        obtain ⟨hothers, hfailed⟩ := ih hrest hr
        refine ⟨hstate.trans hothers, ?_⟩
        rw [hfailed, filterMap_failureIn_takeIn hname, List.filterMap_cons]
        cases failureIn s contracts sources p name <;> rfl

/-- Files that refuse their slices only for faults of compiler output do not end the step. -/
theorem ingestFiles_ends {p : Project} {names : List String} (hnames : names.Nodup)
    (h : ∀ name ∈ names, ∀ fault ∈ faultIn s contracts sources p name, fault.compiler?.isSome) :
    ∃ failed, (ingestFiles s (.object contracts) (.object sources) p (names.map .text)).result =
      .ok failed := by
  induction names generalizing p with
  | nil => exact ⟨[], rfl⟩
  | cons name names ih =>
    obtain ⟨hname, hrest⟩ := List.nodup_cons.1 hnames
    obtain ⟨hhead, htail⟩ := List.forall_mem_cons.1 h
    rcases ingestFiles_cons p name (names.map .text) with
      ⟨fault, hfault, hnone, -⟩ | ⟨-, -, hresult⟩
    · have hsome := hhead fault hfault
      rw [hnone] at hsome
      cases hsome
    · obtain ⟨failed, hfailed⟩ := ih (p := takeIn s contracts sources p name) hrest
        fun other hother => by
          rw [faultIn_takeIn (ne_of_mem_of_not_mem hother hname)]
          exact htail other hother
      rw [List.map_cons, hresult, hfailed]
      exact ⟨_, rfl⟩

/-- Files that take in their slices one after the other have each taken in its own. -/
theorem entries_foldl_takeIn {p : Project} {names : List String} (hnames : names.Nodup) :
    (names.foldl (takeIn s contracts sources) p).files.entries =
      p.files.entries.map fun e => (e.1,
        if e.1 ∈ names then (takeSlice s contracts sources e.1 e.2).state else e.2) := by
  induction names generalizing p with
  | nil =>
    simp only [List.foldl_nil, List.not_mem_nil, if_false]
    exact (List.map_id' _).symm
  | cons name names ih =>
    obtain ⟨hname, hrest⟩ := List.nodup_cons.1 hnames
    have htaken : (takeIn s contracts sources p name).files.entries =
        p.files.entries.map fun e => (e.1, if e.1 == name then
          (takeSlice s contracts sources name e.2).state else e.2) := rfl
    rw [List.foldl_cons, ih hrest, htaken, List.map_map]
    apply List.map_congr_left
    rintro ⟨a, file⟩ -
    by_cases ha : a = name
    · cases ha
      simp only [Function.comp_apply, BEq.rfl, if_true, hname, if_false, List.mem_cons_self]
    · have hne : (a == name) = false := by simpa using ha
      simp only [Function.comp_apply, hne, Bool.false_eq_true, if_false, List.mem_cons, ha, false_or]

end Files

/-! ### Output without parts -/

/-- Output that has no part for any file leaves the project as it was, and no file is blamed for
it. -/
theorem ingestFiles_unread (s : Settings) {contracts sources : Value} (p : Project)
    (h : ∀ name, ∃ fault, filePart contracts sources name = .error fault) (names : List Value) :
    (ingestFiles s contracts sources p names).state = p ∧
      ∀ answer, (ingestFiles s contracts sources p names).result = answer →
        answer = .ok [] ∨ ∃ fault, answer = .error (.shape fault) := by
  induction names with
  | nil => exact ⟨rfl, fun _ h => .inl h.symm⟩
  | cons name names ih =>
    rw [ingestFiles]
    split
    · exact ⟨rfl, fun _ h => .inr ⟨_, h.symm⟩⟩
    · split
      · exact ⟨rfl, fun _ h => .inr ⟨_, h.symm⟩⟩
      · exact ih
    · next name file _ =>
      obtain ⟨fault, hfault⟩ := h name
      rw [hfault]
      exact ⟨rfl, fun _ h => .inr ⟨_, h.symm⟩⟩

/-! ### The whole output -/

/-- A file after the output, on its own. One that the output does not name stays as it is. -/
def alone (s : Settings) (output : Value) (e : String × FileCoverage) : FileCoverage :=
  match slice? output e.1 with
  | some part => (e.2.ingest s part.1 part.2).state
  | none => e.2

/-- The fault for which a file refuses its slice of the output, on its own. -/
def refusal? (s : Settings) (output : Value) (p : Project) (name : String) : Option Fault :=
  (p.files.get? name).bind fun file =>
    (slice? output name).bind fun part => (file.ingest s part.1 part.2).fault?

theorem ext_files {p q : Project} (h : p.files.entries = q.files.entries) : p = q := by
  obtain ⟨files⟩ := p
  obtain ⟨files'⟩ := q
  exact congrArg Project.mk (KeyedList.ext_entries h)

section Output
variable {s : Settings} {output : Value} {p : Project}

/-- The fault with which a step ends, given the files that failed. -/
def answerOf : List (String × CompilerFault) → Except Fault Unit
  | [] => .ok ()
  | failed => .error (.unusable failed)

theorem ingest_of_isReadable (h : IsReadable output) {failed : List (String × CompilerFault)}
    (hended : (ingestFiles s (.object (parts output).1) (.object (parts output).2) p
      ((fileNames output).map .text)).result = .ok failed) :
    (p.ingest s output).state = (ingestFiles s (.object (parts output).1)
        (.object (parts output).2) p ((fileNames output).map .text)).state ∧
      (p.ingest s output).result = answerOf failed := by
  rw [ingest, readOutput_of_isReadable h]
  refine ⟨rfl, ?_⟩
  simp only [hended]
  cases failed <;> rfl

theorem ingest_of_not_isReadable (s : Settings) (p : Project) (h : ¬ IsReadable output) :
    (p.ingest s output).state = p ∧
      ∀ failed, (p.ingest s output).result ≠ .error (.unusable failed) := by
  rw [ingest]
  cases hread : readOutput output with
  | error fault => exact ⟨rfl, fun _ h => by cases h⟩
  | ok found =>
    obtain ⟨contracts, sources, names⟩ := found
    obtain ⟨hstate, hanswer⟩ :=
      ingestFiles_unread s p (filePart_of_not_isReadable h hread) names
    refine ⟨hstate, fun failed => ?_⟩
    rcases hanswer _ rfl with hresult | ⟨fault, hresult⟩ <;>
    · simp only [hresult]
      exact fun h => by cases h

theorem refusal?_of_mem {name : String} (h : name ∈ fileNames output) :
    refusal? s output p name = faultIn s (parts output).1 (parts output).2 p name := by
  unfold refusal? faultIn
  rw [slice?, if_pos h]
  rfl

theorem mem_of_refusal? {name : String} {fault : Fault} (h : refusal? s output p name = some fault) :
    name ∈ p.files.keys ∧ name ∈ fileNames output := by
  obtain ⟨file, hfile, h⟩ := Option.bind_eq_some_iff.1 h
  obtain ⟨part, hpart, -⟩ := Option.bind_eq_some_iff.1 h
  refine ⟨KeyedList.mem_keys_of_get? hfile, ?_⟩
  by_contra hnone
  rw [slice?, if_neg hnone] at hpart
  cases hpart

/-- Every file after output that did not end the step comes from that file before it alone. -/
theorem entries_of_ingestFiles (hreadable : IsReadable output) (honce : NamesOnce output)
    {failed : List (String × CompilerFault)}
    (hended : (ingestFiles s (.object (parts output).1) (.object (parts output).2) p
      ((fileNames output).map .text)).result = .ok failed) :
    (p.ingest s output).state.files.entries =
      p.files.entries.map fun e => (e.1, alone s output e) := by
  rw [(ingest_of_isReadable hreadable hended).1,
    (ingestFiles_run (nodup_fileNames honce) hended).1, entries_foldl_takeIn (nodup_fileNames honce)]
  apply List.map_congr_left
  intro e _
  rw [alone, slice?]
  by_cases he : e.1 ∈ fileNames output
  · rw [if_pos he, if_pos he]
    rfl
  · rw [if_neg he, if_neg he]

/-- Output that has no part for any file does to each of them what it does to it alone: nothing. -/
theorem entries_of_unread (h : ¬ IsReadable output) :
    (p.ingest s output).state.files.entries =
      p.files.entries.map fun e => (e.1, alone s output e) := by
  have hnone : ∀ name, slice? output name = none := fun name => by
    simp only [slice?, fileNames, parts_of_not_isReadable h, namesOf, List.map_nil, List.filter_nil,
      List.append_nil, List.not_mem_nil, if_false]
  simp only [(ingest_of_not_isReadable s p h).1, alone, hnone]
  exact (List.map_id' _).symm

/-- Output that a project accepts does to every file what it does to it alone. -/
theorem entries_of_accepted (honce : NamesOnce output) (h : (p.ingest s output).result = .ok ()) :
    (p.ingest s output).state.files.entries =
      p.files.entries.map fun e => (e.1, alone s output e) := by
  by_cases hreadable : IsReadable output
  · rw [ingest, readOutput_of_isReadable hreadable] at h
    dsimp only at h
    split at h
    · cases h
    · next hended => exact entries_of_ingestFiles hreadable honce hended
    · cases h
  · exact entries_of_unread hreadable

theorem failureIn_eq_some {contracts sources : List (String × Value)} {name : String}
    {failure : String × CompilerFault}
    (h : failureIn s contracts sources p name = some failure) :
    failure.1 = name ∧ faultIn s contracts sources p name = some (.compiler failure.2) := by
  obtain ⟨cause, hcause, rfl⟩ := Option.map_eq_some_iff.1 h
  obtain ⟨fault, hfault, hcompiler⟩ := Option.bind_eq_some_iff.1 hcause
  cases fault with
  | compiler _ =>
    cases hcompiler
    exact ⟨rfl, hfault⟩
  | _ => cases hcompiler

/-- Every file takes in its slice of the output or refuses it for a fault of compiler output. -/
def OnlyCompilerFaults (s : Settings) (output : Value) (p : Project) : Prop :=
  ∀ name ∈ p.files.keys, ∀ fault ∈ refusal? s output p name, fault.compiler?.isSome

theorem ended_of_only (honce : NamesOnce output) (hown : OnlyCompilerFaults s output p) :
    ∃ failed, (ingestFiles s (.object (parts output).1) (.object (parts output).2) p
      ((fileNames output).map .text)).result = .ok failed := by
  apply ingestFiles_ends (nodup_fileNames honce)
  intro name hname fault hfault
  rw [← refusal?_of_mem hname] at hfault
  exact hown name (mem_of_refusal? hfault).1 fault hfault

/-- Every file after the output comes from that file before it alone. -/
theorem entries_of_only (honce : NamesOnce output) (hown : OnlyCompilerFaults s output p) :
    (p.ingest s output).state.files.entries =
      p.files.entries.map fun e => (e.1, alone s output e) := by
  by_cases hreadable : IsReadable output
  · obtain ⟨failed, hended⟩ := ended_of_only honce hown
    exact entries_of_ingestFiles hreadable honce hended
  · exact entries_of_unread hreadable

/-- The files that refuse their slices for faults of compiler output, with their faults. -/
def failures (s : Settings) (output : Value) (p : Project) : List (String × CompilerFault) :=
  (fileNames output).filterMap (failureIn s (parts output).1 (parts output).2 p)

/-- The failed files are those that refuse their slices. -/
theorem names_of_failures (hown : OnlyCompilerFaults s output p) :
    (failures s output p).map (·.1) =
      (fileNames output).filter fun name => (refusal? s output p name).isSome := by
  rw [failures, List.map_filterMap, ← List.filterMap_eq_filter]
  apply List.filterMap_congr
  intro name hname
  rw [Option.guard]
  cases hrefusal : refusal? s output p name with
  | none =>
    rw [failureIn, ← refusal?_of_mem hname, hrefusal]
    rfl
  | some fault =>
    obtain ⟨cause, hcause⟩ := Option.isSome_iff_exists.1
      (hown name (mem_of_refusal? hrefusal).1 fault hrefusal)
    rw [failureIn, ← refusal?_of_mem hname, hrefusal, Option.bind_some, hcause]
    rfl

/-- What an error that names files has to say: the files that refused their slices, those with
contracts first, each once and with its own fault. -/
structure Blames (s : Settings) (output : Value) (p : Project)
    (failed : List (String × CompilerFault)) : Prop where
  names : failed.map (·.1) =
    (fileNames output).filter fun name => (refusal? s output p name).isSome
  once : (failed.map (·.1)).Nodup
  own : ∀ failure ∈ failed, refusal? s output p failure.1 = some (.compiler failure.2)
  message : (Fault.unusable failed).message = "Could not ingest compiler output for " ++
    String.intercalate ", " (failed.map fun failure => s!"{failure.1} ({failure.2.message})")

theorem blames_failures (honce : NamesOnce output) (hown : OnlyCompilerFaults s output p) :
    Blames s output p (failures s output p) where
  names := names_of_failures hown
  once := by
    rw [names_of_failures hown]
    exact (nodup_fileNames honce).filter _
  own failure hfailure := by
    obtain ⟨name, hname, hfailed⟩ := List.mem_filterMap.1 hfailure
    obtain ⟨rfl, hfault⟩ := failureIn_eq_some hfailed
    rw [refusal?_of_mem hname, hfault]
  message := rfl

/-- Output with parts ends with the files that failed. -/
theorem result_of_only (hreadable : IsReadable output) (honce : NamesOnce output)
    (hown : OnlyCompilerFaults s output p) :
    (p.ingest s output).result = answerOf (failures s output p) := by
  obtain ⟨failed, hended⟩ := ended_of_only honce hown
  rw [(ingest_of_isReadable hreadable hended).2, failures,
    (ingestFiles_run (nodup_fileNames honce) hended).2]

/-- Output that a file refuses has parts. -/
theorem isReadable_of_refusal? {name : String} {fault : Fault}
    (h : refusal? s output p name = some fault) : IsReadable output := by
  have hname := (mem_of_refusal? h).2
  by_contra hnot
  rw [fileNames, parts_of_not_isReadable hnot] at hname
  cases hname

theorem answerOf_eq_unusable {failed failed' : List (String × CompilerFault)} :
    answerOf failed = .error (.unusable failed') ↔ failed = failed' ∧ failed ≠ [] := by
  cases failed with
  | nil => simp only [answerOf, reduceCtorEq, ne_eq, not_true_eq_false, and_false]
  | cons failure failed =>
    simp only [answerOf, Except.error.injEq, Fault.unusable.injEq, ne_eq, reduceCtorEq,
      not_false_eq_true, and_true]

/-- The files that an error names are those that failed, and there are some. -/
theorem failures_of_unusable (honce : NamesOnce output) (hown : OnlyCompilerFaults s output p)
    {failed : List (String × CompilerFault)}
    (h : (p.ingest s output).result = .error (.unusable failed)) :
    failures s output p = failed ∧ failures s output p ≠ [] := by
  by_cases hreadable : IsReadable output
  · rw [result_of_only hreadable honce hown] at h
    exact answerOf_eq_unusable.1 h
  · exact absurd h ((ingest_of_not_isReadable s p hreadable).2 failed)

theorem unusable_iff (honce : NamesOnce output) (hown : OnlyCompilerFaults s output p) :
    (∃ failed, (p.ingest s output).result = .error (.unusable failed)) ↔
      ∃ name, (refusal? s output p name).isSome := by
  have hblames := blames_failures honce hown
  constructor
  · rintro ⟨failed, hfailed⟩
    obtain ⟨failure, hfailure⟩ :=
      List.exists_mem_of_ne_nil _ (failures_of_unusable honce hown hfailed).2
    refine ⟨failure.1, ?_⟩
    rw [hblames.own failure hfailure]
    rfl
  · rintro ⟨name, hname⟩
    obtain ⟨fault, hfault⟩ := Option.isSome_iff_exists.1 hname
    refine ⟨failures s output p, ?_⟩
    rw [result_of_only (isReadable_of_refusal? hfault) honce hown, answerOf_eq_unusable]
    refine ⟨rfl, fun hnone => ?_⟩
    have hnames := hblames.names
    rw [hnone, List.map_nil, eq_comm, List.filter_eq_nil_iff] at hnames
    exact hnames name (mem_of_refusal? hfault).2 hname

/-- What taking in output makes of a project. Each file is made of itself and its own slice; those
that refuse their slices are blamed, and no others. -/
structure Isolated (s : Settings) (output : Value) (p : Project) (out : Outcome Project Unit) :
    Prop where
  /-- The project has the files that it had. -/
  files : out.state.files.keys = p.files.keys
  /-- A file that takes in its slice is as that leaves it. -/
  taken : ∀ e ∈ p.files.entries, ∀ part ∈ slice? output e.1,
    (e.2.ingest s part.1 part.2).result = .ok () →
      out.state.files.get? e.1 = some (e.2.ingest s part.1 part.2).state
  /-- A file that refuses its slice is as it was. -/
  refused : ∀ e ∈ p.files.entries, ∀ part ∈ slice? output e.1,
    ∀ fault, (e.2.ingest s part.1 part.2).result = .error fault →
      out.state.files.get? e.1 = some e.2
  /-- A file without a slice is as it was. -/
  unnamed : ∀ e ∈ p.files.entries, slice? output e.1 = none → out.state.files.get? e.1 = some e.2
  /-- The order of the names does not matter to any file. -/
  order : ∀ output', NamesOnce output' → (parts output).1.Perm (parts output').1 →
    (parts output).2.Perm (parts output').2 → (p.ingest s output').state = out.state
  /-- The step blames files exactly when one has refused its slice. -/
  blames : (∃ failed, out.result = .error (.unusable failed)) ↔
    ∃ name, (refusal? s output p name).isSome
  blamed : ∀ failed, out.result = .error (.unusable failed) → Blames s output p failed
  /-- Otherwise it succeeds, when the output has its parts. -/
  succeeds : IsReadable output → (∀ name, refusal? s output p name = none) → out.result = .ok ()

/-- **The files of a project are isolated.** When every file either takes in its slice of the output
or refuses it for a fault of compiler output, no file is touched by what becomes of another, and
those that fail are reported together. -/
theorem ingest_isolated (honce : NamesOnce output) (hown : OnlyCompilerFaults s output p) :
    Isolated s output p (p.ingest s output) := by
  have hentries := entries_of_only honce hown
  have hfile : ∀ e ∈ p.files.entries,
      (p.ingest s output).state.files.get? e.1 = some (alone s output e) := by
    intro e he
    apply KeyedList.get?_of_mem (e := (e.1, alone s output e))
    rw [hentries]
    exact List.mem_map_of_mem he
  refine ⟨?_, ?_, ?_, ?_, ?_, unusable_iff honce hown, ?_, ?_⟩
  · rw [KeyedList.keys, hentries, List.map_map]
    rfl
  · intro e he part hpart _
    rw [hfile e he, alone, hpart]
  · intro e he part hpart fault hrefused
    rw [hfile e he, alone, hpart]
    exact congrArg some (state_of_refused hrefused)
  · intro e he hnone
    rw [hfile e he, alone, hnone]
  · intro output' honce' hcontracts hsources
    have hslice := slice?_perm honce honce' hcontracts hsources
    have hown' : OnlyCompilerFaults s output' p := by
      simp only [OnlyCompilerFaults, refusal?, hslice]
      exact hown
    apply ext_files
    rw [hentries, entries_of_only honce' hown']
    simp only [alone, hslice]
  · intro failed hfailed
    rw [← (failures_of_unusable honce hown hfailed).1]
    exact blames_failures honce hown
  · intro hreadable hnone
    have hnames := names_of_failures hown
    simp only [hnone, Option.isSome_none, List.filter_false, List.map_eq_nil_iff] at hnames
    rw [result_of_only hreadable honce hown, hnames]
    rfl

/-- A file without code, and one that has a contract without a code. -/
def mixed : Project where
  files := (KeyedList.empty.insert "Bad.sol" (.new "Bad.sol" "Bad.sol" "bad;")).insert "Good.sol"
    (.new "Good.sol" "Good.sol" "good;")

/-- Contracts of three files, of which the project does not have the second, and a source entry of
the last. -/
def mixedOutput : Value :=
  .object
    [("contracts", .object [("Bad.sol", .object [("Bare", .object [])]),
      ("Other.sol", .object []), ("Good.sol", .object [])]),
      ("sources", .object [("Good.sol", .object [("id", .int 7)])])]

/-- The contract without a code is blamed, and the good file has its number. -/
theorem ingest_isolated_mixed :
    Isolated {} mixedOutput mixed (mixed.ingest {} mixedOutput) ∧
      (mixed.ingest {} mixedOutput).fault? =
        some (.unusable [("Bad.sol", .noCode "Bare" .creation)]) ∧
      ((mixed.ingest {} mixedOutput).state.files.get? "Good.sol").bind (·.sourceId.int?) =
        some 7 := by
  have honce : NamesOnce mixedOutput := ⟨by decide, by decide⟩
  have hown : OnlyCompilerFaults {} mixedOutput mixed := by
    unfold OnlyCompilerFaults
    decide +kernel
  refine ⟨ingest_isolated honce hown, ?_, ?_⟩ <;> decide +kernel

end Output

end Project

end ContractCoverage
