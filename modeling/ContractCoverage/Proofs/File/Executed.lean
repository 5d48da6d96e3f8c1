import ContractCoverage.File.Instructions
import ContractCoverage.Proofs.File.Numbering
import ContractCoverage.Proofs.File.Relinking
import Mathlib.Data.List.Nodup

/-! Which instructions have been executed.

A step executes an instruction that starts where its program counter points to, and whose
mnemonic is that of the step where the settings ask for it (`Step.Executes`). A trace
executes an instruction of a code when one of its call frames aligns with that code and
has such a step (`Ran`). As no two instructions of a listing start at the same address,
these are the instructions that the trace marks (`any_marks_iff`).

Marks stay until listings of the contract come in anew (`Marks.perform`). So after any
commands of which no trace has been refused, the marked instructions of a listing are those
that some trace has executed since it came in, and the instruction coverage counts them
(`seen_iff_executed`). -/
namespace ContractCoverage

/-! ### Addresses -/

namespace Listing

/-- No two instructions of a listing start at the same address. -/
def Distinct (l : Listing) : Prop := (l.entries.map (·.instruction.address)).Nodup

theorem distinct_ofBytes (code : List Char) (bytes : List UInt8) (ranges : List Range) :
    (ofBytes code bytes ranges).Distinct := by
  have haddresses : (ofBytes code bytes ranges).entries.map (·.instruction.address) =
      (Instruction.walk bytes).map (·.address) := by
    rw [← map_instruction_pair (Instruction.walk bytes) ranges, List.map_map]
    rfl
  rw [Distinct, haddresses]
  exact List.pairwise_map.2 ((Instruction.pairwise_walkFrom 0 bytes).imp Nat.ne_of_lt)

theorem Distinct.eq_of_address {l : Listing} (h : l.Distinct) {e e' : Entry} (he : e ∈ l.entries)
    (he' : e' ∈ l.entries) (haddress : e.instruction.address = e'.instruction.address) : e = e' :=
  List.inj_on_of_nodup_map h he he' haddress

/-- An instruction is found at its address. -/
theorem Distinct.entryAt?_eq_some_iff {l : Listing} (h : l.Distinct) {address : Int} {e : Entry} :
    l.entryAt? address = some e ↔ e ∈ l.entries ∧ (e.instruction.address : Int) = address := by
  have hfound : ∀ {e : Entry}, l.entryAt? address = some e →
      e ∈ l.entries ∧ (e.instruction.address : Int) = address := fun hfind =>
    ⟨List.mem_of_find?_eq_some hfind, by simpa using List.find?_some hfind⟩
  refine ⟨hfound, ?_⟩
  rintro ⟨he, haddress⟩
  have hsome : (l.entryAt? address).isSome = true :=
    List.find?_isSome.2 ⟨e, he, by simpa using haddress⟩
  obtain ⟨first, hfirst⟩ := Option.isSome_iff_exists.1 hsome
  obtain ⟨hmem, hsame⟩ := hfound hfirst
  rw [hfirst, h.eq_of_address hmem he (Int.ofNat.inj (hsame.trans haddress.symm))]

end Listing

/-! ### Steps -/

/-- A step executes an instruction, under some settings. -/
def Step.Executes (s : Settings) (step : Step) (i : Instruction) : Prop :=
  step.pc.int? = some (i.address : Int) ∧
    (s.verifyOpcodes = true → ∀ op, step.op = some op → op = i.mnemonic)

theorem Step.verifies_iff (s : Settings) (step : Step) (i : Instruction) :
    (!s.verifyOpcodes || step.op.all (· == i.mnemonic)) = true ↔
      (s.verifyOpcodes = true → ∀ op, step.op = some op → op = i.mnemonic) := by
  cases step.op <;> cases s.verifyOpcodes <;> simp

/-- A step is matched with the instruction that it executes. -/
theorem Listing.Distinct.match?_eq_some_iff {l : Listing} (h : l.Distinct) {s : Settings}
    {step : Step} {e : Entry} :
    l.match? s step = some e ↔ e ∈ l.entries ∧ step.Executes s e.instruction := by
  rw [match?, Option.filter_eq_some_iff, Step.verifies_iff, entryAtCounter?,
    Option.bind_eq_some_iff]
  simp only [h.entryAt?_eq_some_iff, Step.Executes]
  constructor
  · rintro ⟨⟨address, hpc, he, rfl⟩, hop⟩
    exact ⟨he, hpc, hop⟩
  · rintro ⟨he, hpc, hop⟩
    exact ⟨⟨_, hpc, he, rfl⟩, hop⟩

/-! ### Tables -/

namespace Tables

/-- A listing stands in order exactly when it is one of its contract. -/
theorem mem_inOrder {t : Tables} {table : Table} :
    table ∈ t.inOrder ↔
      ∃ a, t.get? table.contract = some a ∧ table.listing = a.part table.part := by
  have hpart : ∀ part, table ∈ t.ofPart part ↔ table.part = part ∧
      ∃ a, t.get? table.contract = some a ∧ table.listing = a.part part := by
    intro part
    obtain ⟨own, contract, listing⟩ := table
    simp only [ofPart, List.mem_filterMap, Option.map_eq_some_iff, Table.mk.injEq]
    constructor
    · rintro ⟨name, -, a, ha, rfl, rfl, rfl⟩
      exact ⟨rfl, a, ha, rfl⟩
    · rintro ⟨rfl, a, ha, rfl⟩
      have hname : contract ∈ t.keys := KeyedList.mem_keys_of_get? ha
      exact ⟨contract, List.mem_mergeSort.2 hname, a, ha, rfl, rfl, rfl⟩
  rw [inOrder, List.mem_append, hpart, hpart]
  cases table.part <;> simp

end Tables

theorem Frame.mem_of_align {s : Settings} {t : Tables} {f : Frame} {table : Table}
    (h : f.align s t = some table) : table ∈ t.inOrder := by
  have hbest := mem_of_firstBest (Option.filter_eq_some_iff.1 h).1
  exact List.mem_of_mem_filter (List.mem_of_mem_filter hbest)

/-! ### Traces -/

namespace FileCoverage
open Replay

/-- A call frame of a trace aligned with a code and had a step that executed an instruction. -/
def Ran (s : Settings) (file : FileCoverage) (trace : Value) (part : CodePart) (contract : String)
    (i : Instruction) : Prop :=
  ∃ frames, Trace.frames trace = .ok frames ∧ ∃ f ∈ frames,
    file.alignment s f = some (part, contract) ∧ ∃ step ∈ f.steps, step.Executes s i

/-- What a trace does to the codes of one contract. -/
theorem artifact?_marked (s : Settings) (file : FileCoverage) (trace : Value) (contract : String) :
    (file.record s trace).state.artifact? contract = (file.artifact? contract).map
      (·.mark fun part address => (file.passages s trace).any (·.marks part contract address)) := by
  rw [record_state]
  unfold artifact?
  cases file.tables with
  | none => rfl
  | some tables => exact get?_markAll (file.passages s trace) tables contract

/-- A frame marks the instructions of a code that it aligns with and that its steps executed. -/
theorem marks_follow_iff {s : Settings} {t : Tables} {f : Frame} {part : CodePart}
    {contract : String} {artifact : Artifact} (hartifact : t.get? contract = some artifact)
    (hdistinct : (artifact.part part).Distinct) {e : Entry}
    (he : e ∈ (artifact.part part).entries) :
    (follow s t f).marks part contract e.instruction.address = true ↔
      (f.align s t).map (fun table => (table.part, table.contract)) = some (part, contract) ∧
        ∃ step ∈ f.steps, step.Executes s e.instruction := by
  unfold follow
  cases halign : f.align s t with
  | none => simp [Passage.marks]
  | some table =>
    simp only [Passage.marks, Option.any_some, Bool.and_eq_true, beq_iff_eq, Option.map_some,
      Option.some.injEq, Prod.mk.injEq, List.contains_iff_mem]
    refine and_congr_right ?_
    rintro ⟨rfl, rfl⟩
    obtain ⟨found, hfound, hlisting⟩ := Tables.mem_inOrder.1 (Frame.mem_of_align halign)
    obtain rfl : found = artifact := Option.some.inj (hfound.symm.trans hartifact)
    rw [Listing.matches, hlisting]
    simp only [List.mem_map, List.mem_filterMap, hdistinct.match?_eq_some_iff]
    constructor
    · rintro ⟨other, ⟨step, hstep, hother, hexecutes⟩, haddress⟩
      rw [hdistinct.eq_of_address hother he haddress] at hexecutes
      exact ⟨step, hstep, hexecutes⟩
    · rintro ⟨step, hstep, hexecutes⟩
      exact ⟨e, ⟨step, hstep, he, hexecutes⟩, rfl⟩

/-- A trace marks the instructions that it executes. -/
theorem any_marks_iff {s : Settings} {file : FileCoverage} {trace : Value} {part : CodePart}
    {contract : String} {artifact : Artifact} {total : Fragment}
    (hrecorded : (file.record s trace).result = .ok total)
    (hartifact : file.artifact? contract = some artifact)
    (hdistinct : (artifact.part part).Distinct) {e : Entry}
    (he : e ∈ (artifact.part part).entries) :
    (file.passages s trace).any (·.marks part contract e.instruction.address) = true ↔
      file.Ran s trace part contract e.instruction := by
  obtain ⟨tables, frames, htables, hframes, hpassages⟩ :=
    passages_of_refusal? (refusal?_of_record hrecorded)
  have hget : tables.get? contract = some artifact := by
    rw [artifact?, htables] at hartifact
    exact hartifact
  simp only [hpassages, List.any_map, List.any_eq_true, Function.comp_apply,
    marks_follow_iff hget hdistinct he]
  unfold Ran alignment
  rw [htables, hframes]
  constructor
  · rintro ⟨f, hf, halign, hstep⟩
    exact ⟨frames, rfl, f, hf, halign, hstep⟩
  · rintro ⟨_, ⟨⟩, f, hf, halign, hstep⟩
    exact ⟨f, hf, halign, hstep⟩

/-! ### One command -/

/-- In the listings of a file the marked instructions are those of a kind, and no two instructions
of a listing start at the same address. -/
def Marks (file : FileCoverage) (P : CodePart → String → Instruction → Prop) : Prop :=
  ∀ contract artifact, file.artifact? contract = some artifact →
    ∀ part, (artifact.part part).Distinct ∧
      ∀ e ∈ (artifact.part part).entries, e.seen = true ↔ P part contract e.instruction

/-- A listing that has been read has its instructions at different addresses. -/
theorem distinct_of_reads {file : FileCoverage} {sourceId : Value} {contract : String × Value}
    {part : CodePart} {l : Listing} (h : Reads file sourceId contract part l) : l.Distinct := by
  obtain ⟨code, map, whole, -, hwhole, rfl⟩ := h
  have hdistinct : whole.Distinct := by
    unfold Listing.ofText at hwhole
    cases ht : Listing.readTexts code map with
    | error fault =>
      rw [ht] at hwhole
      cases hwhole
    | ok texts =>
      rw [ht] at hwhole
      cases hwhole
      exact Listing.distinct_ofBytes ..
  unfold fit
  split
  · exact hdistinct
  · have haddress : (fun e : Entry => e.instruction.address) ∘ file.fitEntry sourceId =
        fun e => e.instruction.address := by
      funext e
      rw [Function.comp_apply, fitEntry]
      split <;> rfl
    rw [Listing.Distinct, List.map_map, haddress]
    exact hdistinct

/-- An instruction has been executed since its listing came in, after one more command. -/
def ranAfter (file : FileCoverage) (P : CodePart → String → Instruction → Prop) (c : Command)
    (part : CodePart) (contract : String) (i : Instruction) : Prop :=
  (P part contract i ∧ contract ∉ file.installs c) ∨
    ∃ s trace, c = .act (.record s trace) ∧ file.Ran s trace part contract i

theorem ranAfter_of_quiet {file : FileCoverage} {P : CodePart → String → Instruction → Prop}
    {c : Command} {part : CodePart} {contract : String} {i : Instruction}
    (hinstalls : contract ∉ file.installs c) (hrecord : ∀ s trace, c ≠ .act (.record s trace)) :
    file.ranAfter P c part contract i ↔ P part contract i := by
  unfold ranAfter
  constructor
  · rintro (⟨h, -⟩ | ⟨s, trace, h, -⟩)
    · exact h
    · exact absurd h (hrecord s trace)
  · exact fun h => .inl ⟨h, hinstalls⟩

end FileCoverage

/-- The instructions of a marked code. -/
theorem Artifact.entries_mark (a : Artifact) (f : CodePart → Nat → Bool) (part : CodePart) :
    ((a.mark f).part part).entries = (a.part part).entries.map fun e =>
      { e with seen := e.seen || f part e.instruction.address } := by
  cases part <;> rfl

namespace FileCoverage
open Replay

section Perform
variable {file : FileCoverage} {P : CodePart → String → Instruction → Prop} (h : file.Marks P)
include h

theorem Marks.record {s : Settings} {trace : Value} {total : Fragment}
    (hrecorded : (file.record s trace).result = .ok total) :
    (file.record s trace).state.Marks (file.ranAfter P (.act (.record s trace))) := by
  intro contract marked hmarked part
  rw [artifact?_marked] at hmarked
  obtain ⟨artifact, hartifact, rfl⟩ := Option.map_eq_some_iff.1 hmarked
  obtain ⟨hdistinct, hseen⟩ := h contract artifact hartifact part
  rw [Listing.Distinct, Artifact.entries_mark, List.map_map]
  refine ⟨hdistinct, fun e he => ?_⟩
  obtain ⟨old, hold, rfl⟩ := List.mem_map.1 he
  simp only [Bool.or_eq_true, hseen old hold,
    any_marks_iff hrecorded hartifact hdistinct hold]
  unfold ranAfter
  constructor
  · rintro (hp | hran)
    · exact .inl ⟨hp, List.not_mem_nil⟩
    · exact .inr ⟨s, trace, rfl, hran⟩
  · rintro (⟨hp, -⟩ | ⟨_, _, ⟨⟩, hran⟩)
    · exact .inl hp
    · exact .inr hran

/-- A command that neither records nor brings listings leaves all marks. -/
theorem Marks.quiet {file' : FileCoverage} {c : Command}
    (hsame : ∀ contract, contract ∉ file.installs c →
      file'.artifact? contract = file.artifact? contract)
    (hnew : ∀ contract ∈ file.installs c, ∀ artifact, file'.artifact? contract = some artifact →
      ∀ part, (artifact.part part).Distinct ∧ ∀ e ∈ (artifact.part part).entries, e.seen = false)
    (hrecord : ∀ s trace, c ≠ .act (.record s trace)) : file'.Marks (file.ranAfter P c) := by
  intro contract artifact hartifact part
  by_cases hinstalled : contract ∈ file.installs c
  · obtain ⟨hdistinct, hunseen⟩ := hnew contract hinstalled artifact hartifact part
    refine ⟨hdistinct, fun e he => ?_⟩
    rw [hunseen e he]
    unfold ranAfter
    constructor
    · exact nofun
    · rintro (⟨-, hnot⟩ | ⟨s, trace, hc, -⟩)
      · exact absurd hinstalled hnot
      · exact absurd hc (hrecord s trace)
  · rw [hsame contract hinstalled] at hartifact
    obtain ⟨hdistinct, hseen⟩ := h contract artifact hartifact part
    refine ⟨hdistinct, fun e he => ?_⟩
    rw [hseen e he, ranAfter_of_quiet hinstalled hrecord]

theorem Marks.perform (c : Command)
    (hrecords : ∀ s trace, c = .act (.record s trace) →
      ∃ total, (file.record s trace).result = .ok total) :
    (file.perform c).Marks (file.ranAfter P c) := by
  cases c with
  | setResolver table =>
    exact h.quiet (fun _ _ => rfl) (fun _ hinstalled => absurd hinstalled List.not_mem_nil) nofun
  | act a =>
    cases a with
    | record s trace =>
      obtain ⟨total, htotal⟩ := hrecords s trace rfl
      exact h.record htotal
    | ingest s contracts source =>
      rcases ingest_installs s file contracts source with
        ⟨hstate, hnone⟩ | ⟨outputs, hreplaced, hnames⟩
      · rw [hstate]
        refine h.quiet (fun _ _ => rfl) (fun contract hinstalled => ?_) nofun
        rw [hnone] at hinstalled
        exact absurd hinstalled List.not_mem_nil
      · refine h.quiet (fun contract hnot => ?_) (fun contract hinstalled artifact hartifact => ?_)
          nofun
        · rw [hnames] at hnot
          exact hreplaced.others contract hnot
        · rw [hnames] at hinstalled
          obtain ⟨output, found, -, hfound, hreads⟩ := hreplaced.named contract hinstalled
          obtain rfl : found = artifact := Option.some.inj (hfound.symm.trans hartifact)
          exact fun part => ⟨distinct_of_reads (hreads part).1, (hreads part).2⟩

end Perform

/-! ### Any number of commands -/

/-- The contracts of which commands bring listings. -/
def installed (file : FileCoverage) : List Command → List String
  | [] => []
  | c :: commands => file.installs c ++ (file.perform c).installed commands

/-- No trace among commands is refused when its turn comes. -/
def RecordsAll (file : FileCoverage) (commands : List Command) : Prop :=
  ∀ before s trace after, commands = before ++ .act (.record s trace) :: after →
    ∃ total, ((file.performAll before).record s trace).result = .ok total

/-- A trace among commands executed an instruction of a code, and no later command brought listings
of the contract. -/
def RanSince (file : FileCoverage) (commands : List Command) (part : CodePart) (contract : String)
    (i : Instruction) : Prop :=
  ∃ before s trace after, commands = before ++ .act (.record s trace) :: after ∧
    (file.performAll before).Ran s trace part contract i ∧
    contract ∉ (file.performAll (before ++ [.act (.record s trace)])).installed after

theorem performAll_append (file : FileCoverage) (before after : List Command) :
    file.performAll (before ++ after) = (file.performAll before).performAll after :=
  List.foldl_append

theorem installed_concat (file : FileCoverage) (commands : List Command) (c : Command) :
    file.installed (commands ++ [c]) =
      file.installed commands ++ (file.performAll commands).installs c := by
  induction commands generalizing file with
  | nil => exact List.append_nil _
  | cons d commands ih =>
    show _ ++ (file.perform d).installed (commands ++ [c]) = (_ ++ _) ++ _
    rw [ih, List.append_assoc]
    rfl

theorem RecordsAll.nil (file : FileCoverage) : file.RecordsAll [] := by
  rintro before s trace after h
  cases List.append_ne_nil_of_right_ne_nil before (List.cons_ne_nil _ after) h.symm

theorem RecordsAll.cons {file : FileCoverage} {c : Command} {commands : List Command}
    (hc : ∀ s trace, c = .act (.record s trace) →
      ∃ total, (file.record s trace).result = .ok total)
    (h : (file.perform c).RecordsAll commands) : file.RecordsAll (c :: commands) := by
  rintro (_ | ⟨d, before⟩) s trace after hcommands
  · exact hc s trace (List.cons.inj hcommands).1
  · obtain ⟨rfl, hrest⟩ := List.cons.inj hcommands
    exact h before s trace after hrest

theorem RecordsAll.concat {file : FileCoverage} {commands : List Command} {c : Command}
    (h : file.RecordsAll (commands ++ [c])) : file.RecordsAll commands ∧
      ∀ s trace, c = .act (.record s trace) →
        ∃ total, ((file.performAll commands).record s trace).result = .ok total := by
  constructor
  · rintro before s trace after rfl
    exact h before s trace (after ++ [c]) (by rw [List.append_assoc]; rfl)
  · rintro s trace rfl
    exact h commands s trace [] rfl

/-- What has been executed after one more command. -/
theorem ranSince_concat (file : FileCoverage) (commands : List Command) (c : Command) :
    file.RanSince (commands ++ [c]) = (file.performAll commands).ranAfter
      (file.RanSince commands) c := by
  funext part contract i
  refine propext ?_
  constructor
  · rintro ⟨before, s, trace, after, hcommands, hran, hsince⟩
    -- The trace is the last command, or one of those before.
    rcases List.eq_nil_or_concat after with rfl | ⟨earlier, last, rfl⟩
    · obtain ⟨rfl, hlast⟩ := List.append_inj' hcommands rfl
      exact .inr ⟨s, trace, (List.cons.inj hlast).1, hran⟩
    · rw [List.concat_eq_append] at hcommands hsince
      rw [← List.cons_append, ← List.append_assoc] at hcommands
      obtain ⟨rfl, hlast⟩ := List.append_inj' hcommands rfl
      obtain rfl : c = last := (List.cons.inj hlast).1
      rw [installed_concat, List.mem_append, not_or, ← performAll_append,
        List.append_assoc] at hsince
      exact .inl ⟨⟨before, s, trace, earlier, rfl, hran, hsince.1⟩, hsince.2⟩
  · rintro (⟨⟨before, s, trace, earlier, rfl, hran, hsince⟩, hinstalls⟩ | ⟨s, trace, rfl, hran⟩)
    · refine ⟨before, s, trace, earlier ++ [c], ?_, hran, ?_⟩
      · rw [List.append_assoc, List.cons_append]
      · rw [installed_concat, List.mem_append, not_or, ← performAll_append, List.append_assoc]
        exact ⟨hsince, hinstalls⟩
    · exact ⟨commands, s, trace, [], rfl, hran, List.not_mem_nil⟩

/-- After commands of which no trace has been refused the marks are those of what has been
executed. -/
theorem marks_performAll {name path text : String} {given : Option RangeTable}
    {commands : List Command} (h : (new name path text given).RecordsAll commands) :
    ((new name path text given).performAll commands).Marks
      ((new name path text given).RanSince commands) := by
  induction commands using List.reverseRecOn with
  | nil =>
    intro contract artifact hartifact
    cases given <;> cases hartifact
  | append_singleton commands c ih =>
    obtain ⟨hbefore, hlast⟩ := h.concat
    rw [ranSince_concat, performAll_append]
    exact (ih hbefore).perform c hlast

/-! ### Instruction coverage -/

theorem mem_addCoverage (found : InstructionCoverage) (t : Table) (contract : String)
    (x : CodePart × CodeCoverage) :
    x ∈ ((addCoverage found t).get? contract).getD [] ↔
      x ∈ (found.get? contract).getD [] ∨ t.contract = contract ∧ x = (t.part, t.coverage) := by
  rw [addCoverage, KeyedList.get?_update]
  by_cases h : t.contract = contract
  · subst h
    simp
  · have hne : (t.contract == contract) = false := by simpa using h
    simp [hne, h]

theorem mem_foldl_addCoverage (ts : List Table) (found : InstructionCoverage) (contract : String)
    (x : CodePart × CodeCoverage) :
    x ∈ ((ts.foldl addCoverage found).get? contract).getD [] ↔
      x ∈ (found.get? contract).getD [] ∨
        ∃ t ∈ ts, t.contract = contract ∧ x = (t.part, t.coverage) := by
  induction ts generalizing found with
  | nil => simp
  | cons t ts ih =>
    rw [List.foldl_cons, ih, mem_addCoverage, or_assoc, List.exists_mem_cons_iff]

/-- The report has one entry for every code that is not empty. -/
theorem mem_instructionCoverage {file : FileCoverage} {contract : String} {artifact : Artifact}
    (h : file.artifact? contract = some artifact) :
    ∃ report, file.instructionCoverage.result = .ok report ∧ ∀ part cover,
      (part, cover) ∈ (report.get? contract).getD [] ↔ (artifact.part part).isEmpty = false ∧
        cover = ⟨(artifact.part part).hash, (artifact.part part).seenCount,
          (artifact.part part).size⟩ := by
  obtain ⟨tables, htables, hget⟩ := Option.bind_eq_some_iff.1 h
  unfold instructionCoverage
  rw [htables]
  refine ⟨_, rfl, fun part cover => ?_⟩
  rw [mem_foldl_addCoverage]
  constructor
  · rintro (hnone | ⟨t, ht, rfl, hcover⟩)
    · cases hnone
    · cases hcover
      rw [Tables.nonempty, List.mem_filter, Tables.mem_inOrder] at ht
      obtain ⟨⟨found, hfound, hlisting⟩, hempty⟩ := ht
      obtain rfl : found = artifact := Option.some.inj (hfound.symm.trans hget)
      rw [hlisting] at hempty
      refine ⟨by simpa using hempty, ?_⟩
      rw [Table.coverage, hlisting]
  · rintro ⟨hempty, rfl⟩
    refine .inr ⟨⟨part, contract, artifact.part part⟩, ?_, rfl, rfl⟩
    rw [Tables.nonempty, List.mem_filter, Tables.mem_inOrder]
    exact ⟨⟨artifact, hget, rfl⟩, by simpa using hempty⟩

open Classical in
/-- **Instruction coverage is exact.** A file has been given anything, and no trace that came was
refused. Then an instruction of a listing is marked exactly when some trace, since the listing came
in, had a call frame that aligned with this code and a step that executed the instruction under the
settings of the trace; and the report has exactly one entry for every listing that is not empty, with
the number of these instructions. -/
theorem seen_iff_executed {name path text : String} {given : Option RangeTable}
    {commands : List Command} (h : (new name path text given).RecordsAll commands)
    {contract : String} {artifact : Artifact}
    (hartifact : ((new name path text given).performAll commands).artifact? contract =
      some artifact) (part : CodePart) :
    (∀ e ∈ (artifact.part part).entries, e.seen = true ↔
      (new name path text given).RanSince commands part contract e.instruction) ∧
    ∃ report, ((new name path text given).performAll commands).instructionCoverage.result =
        .ok report ∧
      ∀ cover, (part, cover) ∈ (report.get? contract).getD [] ↔
        (artifact.part part).isEmpty = false ∧
          cover = ⟨(artifact.part part).hash, (artifact.part part).entries.countP fun e =>
            (new name path text given).RanSince commands part contract e.instruction,
            (artifact.part part).size⟩ := by
  obtain ⟨-, hseen⟩ := marks_performAll h contract artifact hartifact part
  obtain ⟨report, hreport, hmem⟩ := mem_instructionCoverage hartifact
  refine ⟨hseen, report, hreport, fun cover => ?_⟩
  have hcount : (artifact.part part).seenCount = (artifact.part part).entries.countP fun e =>
      (new name path text given).RanSince commands part contract e.instruction :=
    List.countP_congr fun e he => by rw [hseen e he, decide_eq_true_iff]
  rw [hmem, hcount]

/-- A step at the second instruction that names another one than stands there. -/
def misnamed : Value :=
  .list [.object [("pc", .int 0), ("op", .text "JUMPDEST")],
    .object [("pc", .int 1), ("op", .text "ADD")]]

/-- A code of two instructions is executed, comes in anew, and is executed up to such a step. -/
def executedAnew : List Command :=
  [.act (.ingest {} (.object [outputOf "5b00".toList]) .null), .act (.record {} (callOf [0, 1])),
    .act (.ingest {} (.object [outputOf "5b00".toList]) .null), .act (.record {} misnamed)]

/-- Only the first instruction is marked in the end, and only it has been executed since. -/
theorem seen_iff_executed_anew :
    (new "Pair.sol" "Pair.sol" "one;two;").RecordsAll executedAnew ∧
      ((new "Pair.sol" "Pair.sol" "one;two;").performAll executedAnew).flags .deployed "Pair" =
        .ok [(0, true), (1, false)] ∧
      ∃ artifact,
        ((new "Pair.sol" "Pair.sol" "one;two;").performAll executedAnew).artifact? "Pair" =
          some artifact ∧
        ∀ e ∈ (artifact.part .deployed).entries, e.seen = true ↔
          (new "Pair.sol" "Pair.sol" "one;two;").RanSince executedAnew .deployed "Pair"
            e.instruction := by
  have hrecorded : ∀ (file : FileCoverage) (s : Settings) (trace : Value),
      (file.record s trace).result.toOption.isSome = true →
      ∀ s' trace', Command.act (.record s trace) = .act (.record s' trace') →
        ∃ total, (file.record s' trace').result = .ok total := by
    rintro file s trace hsome _ _ ⟨⟩
    cases hresult : (file.record s trace).result with
    | error fault =>
      rw [hresult] at hsome
      cases hsome
    | ok total => exact ⟨total, rfl⟩
  have hall : (new "Pair.sol" "Pair.sol" "one;two;").RecordsAll executedAnew :=
    .cons nofun (.cons (hrecorded _ _ _ (by decide +kernel))
      (.cons nofun (.cons (hrecorded _ _ _ (by decide +kernel)) (.nil _))))
  have hsome : (((new "Pair.sol" "Pair.sol" "one;two;").performAll executedAnew).artifact?
      "Pair").isSome = true := by decide +kernel
  obtain ⟨artifact, hartifact⟩ := Option.isSome_iff_exists.1 hsome
  exact ⟨hall, by decide +kernel, artifact, hartifact,
    (seen_iff_executed hall hartifact .deployed).1⟩

end FileCoverage

end ContractCoverage
