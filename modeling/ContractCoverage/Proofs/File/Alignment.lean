import ContractCoverage.Proofs.File.Executed
import ContractCoverage.Proofs.Trace.Calls

/-! Which listing a call frame was executing, and what becomes of its steps.

The listings of a file stand in a strict order (`Table.Precedes`, `pairwise_inOrder`), and the
search takes the first one of the greatest score (`firstBest_eq_some_iff`). So a frame chooses a
listing exactly when it may, at least half of its steps match, no listing before matches as many
and no listing behind matches more (`Frame.Chooses`); nothing is chosen when no listing matches
half of the steps. A program counter that is no key cannot be looked up, and then there is no
answer (`Frame.findTable`).

A step of an aligned frame is replayed when it matches and skipped when it does not, and all
steps of other frames are skipped. As the frames share out the steps of a trace
(`sum_size_ofSteps`), replayed and skipped steps make up the trace, and what a trace reports is
the number of the replayed ones (`record_accounts`). -/
namespace ContractCoverage

/-! ### The first of the greatest -/

section FirstBest
variable {α : Type} {score : α → Nat} {as : List α} {a : α}

/-- What is taken has a greater score than all before it and no smaller one than those behind. -/
theorem firstBest_eq_some_iff : firstBest score as = some a ↔
    ∃ before after, as = before ++ a :: after ∧ (∀ b ∈ before, score b < score a) ∧
      ∀ b ∈ after, score b ≤ score a := by
  induction as with
  | nil => simp [firstBest]
  | cons c cs ih =>
    constructor
    · intro h
      have hbehind : ∀ b ∈ cs, score b ≤ score a := fun b hb =>
        le_of_firstBest h b (List.mem_cons_of_mem _ hb)
      rw [firstBest] at h
      cases hrest : firstBest score cs with
      | none =>
        rw [hrest] at h
        cases h
        exact ⟨[], cs, rfl, List.forall_mem_nil _, hbehind⟩
      | some d =>
        simp only [hrest] at h
        split at h
        · next hlt =>
          cases h
          obtain ⟨before, after, rfl, hbefore, hafter⟩ := ih.1 hrest
          exact ⟨c :: before, after, rfl, List.forall_mem_cons.2 ⟨hlt, hbefore⟩, hafter⟩
        · cases h
          exact ⟨[], cs, rfl, List.forall_mem_nil _, hbehind⟩
    · intro h
      obtain ⟨before, after, hsplit, hbefore, hafter⟩ := h
      rw [firstBest]
      cases before with
      | nil =>
        obtain ⟨rfl, rfl⟩ := List.cons.inj hsplit
        cases hrest : firstBest score cs with
        | none => rfl
        | some d => exact if_neg (Nat.not_lt.2 (hafter d (mem_of_firstBest hrest)))
      | cons b before =>
        obtain ⟨rfl, rfl⟩ := List.cons.inj hsplit
        obtain ⟨hlt, hbefore⟩ := List.forall_mem_cons.1 hbefore
        simp only [ih.2 ⟨before, after, rfl, hbefore, hafter⟩, if_pos hlt]

/-- Of a list in strict order. -/
theorem firstBest_eq_some_iff_of_pairwise {r : α → α → Prop} (hasymm : ∀ a b, r a b → ¬r b a)
    (h : as.Pairwise r) : firstBest score as = some a ↔
      a ∈ as ∧ (∀ b ∈ as, r b a → score b < score a) ∧ ∀ b ∈ as, r a b → score b ≤ score a := by
  rw [firstBest_eq_some_iff]
  constructor
  · intro h'
    obtain ⟨before, after, hsplit, hbefore, hafter⟩ := h'
    have hmem : a ∈ as := hsplit ▸ List.mem_append_right before (List.mem_cons_self ..)
    have hmost : ∀ b ∈ as, score b ≤ score a :=
      le_of_firstBest (firstBest_eq_some_iff.2 ⟨before, after, hsplit, hbefore, hafter⟩)
    refine ⟨hmem, fun b hb hba => ?_, fun b hb _ => hmost b hb⟩
    rw [hsplit, List.pairwise_append] at h
    obtain ⟨-, hlater, -⟩ := h
    rw [hsplit] at hb
    rcases List.mem_append.1 hb with hb | hb
    · exact hbefore b hb
    · rcases List.mem_cons.1 hb with rfl | hb
      · exact absurd hba (hasymm _ _ hba)
      · exact absurd hba (hasymm _ _ ((List.pairwise_cons.1 hlater).1 b hb))
  · intro h'
    obtain ⟨hmem, hbefore, hafter⟩ := h'
    obtain ⟨before, after, rfl⟩ := List.append_of_mem hmem
    obtain ⟨-, hlater, hacross⟩ := List.pairwise_append.1 h
    refine ⟨before, after, rfl, fun b hb => ?_, fun b hb => ?_⟩
    · exact hbefore b (List.mem_append_left _ hb) (hacross b hb a (List.mem_cons_self ..))
    · exact hafter b (List.mem_append_right _ (List.mem_cons_of_mem _ hb))
        ((List.pairwise_cons.1 hlater).1 b hb)

end FirstBest

/-! ### The order of the listings -/

/-- Deployed codes come before creation codes, and those of one kind in the order of the names of
their contracts. -/
def Table.Precedes (T U : Table) : Prop :=
  T.part = .deployed ∧ U.part = .creation ∨ T.part = U.part ∧ T.contract < U.contract

theorem Table.Precedes.asymm (T U : Table) (h : T.Precedes U) : ¬U.Precedes T := by
  rcases h with ⟨hT, hU⟩ | ⟨hpart, hlt⟩
  · simp [Precedes, hT, hU]
  · rw [Precedes, hpart]
    intro hprecedes
    rcases hprecedes with ⟨hdeployed, hcreation⟩ | ⟨-, hgt⟩
    · rw [hdeployed] at hcreation
      cases hcreation
    · exact String.lt_asymm hlt hgt

namespace Tables

theorem pairwise_names_lt (t : Tables) : t.names.Pairwise (· < ·) := by
  have hnodup : t.names.Nodup := (List.mergeSort_perm t.keys _).nodup_iff.2 t.nodup_keys
  refine (t.pairwise_names.and hnodup).imp fun {a b} h => ?_
  exact String.not_le.1 fun hle => h.2 (String.le_antisymm h.1 hle)

theorem pairwise_ofPart (t : Tables) (part : CodePart) :
    (t.ofPart part).Pairwise Table.Precedes := by
  refine List.Pairwise.filterMap _ ?_ t.pairwise_names_lt
  intro name name' hlt T hT U hU
  obtain ⟨a, -, rfl⟩ := Option.map_eq_some_iff.1 hT
  obtain ⟨a', -, rfl⟩ := Option.map_eq_some_iff.1 hU
  exact .inr ⟨rfl, hlt⟩

theorem part_of_mem_ofPart {t : Tables} {part : CodePart} {T : Table} (h : T ∈ t.ofPart part) :
    T.part = part := by
  obtain ⟨name, -, hT⟩ := List.mem_filterMap.1 h
  obtain ⟨a, -, rfl⟩ := Option.map_eq_some_iff.1 hT
  rfl

/-- The listings stand in order. -/
theorem pairwise_inOrder (t : Tables) : t.inOrder.Pairwise Table.Precedes := by
  refine List.pairwise_append.2 ⟨t.pairwise_ofPart _, t.pairwise_ofPart _, fun T hT U hU => ?_⟩
  exact .inl ⟨part_of_mem_ofPart hT, part_of_mem_ofPart hU⟩

/-- A frame may align with a listing of a file under some settings. -/
structure Allows (s : Settings) (t : Tables) (T : Table) : Prop where
  /-- It is a code of a contract. -/
  held : ∃ a, t.get? T.contract = some a ∧ T.listing = a.part T.part
  /-- Creation codes are only looked at where the settings say so. -/
  part : T.part = .deployed ∨ s.includeCreationCode = true

theorem mem_candidates {s : Settings} {t : Tables} {T : Table} :
    T ∈ t.candidates s ↔ T.listing.isEmpty = false ∧ t.Allows s T := by
  simp only [candidates, nonempty, List.mem_filter, mem_inOrder, Bool.or_eq_true, beq_iff_eq,
    Bool.not_eq_true']
  exact ⟨fun h => ⟨h.1.2, h.1.1, h.2⟩, fun h => ⟨⟨h.2.held, h.1⟩, h.2.part⟩⟩

theorem pairwise_candidates (s : Settings) (t : Tables) :
    (t.candidates s).Pairwise Table.Precedes := (t.pairwise_inOrder.filter _).filter _

end Tables

/-! ### Scores -/

/-- Whether a step matches a listing. -/
def Listing.fits (s : Settings) (l : Listing) (step : Step) : Bool := (l.match? s step).isSome

/-- A step matches when its program counter is the address of an instruction, which has the mnemonic
of the step where the settings ask for it. -/
theorem Listing.fits_iff {s : Settings} {l : Listing} {step : Step} :
    l.fits s step = true ↔ ∃ e, l.entryAtCounter? step.pc = some e ∧
      (s.verifyOpcodes = true → ∀ op, step.op = some op → op = e.instruction.mnemonic) := by
  simp only [fits, match?, Option.isSome_iff_exists, Option.filter_eq_some_iff, Step.verifies_iff]

/-- A step matches no listing without instructions. -/
theorem Listing.fits_of_isEmpty {s : Settings} {l : Listing} (h : l.isEmpty = true) (step : Step) :
    l.fits s step = false := by
  refine Bool.eq_false_iff.2 fun hfits => ?_
  obtain ⟨e, he, -⟩ := Listing.fits_iff.1 hfits
  obtain ⟨address, -, hentry⟩ := Option.bind_eq_some_iff.1 he
  have hmem : e ∈ l.entries := List.mem_of_find?_eq_some hentry
  rw [List.isEmpty_iff.1 h] at hmem
  cases hmem

namespace Frame

/-- The number of steps of a frame that match a listing. -/
def score (s : Settings) (f : Frame) (T : Table) : Nat := f.steps.countP (T.listing.fits s)

theorem length_matches (s : Settings) (f : Frame) (T : Table) :
    (T.listing.matches s f).length = f.score s T := List.length_filterMap_eq_countP

/-- The listing that a frame was executing. -/
structure Chooses (s : Settings) (t : Tables) (f : Frame) (T : Table) : Prop where
  nonempty : T.listing.isEmpty = false
  allowed : t.Allows s T
  /-- At least half of the steps match. -/
  half : f.size ≤ 2 * f.score s T
  /-- No earlier listing matches as many steps. -/
  first : ∀ U, t.Allows s U → U.Precedes T → f.score s U < f.score s T
  /-- No later listing matches more. -/
  most : ∀ U, t.Allows s U → T.Precedes U → f.score s U ≤ f.score s T

section Align
variable {s : Settings} {t : Tables} {f : Frame}

/-- Only listings with instructions match steps. -/
theorem mem_candidates_of_score {T : Table} (hT : t.Allows s T) (h : 0 < f.score s T) :
    T ∈ t.candidates s := by
  obtain ⟨step, -, hfits⟩ := List.countP_pos_iff.1 h
  refine Tables.mem_candidates.2 ⟨?_, hT⟩
  cases hempty : T.listing.isEmpty with
  | false => rfl
  | true =>
    rw [Listing.fits_of_isEmpty hempty] at hfits
    cases hfits

variable (hsteps : f.steps ≠ [])
include hsteps

theorem align_eq_some_iff {T : Table} : f.align s t = some T ↔ f.Chooses s t T := by
  have hpos : 0 < f.size := List.length_pos_iff.2 hsteps
  simp only [align, length_matches, Option.filter_eq_some_iff, decide_eq_true_eq]
  rw [firstBest_eq_some_iff_of_pairwise Table.Precedes.asymm (t.pairwise_candidates s),
    Tables.mem_candidates]
  constructor
  · intro h
    obtain ⟨⟨⟨hnonempty, hallowed⟩, hfirst, hmost⟩, hhalf⟩ := h
    refine ⟨hnonempty, hallowed, hhalf, fun U hU hUT => ?_, fun U hU hTU => ?_⟩
    -- Half of the steps are some, so a listing that matches none is no rival.
    · rcases Nat.eq_zero_or_pos (f.score s U) with hnone | hsome
      · omega
      · exact hfirst U (mem_candidates_of_score hU hsome) hUT
    · rcases Nat.eq_zero_or_pos (f.score s U) with hnone | hsome
      · omega
      · exact hmost U (mem_candidates_of_score hU hsome) hTU
  · intro h
    refine ⟨⟨⟨h.nonempty, h.allowed⟩, fun U hU => ?_, fun U hU => ?_⟩, h.half⟩
    · exact h.first U (Tables.mem_candidates.1 hU).2
    · exact h.most U (Tables.mem_candidates.1 hU).2

theorem align_eq_none_iff :
    f.align s t = none ↔ ∀ T, t.Allows s T → 2 * f.score s T < f.size := by
  have hpos : 0 < f.size := List.length_pos_iff.2 hsteps
  simp only [align, length_matches, Option.filter_eq_none_iff, decide_eq_true_eq, Nat.not_le]
  constructor
  · intro h T hT
    rcases Nat.eq_zero_or_pos (f.score s T) with hnone | hsome
    · omega
    · have hmem := mem_candidates_of_score hT hsome
      cases hbest : firstBest (f.score s) (t.candidates s) with
      | none =>
        rw [eq_nil_of_firstBest hbest] at hmem
        cases hmem
      | some best =>
        have hle := le_of_firstBest hbest T hmem
        have hlow := h best hbest
        omega
  · intro h T hT
    exact h T (Tables.mem_candidates.1 (mem_of_firstBest hT)).2

end Align

/-! ### Program counters that cannot be looked up -/

/-- The program counters of a frame can be looked up, or there is nothing to look them up in. -/
def CanBeMatched (s : Settings) (t : Tables) (f : Frame) : Prop :=
  (∀ step ∈ f.steps, step.pc.isScalar = true) ∨ ∀ T, t.Allows s T → T.listing.isEmpty = true

/-- The listing that a frame was executing, if its program counters can be looked up. -/
def findTable (s : Settings) (t : Tables) (f : Frame) : Except ShapeFault (Option Table) :=
  if f.isUnreadable && !(t.candidates s).isEmpty then .error .wrongKind else .ok (f.align s t)

theorem canBeMatched_iff {s : Settings} {t : Tables} {f : Frame} :
    f.CanBeMatched s t ↔ (f.isUnreadable && !(t.candidates s).isEmpty) = false := by
  have hcandidates : (t.candidates s).isEmpty = true ↔
      ∀ T, t.Allows s T → T.listing.isEmpty = true := by
    rw [List.isEmpty_iff, List.eq_nil_iff_forall_not_mem]
    refine forall_congr' fun T => ?_
    rw [Tables.mem_candidates, not_and, imp_not_comm, Bool.not_eq_false]
  rw [Bool.and_eq_false_iff, Bool.not_eq_false', hcandidates, CanBeMatched, isUnreadable,
    List.any_eq_false]
  simp only [Bool.not_eq_true, Bool.not_eq_false']

/-- A frame cannot be followed when its listing cannot be told, or when it is to be skipped and its
depth cannot be written. -/
theorem obstacle?_eq_findTable (s : Settings) (t : Tables) (f : Frame) :
    Replay.obstacle? s t f = match f.findTable s t with
      | .error fault => some fault
      | .ok (some _) => none
      | .ok none =>
        match f.depth.displayed with
        | .error fault => some fault
        | .ok _ => none := by
  unfold Replay.obstacle? findTable
  split
  · rfl
  · cases f.align s t <;> cases f.depth.displayed <;> rfl

/-- The answer of the search, and when there is one. -/
theorem findTable_iff (s : Settings) (t : Tables) {f : Frame} (hsteps : f.steps ≠ []) :
    (∀ T, f.findTable s t = .ok (some T) ↔ f.CanBeMatched s t ∧ f.Chooses s t T) ∧
    (f.findTable s t = .ok none ↔
      f.CanBeMatched s t ∧ ∀ T, t.Allows s T → 2 * f.score s T < f.size) ∧
    ∀ fault, f.findTable s t = .error fault ↔ ¬f.CanBeMatched s t ∧ fault = .wrongKind := by
  simp only [canBeMatched_iff, findTable, ← align_eq_some_iff hsteps, ← align_eq_none_iff hsteps]
  split
  · next h => simp [h, eq_comm]
  · next h => simp [h]

/-- A frame can be followed when the search has an answer, and its depth can be written where it is
to be skipped. -/
theorem isPassable_iff {s : Settings} {t : Tables} {f : Frame} :
    Replay.isPassable s t f = true ↔ ∃ found, f.findTable s t = .ok found ∧
      (found = none → ∃ text, f.depth.displayed = .ok text) := by
  rw [Replay.isPassable, obstacle?_eq_findTable]
  cases f.findTable s t with
  | error fault =>
    refine iff_of_false Bool.false_ne_true fun h => ?_
    obtain ⟨_, hfound, -⟩ := h
    cases hfound
  | ok found =>
    cases found with
    | some T => exact iff_of_true rfl ⟨some T, rfl, fun h => absurd h (Option.some_ne_none T)⟩
    | none =>
      cases f.depth.displayed with
      | ok text => exact iff_of_true rfl ⟨none, rfl, fun _ => ⟨text, rfl⟩⟩
      | error fault =>
        refine iff_of_false Bool.false_ne_true fun h => ?_
        obtain ⟨found, hfound, hdepth⟩ := h
        obtain ⟨text, htext⟩ := hdepth (Except.ok.inj hfound).symm
        cases htext

/-! ### The steps of a frame -/

/-- The steps of a frame that are replayed. -/
def replayed (s : Settings) (t : Tables) (f : Frame) : Nat :=
  match f.align s t with
  | none => 0
  | some T => f.steps.countP fun step => T.listing.fits s step

/-- The steps of a frame that are skipped. -/
def skipped (s : Settings) (t : Tables) (f : Frame) : Nat :=
  match f.align s t with
  | none => f.size
  | some T => f.steps.countP fun step => !T.listing.fits s step

theorem replayed_add_skipped (s : Settings) (t : Tables) (f : Frame) :
    f.replayed s t + f.skipped s t = f.size := by
  unfold replayed skipped
  cases f.align s t with
  | none => exact Nat.zero_add _
  | some T =>
    simp only [size, List.length_eq_countP_add_countP (T.listing.fits s), Bool.not_eq_true,
      Bool.decide_eq_false]

/-- The frames of a trace share out its steps. -/
theorem sum_size_ofSteps {steps : List Step} {frames : List Frame}
    (h : ofSteps steps = .ok frames) : (frames.map size).sum = steps.length := by
  obtain ⟨labels, hlabels, h⟩ := bind_eq_ok_iff.1 h
  cases h
  have hlength := length_labelsFrom hlabels
  have hsize : ∀ label, (ofLabel steps labels label).size = (placesOf labels label).length := by
    intro label
    show (own label steps labels).length = _
    rw [own_eq_filterMap label hlength, List.length_filterMap_eq_countP, List.countP_eq_length]
    intro i hi
    have hplace := (List.getElem?_eq_some_iff.1 (mem_placesOf.1 hi)).1
    simpa using hlength ▸ hplace
  have hplaces : (places labels).flatten.length = labels.length := by
    rw [(perm_places labels).length_eq, List.length_range]
  rw [← hlength, ← hplaces, List.length_flatten, places, List.map_map, List.map_map]
  exact congrArg List.sum (List.map_congr_left fun label _ => hsize label)

end Frame

/-! ### The steps of a trace -/

namespace Replay

theorem length_entries_follow (s : Settings) (t : Tables) (f : Frame) :
    (follow s t f).entries.length = f.replayed s t := by
  unfold follow Frame.replayed
  cases f.align s t with
  | none => rfl
  | some T => exact f.length_matches s T

theorem replayed_map_follow (s : Settings) (t : Tables) (frames : List Frame) :
    replayed (frames.map (follow s t)) = (frames.map (·.replayed s t)).sum := by
  rw [replayed, List.length_flatMap, List.map_map]
  exact congrArg List.sum (List.map_congr_left fun f _ => length_entries_follow s t f)

/-- What is reported of a single frame is of less importance. -/
theorem level_of_events {file : FileCoverage} {p : Passage} {event : Event}
    (h : event ∈ p.events file) : event.level = .debug := by
  unfold Passage.events at h
  split at h
  · rw [List.mem_singleton.1 h]
  · cases h

end Replay

namespace FileCoverage
open Replay

/-- The line that a trace reports when it has been followed to its end. -/
def replayReport (file : FileCoverage) (replayed total : Nat) : Event :=
  ⟨.info, s!"Replayed {replayed} of {total} steps against {file.name}"⟩

/-- The reports of a trace among its events. -/
def reports (s : Settings) (file : FileCoverage) (trace : Value) : List Event :=
  (file.record s trace).events.filter (·.level == .info)

theorem reports_eq {s : Settings} {file : FileCoverage} {trace : Value} {tables : Tables}
    {steps : List Step} {frames : List Frame} (htables : file.tables = some tables)
    (hload : Trace.load trace = .ok steps) (hframes : Frame.ofSteps steps = .ok frames) :
    file.reports s trace =
      if frames.all (isPassable s tables) then
        [file.replayReport (frames.map (·.replayed s tables)).sum steps.length]
      else [] := by
  have hquiet : ∀ passages : List Passage,
      (passages.flatMap (·.events file)).filter (·.level == .info) = [] := by
    intro passages
    refine List.filter_eq_nil_iff.2 fun event hevent => ?_
    obtain ⟨p, -, hp⟩ := List.mem_flatMap.1 hevent
    simp [level_of_events hp]
  rw [reports, record_eq_recordSteps s file hload]
  simp only [recordSteps, htables, hframes, replay]
  cases hstop : frames.findSome? (obstacle? s tables) with
  | some fault =>
    obtain ⟨f, hf, hobstacle⟩ := List.exists_of_findSome?_eq_some hstop
    have hnot : ¬frames.all (isPassable s tables) = true := by
      intro hall
      have hpassable := List.all_eq_true.1 hall f hf
      rw [isPassable, hobstacle] at hpassable
      cases hpassable
    rw [if_neg hnot]
    exact hquiet _
  | none =>
    have hpassable : ∀ f ∈ frames, isPassable s tables f = true := by
      intro f hf
      rw [isPassable, List.findSome?_eq_none_iff.1 hstop f hf]
      rfl
    rw [if_pos (List.all_eq_true.2 hpassable), List.takeWhile_eq_self_iff.2 hpassable]
    have hreport : ((frames.map (follow s tables)).flatMap (·.events file) ++
        [file.replayReport (Replay.replayed (frames.map (follow s tables))) steps.length]).filter
          (·.level == .info) =
        [file.replayReport (frames.map (·.replayed s tables)).sum steps.length] := by
      rw [List.filter_append, hquiet, replayed_map_follow]
      rfl
    cases increment file (frames.map (follow s tables)) with
    | error fault => exact hreport
    | ok added => exact hreport

/-- A trace that does not fall into frames reports nothing, and neither does one against a file that
has not been ingested. -/
theorem reports_eq_nil {s : Settings} {file : FileCoverage} {trace : Value}
    (h : file.tables = none ∨ ∃ fault, Trace.frames trace = .error fault) :
    file.reports s trace = [] := by
  unfold reports record
  cases htables : file.tables with
  | none => simp [isIngested, htables]
  | some tables =>
    obtain ⟨fault, hfault⟩ := h.resolve_left (by simp [htables])
    unfold Trace.frames at hfault
    cases hload : Trace.load trace with
    | error _ => simp [isIngested, htables]
    | ok steps =>
      rw [hload] at hfault
      cases hframes : Frame.ofSteps steps with
      | error _ => simp [isIngested, htables, recordSteps, hframes]
      | ok frames => simp [hframes, Except.mapError] at hfault

/-- A trace is refused when one of its frames cannot be followed. -/
theorem refused_of_obstacle {s : Settings} {file : FileCoverage} {trace : Value} {tables : Tables}
    {frames : List Frame} {f : Frame} (htables : file.tables = some tables)
    (hframes : Trace.frames trace = .ok frames) (hf : f ∈ frames)
    (hstop : isPassable s tables f = false) :
    ∃ fault, (file.record s trace).result = .error (.shape fault) := by
  cases hfirst : frames.findSome? (obstacle? s tables) with
  | none =>
    rw [isPassable, List.findSome?_eq_none_iff.1 hfirst f hf] at hstop
    cases hstop
  | some fault =>
    refine ⟨fault, result_of_refusal? ?_⟩
    rw [refusal?_of_tables htables, hframes]
    exact congrArg (Option.map Fault.shape) hfirst

/-- **Every step is accounted for.** A trace that does not fall into frames, or that comes before
listings have come in, reports nothing. Otherwise, for every frame of which the program counters can
be looked up, the listing that is found is the one that the frame chooses, and none is found when no
listing matches half of its steps; for the other frames the search has no answer, and the trace is
refused. If all frames can be followed, the trace reports how many of its steps match the listings
that their frames have chosen, and the others are those that have been skipped. -/
theorem record_accounts (s : Settings) (file : FileCoverage) (trace : Value) :
    (file.tables = none ∨ (∃ fault, Trace.frames trace = .error fault) →
      file.reports s trace = []) ∧
    ∀ tables steps frames, file.tables = some tables → Trace.load trace = .ok steps →
      Frame.ofSteps steps = .ok frames →
      (∀ f ∈ frames,
        (∀ T, f.findTable s tables = .ok (some T) ↔
          f.CanBeMatched s tables ∧ f.Chooses s tables T) ∧
        (f.findTable s tables = .ok none ↔
          f.CanBeMatched s tables ∧ ∀ T, tables.Allows s T → 2 * f.score s T < f.size) ∧
        (∀ fault, f.findTable s tables = .error fault ↔
          ¬f.CanBeMatched s tables ∧ fault = .wrongKind) ∧
        (¬f.CanBeMatched s tables →
          ∃ fault, (file.record s trace).result = .error (.shape fault)) ∧
        (isPassable s tables f = true ↔ ∃ found, f.findTable s tables = .ok found ∧
          (found = none → ∃ text, f.depth.displayed = .ok text))) ∧
      (file.reports s trace =
        if frames.all (isPassable s tables) then
          [file.replayReport (frames.map (·.replayed s tables)).sum steps.length]
        else []) ∧
      (frames.map (·.replayed s tables)).sum + (frames.map (·.skipped s tables)).sum =
        steps.length := by
  refine ⟨reports_eq_nil, fun tables steps frames htables hload hframes => ⟨fun f hf => ?_, ?_, ?_⟩⟩
  · have hsteps : f.steps ≠ [] := by
      obtain ⟨first, rest, rfl, -, -⟩ := Frame.level_of_mem_ofSteps hframes hf
      exact List.cons_ne_nil first rest
    obtain ⟨hsome, hnone, herror⟩ := Frame.findTable_iff s tables hsteps
    refine ⟨hsome, hnone, herror, fun hcannot => ?_, Frame.isPassable_iff⟩
    have hread := Trace.frames_of_load hload hframes
    refine refused_of_obstacle htables hread hf (Bool.eq_false_iff.2 fun hpassable => ?_)
    obtain ⟨found, hfound, -⟩ := Frame.isPassable_iff.1 hpassable
    cases hfound.symm.trans ((herror _).2 ⟨hcannot, rfl⟩)
  · exact reports_eq htables hload hframes
  · calc (frames.map (·.replayed s tables)).sum + (frames.map (·.skipped s tables)).sum
        = (frames.map fun f => f.replayed s tables + f.skipped s tables).sum :=
          List.sum_map_add.symm
      _ = (frames.map Frame.size).sum := by simp only [Frame.replayed_add_skipped]
      _ = steps.length := Frame.sum_size_ofSteps hframes

/-- Two of three steps match the only listing. -/
theorem record_accounts_pair : ∃ tables steps frames, pair.tables = some tables ∧
    Trace.load (callOf [0, 1, 7]) = .ok steps ∧ Frame.ofSteps steps = .ok frames ∧
      pair.reports {} (callOf [0, 1, 7]) = [pair.replayReport 2 3] ∧
      2 + (frames.map (·.skipped {} tables)).sum = 3 := by
  obtain ⟨tables, htables⟩ : ∃ tables, pair.tables = some tables := ⟨_, rfl⟩
  obtain ⟨steps, hload⟩ : ∃ steps, Trace.load (callOf [0, 1, 7]) = .ok steps := ⟨_, rfl⟩
  obtain ⟨frames, hframes⟩ : ∃ frames, Frame.ofSteps steps = .ok frames := by
    cases hload
    exact ⟨_, rfl⟩
  have hlength : steps.length = 3 := by
    cases hload
    rfl
  have hruns : frames.all (isPassable {} tables) = true ∧
      (frames.map (·.replayed {} tables)).sum = 2 := by
    cases htables
    cases hload
    cases hframes
    decide +kernel
  obtain ⟨hpassable, hreplayed⟩ := hruns
  obtain ⟨-, haccounts⟩ := record_accounts {} pair (callOf [0, 1, 7])
  obtain ⟨-, hreports, hsum⟩ := haccounts tables steps frames htables hload hframes
  rw [if_pos hpassable, hreplayed, hlength] at hreports
  rw [hreplayed, hlength] at hsum
  exact ⟨tables, steps, frames, htables, hload, hframes, hreports, hsum⟩

/-- Two steps, of which the second has a program counter that cannot be looked up. -/
def halfReadable : Value := .list [.object [("pc", .int 0)], .object [("pc", .list [])]]

/-- Half of the steps match the only listing, and yet it is not found. -/
theorem not_found_halfReadable : ∃ tables f T, pair.tables = some tables ∧
    Trace.frames halfReadable = .ok [f] ∧ f.Chooses {} tables T ∧
      f.findTable {} tables = .error .wrongKind := by
  obtain ⟨tables, htables⟩ : ∃ tables, pair.tables = some tables := ⟨_, rfl⟩
  obtain ⟨f, hf⟩ : ∃ f, Trace.frames halfReadable = .ok [f] := ⟨_, rfl⟩
  have hsteps : f.steps ≠ [] := by
    cases hf
    exact nofun
  have hfound : (f.align {} tables).isSome = true ∧
      (f.isUnreadable && !(tables.candidates {}).isEmpty) = true := by
    cases htables
    cases hf
    decide +kernel
  obtain ⟨hsome, hunreadable⟩ := hfound
  obtain ⟨T, hT⟩ := Option.isSome_iff_exists.1 hsome
  exact ⟨tables, f, T, htables, hf, (Frame.align_eq_some_iff hsteps).1 hT, if_pos hunreadable⟩

end FileCoverage

end ContractCoverage
