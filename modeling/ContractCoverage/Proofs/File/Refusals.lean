import ContractCoverage.Proofs.Data.Chain
import ContractCoverage.Proofs.File.Visits

/-! Traces that are refused.

A trace may be refused before any of it has been followed, at a frame that cannot be
followed, or when all frames have been followed and their hits cannot be counted
(`Refused`). What has been followed by then leaves its marks, and marks are all that a
refused trace leaves: the total, the range table, the number of the file and everything
else in its listings stay what they were (`refused_keeps_total`). -/
namespace ContractCoverage

/-! ### More marks -/

/-- An entry is another one, which may have been marked since. -/
structure Entry.MarkedTo (e e' : Entry) : Prop where
  instruction : e'.instruction = e.instruction
  range : e'.range = e.range
  seen : e.seen = true → e'.seen = true

/-- A listing is another one, some entries of which may have been marked since. -/
structure Listing.MarkedTo (l l' : Listing) : Prop where
  code : l'.code = l.code
  entries : List.Forall₂ Entry.MarkedTo l.entries l'.entries

/-- The listings of a contract may have been marked since. -/
structure Artifact.MarkedTo (a a' : Artifact) : Prop where
  creation : a.creation.MarkedTo a'.creation
  deployed : a.deployed.MarkedTo a'.deployed

/-- The contracts are the same, in the same order, and their listings may have been marked since. -/
def Tables.MarkedTo (t t' : Tables) : Prop :=
  List.Forall₂ (fun e e' : String × Artifact => e'.1 = e.1 ∧ e.2.MarkedTo e'.2) t.entries t'.entries

theorem Listing.MarkedTo.refl (l : Listing) : l.MarkedTo l :=
  ⟨rfl, List.forall₂_same.2 fun _ _ => ⟨rfl, rfl, id⟩⟩

theorem Artifact.MarkedTo.refl (a : Artifact) : a.MarkedTo a := ⟨.refl _, .refl _⟩

theorem Tables.MarkedTo.refl (t : Tables) : t.MarkedTo t :=
  List.forall₂_same.2 fun _ _ => ⟨rfl, .refl _⟩

theorem Entry.MarkedTo.trans {a b c : Entry} (h : a.MarkedTo b) (h' : b.MarkedTo c) :
    a.MarkedTo c :=
  ⟨h'.instruction.trans h.instruction, h'.range.trans h.range, fun hseen => h'.seen (h.seen hseen)⟩

theorem Listing.MarkedTo.trans {a b c : Listing} (h : a.MarkedTo b) (h' : b.MarkedTo c) :
    a.MarkedTo c :=
  ⟨h'.code.trans h.code, forall₂_through h.entries h'.entries fun _ _ _ => Entry.MarkedTo.trans⟩

theorem Artifact.MarkedTo.trans {a b c : Artifact} (h : a.MarkedTo b) (h' : b.MarkedTo c) :
    a.MarkedTo c :=
  ⟨h.creation.trans h'.creation, h.deployed.trans h'.deployed⟩

theorem Tables.MarkedTo.trans {a b c : Tables} (h : a.MarkedTo b) (h' : b.MarkedTo c) :
    a.MarkedTo c :=
  forall₂_through h h' fun _ _ _ hab hbc => ⟨hbc.1.trans hab.1, hab.2.trans hbc.2⟩

theorem Listing.markedTo_mark (l : Listing) (p : Entry → Bool) : l.MarkedTo (l.mark p) := by
  refine ⟨rfl, List.forall₂_map_right_iff.2 (List.forall₂_same.2 fun e _ => ⟨rfl, rfl, ?_⟩)⟩
  intro hseen
  exact Bool.or_eq_true_iff.2 (.inl hseen)

theorem Artifact.markedTo_mapPart (a : Artifact) (part : CodePart) (p : Entry → Bool) :
    a.MarkedTo (a.mapPart part (·.mark p)) := by
  cases part with
  | creation => exact ⟨a.creation.markedTo_mark p, .refl _⟩
  | deployed => exact ⟨.refl _, a.deployed.markedTo_mark p⟩

namespace Replay

/-- A frame leaves marks and nothing else. -/
theorem Passage.markedTo_mark (p : Passage) (t : Tables) : t.MarkedTo (p.mark t) := by
  unfold Passage.mark
  cases p.table with
  | none => exact .refl t
  | some table =>
    refine List.forall₂_map_right_iff.2 (List.forall₂_same.2 fun e _ => ⟨rfl, ?_⟩)
    by_cases h : (e.1 == table.contract) = true
    · simp only [if_pos h]
      exact e.2.markedTo_mapPart ..
    · simp only [if_neg h]
      exact .refl e.2

/-- Any number of frames leave marks and nothing else. -/
theorem markedTo_markAll (passages : List Passage) (t : Tables) :
    t.MarkedTo (markAll passages t) := by
  induction passages generalizing t with
  | nil => exact .refl t
  | cons p passages ih => exact (p.markedTo_mark t).trans (ih (p.mark t))

end Replay

namespace FileCoverage
open Replay

/-! ### How far a refused trace comes -/

/-- A trace is refused for a fault when some of its frames have been followed. -/
inductive Refused (s : Settings) (file : FileCoverage) (trace : Value) :
    Fault → List Passage → Prop
  /-- There is no compiler output to follow a trace through. -/
  | notIngested (h : file.tables = none) : Refused s file trace .notIngested []
  /-- The trace has no frames, because the tracer reports an error or a step cannot be read. -/
  | unreadable {tables : Tables} {fault : Fault} (h : file.tables = some tables)
      (hframes : Trace.frames trace = .error fault) : Refused s file trace fault []
  /-- A frame cannot be followed, and it is the first. -/
  | atFrame {tables : Tables} {before after : List Frame} {f : Frame} {fault : ShapeFault}
      (h : file.tables = some tables) (hframes : Trace.frames trace = .ok (before ++ f :: after))
      (hbefore : ∀ g ∈ before, obstacle? s tables g = none)
      (hf : obstacle? s tables f = some fault) :
      Refused s file trace (.shape fault) (before.map (follow s tables))
  /-- All frames have been followed, but their hits cannot be counted. -/
  | atHits {tables : Tables} {frames : List Frame} {fault : Fault} (h : file.tables = some tables)
      (hframes : Trace.frames trace = .ok frames)
      (hall : ∀ f ∈ frames, obstacle? s tables f = none)
      (hhits : increment file (frames.map (follow s tables)) = .error fault) :
      Refused s file trace fault (frames.map (follow s tables))

/-- The first frame that cannot be followed, with the frames before it. -/
theorem exists_of_findSome? {s : Settings} {t : Tables} {frames : List Frame} {fault : ShapeFault}
    (h : frames.findSome? (obstacle? s t) = some fault) :
    ∃ before f after, frames = before ++ f :: after ∧ (∀ g ∈ before, obstacle? s t g = none) ∧
      obstacle? s t f = some fault ∧ frames.takeWhile (isPassable s t) = before := by
  obtain ⟨before, f, after, hframes, hf, hbefore⟩ := List.findSome?_eq_some_iff.1 h
  have hpassable : ∀ g ∈ before, isPassable s t g = true := fun g hg => by
    rw [isPassable, hbefore g hg]
    rfl
  have hstop : isPassable s t f = false := by
    rw [isPassable, hf]
    rfl
  refine ⟨before, f, after, hframes, hbefore, hf, ?_⟩
  rw [hframes, List.takeWhile_append_of_pos hpassable, List.takeWhile_cons_of_neg (by simp [hstop]),
    List.append_nil]

/-- A trace whose answer is a fault has been refused for it, and the frames that it has followed are
its passages. -/
theorem refused_of_result {s : Settings} {file : FileCoverage} {trace : Value} {fault : Fault}
    (h : (file.record s trace).result = .error fault) :
    Refused s file trace fault (file.passages s trace) := by
  have haddition : file.addition s trace = .error fault := by
    rw [record_result] at h
    cases ha : file.addition s trace with
    | error reason =>
      rw [ha] at h
      cases h
      rfl
    | ok added =>
      rw [ha] at h
      cases h
  unfold addition at haddition
  cases hr : file.refusal? s trace with
  | none =>
    obtain ⟨tables, frames, htables, hframes, hpassages⟩ := passages_of_refusal? hr
    rw [hr, hpassages] at haddition
    rw [hpassages]
    exact .atHits htables hframes ((refusal?_eq_none_iff htables hframes).1 hr) haddition
  | some reason =>
    rw [hr] at haddition
    cases haddition
    cases htables : file.tables with
    | none =>
      simp only [refusal?, htables, Option.some.injEq] at hr
      simp only [passages, htables]
      exact hr ▸ .notIngested htables
    | some tables =>
      rw [refusal?_of_tables htables] at hr
      rw [passages_of_tables htables]
      cases hframes : Trace.frames trace with
      | error reason =>
        rw [hframes] at hr
        cases hr
        exact .unreadable htables hframes
      | ok frames =>
        rw [hframes] at hr
        obtain ⟨shape, hshape, rfl⟩ := Option.map_eq_some_iff.1 hr
        obtain ⟨before, f, after, rfl, hbefore, hf, htake⟩ := exists_of_findSome? hshape
        simp only [htake]
        exact .atFrame htables hframes hbefore hf

/-- **A refused trace leaves the total alone.** Whatever a trace is refused for, what is left is the
file with the marks of the frames that have been followed by then. So its total, its range table and
its number are as they were, and so are its listings, except that entries may have been marked. -/
theorem refused_keeps_total {s : Settings} {file : FileCoverage} {trace : Value} {fault : Fault}
    (h : (file.record s trace).result = .error fault) :
    (∃ passages, Refused s file trace fault passages ∧
        (file.record s trace).state =
          { file with tables := file.tables.map (markAll passages) }) ∧
      (file.record s trace).state.coverage = file.coverage ∧
      (file.record s trace).state.resolver = file.resolver ∧
      (file.record s trace).state.sourceId = file.sourceId ∧
      Option.Rel Tables.MarkedTo file.tables (file.record s trace).state.tables := by
  have hcoverage := coverage_of_refused h
  have hstate := record_state s file trace
  have htables : Option.Rel Tables.MarkedTo file.tables (file.record s trace).state.tables := by
    rw [hstate]
    cases ht : file.tables with
    | none => exact .none
    | some tables => exact .some (markedTo_markAll _ tables)
  refine ⟨⟨file.passages s trace, refused_of_result h, ?_⟩, hcoverage, ?_, ?_, htables⟩
  · rw [hstate] at hcoverage ⊢
    exact congrArg (fun coverage => { file with
      tables := file.tables.map (markAll (file.passages s trace))
      coverage }) hcoverage
  · rw [hstate]
  · rw [hstate]

/-- A trace that calls on, with a program counter in the second frame that cannot be looked up. -/
def brokenCall : Value :=
  .list [.object [("pc", .int 0), ("depth", .int 1)],
    .object [("pc", .list []), ("depth", .int 2)]]

/-- The first frame leaves its mark, and nothing is counted. -/
theorem refused_keeps_total_broken :
    (pair.record {} brokenCall).result = .error (.shape .wrongKind) ∧
      (pair.record {} brokenCall).state.coverage = pair.coverage ∧
      ((pair.record {} brokenCall).state.tables.map fun t =>
        (t.get? "Pair").map (·.deployed.seenAddresses)) = some (some [0]) := by
  have hresult : (pair.record {} brokenCall).fault? = some (.shape .wrongKind) := by
    decide +kernel
  have hrefused := Outcome.fault?_eq_some.1 hresult
  refine ⟨hrefused, (refused_keeps_total hrefused).2.1, ?_⟩
  decide +kernel

end FileCoverage

end ContractCoverage
