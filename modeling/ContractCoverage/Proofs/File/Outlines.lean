import ContractCoverage.File.Replay
import ContractCoverage.Proofs.Data.Lookup

/-! What a trace is matched by.

A trace is matched with a listing by addresses and mnemonics. An outline may change
anything else in every entry, and the text of the code (`Outline`). Through any outline
frames align with the same listings (`align_tables`) and execute the same instructions
there (`follow_tables`), and they leave the same marks (`mark_passage`). They also count
for the same targets when the outline does not change what an entry counts for
(`increment_passages`).

Nor does it matter in which order the contracts have come: the listings are put in the
order of their names (`inOrder_congr`). -/
namespace ContractCoverage

theorem firstBest_map {α β : Type} (g : α → β) (score : β → Nat) (as : List α) :
    firstBest score (as.map g) = (firstBest (score ∘ g) as).map g := by
  induction as with
  | nil => rfl
  | cons a as ih =>
    rw [List.map_cons, firstBest, firstBest, ih]
    cases firstBest (score ∘ g) as with
    | none => rfl
    | some b => simp only [Option.map_some, Function.comp_apply]; split <;> rfl

/-- A way to look at listings that keeps whatever a trace is matched by. -/
structure Outline where
  code : List Char → List Char
  entry : Entry → Entry
  address : ∀ e, (entry e).instruction.address = e.instruction.address
  mnemonic : ∀ e, (entry e).instruction.mnemonic = e.instruction.mnemonic

namespace Outline
variable (o : Outline)

/-! ### Listings -/

/-- A listing as it is seen. -/
def listing (l : Listing) : Listing := ⟨o.code l.code, l.entries.map o.entry⟩

theorem isEmpty_listing (l : Listing) : (o.listing l).isEmpty = l.isEmpty :=
  List.isEmpty_map

theorem entryAt?_listing (l : Listing) (address : Int) :
    (o.listing l).entryAt? address = (l.entryAt? address).map o.entry := by
  have hfind : (fun e : Entry => (e.instruction.address : Int) == address) ∘ o.entry =
      fun e => (e.instruction.address : Int) == address := by
    funext e
    rw [Function.comp_apply, o.address]
  rw [Listing.entryAt?, listing, List.find?_map, hfind]
  rfl

theorem match?_listing (s : Settings) (l : Listing) (step : Step) :
    (o.listing l).match? s step = (l.match? s step).map o.entry := by
  have hcounter : (o.listing l).entryAtCounter? step.pc =
      (l.entryAtCounter? step.pc).map o.entry := by
    unfold Listing.entryAtCounter?
    cases step.pc.int? with
    | none => rfl
    | some address => exact o.entryAt?_listing l address
  rw [Listing.match?, hcounter, Listing.match?]
  cases l.entryAtCounter? step.pc with
  | none => rfl
  | some e =>
    simp only [Option.map_some, Option.filter, o.mnemonic]
    split <;> rfl

theorem matches_listing (s : Settings) (l : Listing) (f : Frame) :
    (o.listing l).matches s f = (l.matches s f).map o.entry := by
  rw [Listing.matches, Listing.matches, List.map_filterMap]
  congr 1
  funext step
  exact o.match?_listing s l step

/-! ### Alignment -/

/-- The listings of a contract as they are seen. -/
def artifact (a : Artifact) : Artifact := ⟨o.listing a.creation, o.listing a.deployed⟩

/-- All listings as they are seen. -/
def tables (t : Tables) : Tables := t.map o.artifact

/-- A listing in its place as it is seen. -/
def table (t : Table) : Table := { t with listing := o.listing t.listing }

theorem ofPart_tables (t : Tables) (part : CodePart) :
    (o.tables t).ofPart part = (t.ofPart part).map o.table := by
  have hnames : (o.tables t).names = t.names := by
    rw [Tables.names, Tables.names, tables, KeyedList.keys_map]
  rw [Tables.ofPart, Tables.ofPart, hnames, List.map_filterMap]
  congr 1
  funext name
  rw [tables, KeyedList.get?_map]
  cases t.get? name with
  | none => rfl
  | some a => cases part <;> rfl

theorem inOrder_tables (t : Tables) : (o.tables t).inOrder = t.inOrder.map o.table := by
  rw [Tables.inOrder, Tables.inOrder, ofPart_tables, ofPart_tables, List.map_append]

theorem candidates_tables (s : Settings) (t : Tables) :
    (o.tables t).candidates s = (t.candidates s).map o.table := by
  have hempty : (fun table : Table => !table.listing.isEmpty) ∘ o.table =
      fun table => !table.listing.isEmpty := by
    funext table
    exact congrArg _ (o.isEmpty_listing table.listing)
  rw [Tables.candidates, Tables.candidates, Tables.nonempty, Tables.nonempty, inOrder_tables,
    List.filter_map, hempty, List.filter_map]
  rfl

theorem align_tables (s : Settings) (t : Tables) (f : Frame) :
    f.align s (o.tables t) = (f.align s t).map o.table := by
  have hscore : (fun table : Table => (table.listing.matches s f).length) ∘ o.table =
      fun table => (table.listing.matches s f).length := by
    funext table
    show ((o.listing table.listing).matches s f).length = _
    rw [matches_listing, List.length_map]
  rw [Frame.align, Frame.align, candidates_tables, firstBest_map, hscore]
  cases firstBest (fun table : Table => (table.listing.matches s f).length) (t.candidates s) with
  | none => rfl
  | some table =>
    have hlength : ((o.table table).listing.matches s f).length =
        (table.listing.matches s f).length := congrFun hscore table
    simp only [Option.map_some, Option.filter, hlength]
    split <;> rfl

/-! ### Passages -/

open Replay

/-- A passage as it is seen. -/
def passage (p : Passage) : Passage := ⟨p.frame, p.table.map o.table, p.entries.map o.entry⟩

theorem follow_tables (s : Settings) (t : Tables) (f : Frame) :
    follow s (o.tables t) f = o.passage (follow s t f) := by
  rw [follow, follow, align_tables]
  cases f.align s t with
  | none => rfl
  | some table =>
    show Passage.mk f (some (o.table table)) ((o.listing table.listing).matches s f) = _
    rw [matches_listing]
    rfl

theorem obstacle?_tables (s : Settings) (t : Tables) (f : Frame) :
    obstacle? s (o.tables t) f = obstacle? s t f := by
  simp only [obstacle?, candidates_tables, align_tables, List.isEmpty_map, Option.isNone_map]

theorem isPassable_tables (s : Settings) (t : Tables) :
    isPassable s (o.tables t) = isPassable s t := by
  funext f
  rw [isPassable, isPassable, obstacle?_tables]

/-- What the passages of a trace add is the same however their entries are seen, when these count
for the same targets. -/
theorem increment_passages {file : FileCoverage}
    (h : ∀ e, file.targetsOf (o.entry e) = file.targetsOf e) (passages : List Passage) :
    increment file (passages.map o.passage) = increment file passages := by
  have htargets : file.targetsOf ∘ o.entry = file.targetsOf := funext h
  have hsightings : (passages.map o.passage).flatMap (·.sightings file) =
      passages.flatMap (·.sightings file) := by
    rw [List.flatMap_map]
    congr 1
    funext p
    rw [Passage.sightings, passage, List.map_map, htargets]
    rfl
  rw [increment, increment, hits, hits, hsightings]

/-! ### Marks -/

/-- A passage leaves the same marks however it is seen. -/
theorem mark_passage (p : Passage) : (o.passage p).mark = p.mark := by
  have haddresses : (fun e : Entry => e.instruction.address) ∘ o.entry =
      fun e => e.instruction.address := by
    funext e
    exact o.address e
  funext t
  unfold Passage.mark passage
  cases p.table with
  | none => rfl
  | some table =>
    simp only [Option.map_some, List.map_map, haddresses]
    rfl

/-- Marks are kept as they are. -/
def KeepsMarks : Prop :=
  ∀ (e : Entry) (seen : Bool), o.entry { e with seen } = { o.entry e with seen }

section Marks
variable {o} (h : o.KeepsMarks)
include h

theorem KeepsMarks.seen (e : Entry) : (o.entry e).seen = e.seen := congrArg (·.seen) (h e e.seen)

theorem KeepsMarks.listing_mark (l : Listing) (p : Nat → Bool) :
    o.listing (l.mark fun e => p e.instruction.address) =
      (o.listing l).mark fun e => p e.instruction.address := by
  simp only [listing, Listing.mark, List.map_map, Listing.mk.injEq, true_and]
  congr 1
  funext e
  rw [Function.comp_apply, Function.comp_apply, h e, o.address, h.seen]

/-- A passage leaves its marks before the listings are looked at or afterwards. -/
theorem KeepsMarks.tables_mark (p : Passage) (t : Tables) :
    o.tables (p.mark t) = p.mark (o.tables t) := by
  unfold Passage.mark
  cases p.table with
  | none => rfl
  | some table =>
    apply KeyedList.ext_entries
    simp only [tables, Tables.mark, KeyedList.adjust, KeyedList.map, List.map_map]
    congr 1
    funext e
    have hmark : ∀ l : Listing, o.listing
          (l.mark fun e => (p.entries.map (·.instruction.address)).contains e.instruction.address) =
        (o.listing l).mark fun e =>
          (p.entries.map (·.instruction.address)).contains e.instruction.address :=
      fun l => h.listing_mark l (p.entries.map (·.instruction.address)).contains
    simp only [Function.comp_apply]
    split
    · cases table.part <;> simp only [Artifact.mapPart, artifact, hmark]
    · rfl

end Marks

end Outline

/-! ### Contracts in another order -/

/-- The names of the contracts are in order. -/
theorem Tables.pairwise_names (t : Tables) : t.names.Pairwise fun a b => a ≤ b := by
  have hle : ∀ a b : String, (!decide (b < a)) = true ↔ a ≤ b := by
    intro a b
    rw [Bool.not_eq_true', decide_eq_false_iff_not]
    exact String.not_lt
  exact (List.pairwise_mergeSort (fun a b c => by simpa only [hle] using String.le_trans)
    (fun a b => by simpa only [Bool.or_eq_true, hle] using String.le_total a b) t.keys).imp
      fun hab => (hle _ _).1 hab

section Order
variable {t t' : Tables} (h : t.get? = t'.get?)
include h

theorem Tables.names_congr : t.names = t'.names := by
  have hkeys : t.keys.Perm t'.keys := by
    rw [List.perm_ext_iff_of_nodup t.nodup_keys t'.nodup_keys]
    intro name
    have hcontains : t.contains name = t'.contains name :=
      congrArg Option.isSome (congrFun h name)
    rw [KeyedList.contains_eq_any_keys, KeyedList.contains_eq_any_keys, List.any_beq',
      List.any_beq'] at hcontains
    rw [← List.contains_iff_mem, hcontains, List.contains_iff_mem]
  exact List.Perm.eq_of_pairwise (fun a b _ _ => String.le_antisymm) t.pairwise_names
    t'.pairwise_names (((List.mergeSort_perm ..).trans hkeys).trans (List.mergeSort_perm ..).symm)

theorem Tables.inOrder_congr : t.inOrder = t'.inOrder := by
  simp only [inOrder, ofPart, names_congr h, h]

theorem Tables.candidates_congr (s : Settings) : t.candidates s = t'.candidates s := by
  rw [candidates, candidates, nonempty, nonempty, inOrder_congr h]

theorem Frame.align_congr (s : Settings) (f : Frame) : f.align s t = f.align s t' := by
  rw [align, align, Tables.candidates_congr h]

theorem Replay.follow_congr (s : Settings) : follow s t = follow s t' := by
  funext f
  rw [follow, follow, Frame.align_congr h]

theorem Replay.obstacle?_congr (s : Settings) : obstacle? s t = obstacle? s t' := by
  funext f
  simp only [obstacle?, Tables.candidates_congr h, Frame.align_congr h]

end Order

end ContractCoverage
