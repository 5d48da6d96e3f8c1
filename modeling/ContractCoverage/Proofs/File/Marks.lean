import ContractCoverage.Proofs.File.Views

/-! Tables without their marks.

A mark says that an instruction has been executed and nothing else: to leave the marks
away is a view of the listings, so alignment, the instructions that a frame executed and
what they count for are those of the tables with all marks taken off. So the marks that
one trace leaves are not seen by the next one. Marking itself only ever adds marks, so it
may happen in any order. -/
namespace ContractCoverage

/-! ### Taking off the marks -/

/-- An entry without its mark. -/
def Entry.unmarked (e : Entry) : Entry := { e with seen := false }

/-- A listing without its marks. -/
def Listing.unmarked (l : Listing) : Listing := { l with entries := l.entries.map Entry.unmarked }

/-- The listings of a contract without their marks. -/
def Artifact.unmarked (a : Artifact) : Artifact := ⟨a.creation.unmarked, a.deployed.unmarked⟩

/-- All listings without their marks. -/
def Tables.unmarked (t : Tables) : Tables := t.map Artifact.unmarked

/-- A listing in its place without its marks. -/
def Table.unmarked (t : Table) : Table := { t with listing := t.listing.unmarked }

/-- A passage without the marks that its entries had. -/
def Replay.Passage.unmarked (p : Passage) : Passage :=
  ⟨p.frame, p.table.map Table.unmarked, p.entries.map Entry.unmarked⟩

/-- Listings may be looked at without their marks. -/
def View.unmarked : View where
  code := id
  entry := Entry.unmarked
  address _ := rfl
  mnemonic _ := rfl
  range _ := rfl

theorem Tables.inOrder_unmarked (t : Tables) : t.unmarked.inOrder = t.inOrder.map Table.unmarked :=
  View.unmarked.inOrder_tables t

/-! ### Marking -/

namespace Listing

theorem isEmpty_unmarked (l : Listing) : l.unmarked.isEmpty = l.isEmpty :=
  List.isEmpty_map

theorem unmarked_mark (l : Listing) (p : Entry → Bool) : (l.mark p).unmarked = l.unmarked := by
  simp [unmarked, mark, Entry.unmarked, Function.comp_def]

/-- Conditions that do not look at marks may be marked for in either order. -/
theorem mark_comm (l : Listing) {p q : Instruction → Bool} :
    (l.mark fun e => p e.instruction).mark (fun e => q e.instruction) =
      (l.mark fun e => q e.instruction).mark fun e => p e.instruction := by
  simp only [mark, List.map_map, Function.comp_def, Bool.or_assoc, Bool.or_comm (p _)]

end Listing

namespace Replay

theorem unmarked_mark (p : Passage) (t : Tables) : (p.mark t).unmarked = t.unmarked := by
  unfold Passage.mark
  cases p.table with
  | none => rfl
  | some table =>
    apply KeyedList.ext_entries
    simp only [Tables.unmarked, Tables.mark, KeyedList.adjust, KeyedList.map, List.map_map]
    congr 1
    funext e
    simp only [Function.comp_apply]
    split
    · cases table.part <;> simp only [Artifact.mapPart, Artifact.unmarked, Listing.unmarked_mark]
    · rfl

/-- Passages may leave their marks in either order. -/
theorem mark_comm (p q : Passage) (t : Tables) : p.mark (q.mark t) = q.mark (p.mark t) := by
  unfold Passage.mark
  cases p.table with
  | none => rfl
  | some a =>
    cases q.table with
    | none => rfl
    | some b =>
      apply KeyedList.ext_entries
      simp only [Tables.mark, KeyedList.adjust, List.map_map]
      congr 1
      funext e
      have hparts : ∀ (artifact : Artifact) (x y : CodePart) (f g : Instruction → Bool),
          (artifact.mapPart x (·.mark fun e => f e.instruction)).mapPart y
              (·.mark fun e => g e.instruction) =
            (artifact.mapPart y (·.mark fun e => g e.instruction)).mapPart x
              (·.mark fun e => f e.instruction) := by
        intro artifact x y f g
        cases x <;> cases y <;> simp only [Artifact.mapPart, Listing.mark_comm]
      simp only [Function.comp_apply]
      by_cases ha : (e.1 == a.contract) = true <;> by_cases hb : (e.1 == b.contract) = true
      · simp only [ha, hb, if_true]
        exact congrArg _ (hparts e.2 b.part a.part
          (fun i => (q.entries.map (·.instruction.address)).contains i.address)
          fun i => (p.entries.map (·.instruction.address)).contains i.address)
      all_goals simp [ha, hb]

/-! ### Marks of one contract -/

/-- Whether a frame executed the instruction at an address of a code. -/
def Passage.marks (p : Passage) (part : CodePart) (contract : String) (address : Nat) : Bool :=
  p.table.any (fun table => table.part == part && table.contract == contract) &&
    (p.entries.map (·.instruction.address)).contains address

end Replay

/-- Marks the instructions of a contract whose addresses are given for each of its codes. -/
def Artifact.mark (a : Artifact) (f : CodePart → Nat → Bool) : Artifact :=
  ⟨a.creation.mark fun e => f .creation e.instruction.address,
    a.deployed.mark fun e => f .deployed e.instruction.address⟩

theorem Listing.mark_none (l : Listing) : (l.mark fun _ => false) = l := by
  simp [mark]

/-- Marking twice leaves the marks of both. -/
theorem Artifact.mark_mark (a : Artifact) (f g : CodePart → Nat → Bool) :
    (a.mark f).mark g = a.mark fun part address => f part address || g part address := by
  simp only [mark, Listing.mark, List.map_map, Function.comp_def, Bool.or_assoc]

theorem Artifact.mark_none (a : Artifact) : (a.mark fun _ _ => false) = a := by
  simp only [mark, Listing.mark_none]

namespace Replay

/-- What a passage does to the codes of one contract. -/
theorem get?_mark (p : Passage) (t : Tables) (contract : String) :
    (p.mark t).get? contract =
      (t.get? contract).map (·.mark fun part => p.marks part contract) := by
  unfold Passage.mark Passage.marks
  match p.table with
  | none => simp [Artifact.mark_none]
  | some table =>
    refine (KeyedList.get?_adjust t table.contract contract _).trans ?_
    congr 1
    funext a
    by_cases h : contract = table.contract
    · rw [if_pos (beq_iff_eq.2 h), h]
      simp only [Artifact.mapPart, Artifact.mark, Option.any_some, BEq.rfl, Bool.and_true]
      cases table.part with
      | creation => exact congrArg (Artifact.mk _) (Listing.mark_none a.deployed).symm
      | deployed => exact congrArg (Artifact.mk · _) (Listing.mark_none a.creation).symm
    · have hne : (table.contract == contract) = false := by simpa using Ne.symm h
      rw [if_neg (by simpa using h)]
      simp [hne, Artifact.mark_none]

end Replay

end ContractCoverage
