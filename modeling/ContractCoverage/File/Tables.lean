import ContractCoverage.Code.Listing
import ContractCoverage.Data.KeyedList
import ContractCoverage.Fault
import ContractCoverage.Settings
import ContractCoverage.Trace.Frame

/-! Tables: the listings of a file, and the one that a call frame was executing.

Every contract has two listings, one for each of its codes, and they are put in order:
first the deployed codes by the names of their contracts, then the creation codes. A
frame aligns with the listing that matches most of its steps, the first of several,
provided it matches at least half of them. -/
namespace ContractCoverage

/-- The two listings of a contract. -/
structure Artifact where
  creation : Listing
  deployed : Listing

namespace Artifact

/-- One of the two listings. -/
def part (a : Artifact) : CodePart → Listing
  | .creation => a.creation
  | .deployed => a.deployed

/-- Changes one of the two listings. -/
def mapPart (a : Artifact) (p : CodePart) (f : Listing → Listing) : Artifact :=
  match p with
  | .creation => { a with creation := f a.creation }
  | .deployed => { a with deployed := f a.deployed }

end Artifact

/-- The contracts of a file with their listings. -/
abbrev Tables := KeyedList String Artifact

/-- A listing in its place. -/
structure Table where
  part : CodePart
  contract : String
  listing : Listing

namespace Tables

/-- The names of the contracts in order. -/
def names (t : Tables) : List String := t.keys.mergeSort fun a b => !(b < a)

/-- The listings of one part, in the order of the names of their contracts. -/
def ofPart (t : Tables) (part : CodePart) : List Table :=
  t.names.filterMap fun name => (t.get? name).map fun a => ⟨part, name, a.part part⟩

/-- All listings in order. -/
def inOrder (t : Tables) : List Table := t.ofPart .deployed ++ t.ofPart .creation

/-- The listings that are not empty. -/
def nonempty (t : Tables) : List Table := t.inOrder.filter (!·.listing.isEmpty)

/-- The listings that a frame may align with. -/
def candidates (s : Settings) (t : Tables) : List Table :=
  t.nonempty.filter fun table => table.part == .deployed || s.includeCreationCode

/-- Marks the instructions of a listing whose addresses are given. -/
def mark (t : Tables) (table : Table) (addresses : List Nat) : Tables :=
  t.adjust table.contract fun a =>
    a.mapPart table.part (·.mark fun e => addresses.contains e.instruction.address)

end Tables

/-! ### Alignment -/

/-- The instruction of a listing that a step executed, when its mnemonic is the right one. -/
def Listing.match? (s : Settings) (l : Listing) (step : Step) : Option Entry :=
  (l.entryAtCounter? step.pc).filter fun e =>
    !s.verifyOpcodes || step.op.all (· == e.instruction.mnemonic)

/-- The instructions of a listing that the steps of a frame executed. -/
def Listing.matches (s : Settings) (l : Listing) (f : Frame) : List Entry :=
  f.steps.filterMap (l.match? s)

/-- The first of those with the greatest score. -/
def firstBest {α : Type} (score : α → Nat) : List α → Option α
  | [] => none
  | a :: rest =>
    match firstBest score rest with
    | none => some a
    | some b => if score a < score b then some b else some a

namespace Frame

/-- Whether the program counter of some step cannot be looked up. -/
def isUnreadable (f : Frame) : Bool := f.steps.any (!·.pc.isScalar)

/-- The listing that a frame was executing. -/
def align (s : Settings) (t : Tables) (f : Frame) : Option Table :=
  (firstBest (fun table => (table.listing.matches s f).length) (t.candidates s)).filter
    fun table => f.size ≤ 2 * (table.listing.matches s f).length

end Frame

theorem mem_of_firstBest {α : Type} {score : α → Nat} {as : List α} {a : α}
    (h : firstBest score as = some a) : a ∈ as := by
  induction as with
  | nil => cases h
  | cons b bs ih =>
    rw [firstBest] at h
    split at h
    · cases h
      exact List.mem_cons_self ..
    · next c hc =>
      split at h <;> cases h
      · exact List.mem_cons_of_mem _ (ih hc)
      · exact List.mem_cons_self ..

theorem eq_nil_of_firstBest {α : Type} {score : α → Nat} {as : List α}
    (h : firstBest score as = none) : as = [] := by
  cases as with
  | nil => rfl
  | cons a as =>
    rw [firstBest] at h
    split at h
    · cases h
    · split at h <;> cases h

theorem le_of_firstBest {α : Type} {score : α → Nat} {as : List α} {a : α}
    (h : firstBest score as = some a) : ∀ b ∈ as, score b ≤ score a := by
  induction as generalizing a with
  | nil => cases h
  | cons c cs ih =>
    rw [firstBest] at h
    intro b hb
    split at h
    · next hn =>
      cases h
      rw [eq_nil_of_firstBest hn, List.mem_singleton] at hb
      exact hb ▸ Nat.le_refl _
    · next d hd =>
      rcases List.mem_cons.1 hb with rfl | hb
      · split at h <;> cases h <;> omega
      · have := ih hd b hb
        split at h <;> cases h <;> omega

end ContractCoverage
