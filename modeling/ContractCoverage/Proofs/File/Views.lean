import ContractCoverage.Proofs.File.Outlines

/-! Views of listings.

A trace is matched with a listing by addresses and mnemonics, and it counts for what the
ranges resolve to. A view may change anything else in every entry, and the text of the
code (`View`). It is an outline, so through any view frames align with the same listings
and execute the same instructions there, and as it keeps the ranges, these count for the
same targets (`targetsOf_entry`). -/
namespace ContractCoverage

/-- A way to look at listings that keeps whatever a trace is matched and counted by. -/
structure View where
  code : List Char → List Char
  entry : Entry → Entry
  address : ∀ e, (entry e).instruction.address = e.instruction.address
  mnemonic : ∀ e, (entry e).instruction.mnemonic = e.instruction.mnemonic
  range : ∀ e, (entry e).range = e.range

namespace View
variable (v : View)

/-- A listing as it is seen. -/
def listing (l : Listing) : Listing := ⟨v.code l.code, l.entries.map v.entry⟩

/-- The listings of a contract as they are seen. -/
def artifact (a : Artifact) : Artifact := ⟨v.listing a.creation, v.listing a.deployed⟩

/-- All listings as they are seen. -/
def tables (t : Tables) : Tables := t.map v.artifact

/-- A listing in its place as it is seen. -/
def table (t : Table) : Table := { t with listing := v.listing t.listing }

/-- A passage as it is seen. -/
def passage (p : Replay.Passage) : Replay.Passage :=
  ⟨p.frame, p.table.map v.table, p.entries.map v.entry⟩

/-- What a view keeps besides the ranges. -/
def outline : Outline := ⟨v.code, v.entry, v.address, v.mnemonic⟩

theorem inOrder_tables (t : Tables) : (v.tables t).inOrder = t.inOrder.map v.table :=
  v.outline.inOrder_tables t

theorem align_tables (s : Settings) (t : Tables) (f : Frame) :
    f.align s (v.tables t) = (f.align s t).map v.table :=
  v.outline.align_tables s t f

theorem targetsOf_entry (file : FileCoverage) (e : Entry) :
    file.targetsOf (v.outline.entry e) = file.targetsOf e := by
  show file.targetsOf (v.entry e) = _
  simp only [FileCoverage.targetsOf, v.range]

end View

end ContractCoverage
