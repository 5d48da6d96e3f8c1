import ContractCoverage.Code.Bytecode
import ContractCoverage.Code.Instruction
import ContractCoverage.Data.Value
import ContractCoverage.Source.Range

/-! Listings: the instructions of a code with their source ranges.

The k-th instruction has the k-th range of the source map, and operands take no
place in the map. An instruction beyond the end of the map has the empty range.
Instructions are found by their address, which is the program counter of a trace; a
mark on an instruction says that it has been executed. -/
namespace ContractCoverage

/-- An instruction with its source range and its mark. -/
structure Entry where
  instruction : Instruction
  range : Range
  seen : Bool := false
  deriving DecidableEq, Repr

/-- The text of an entry. -/
def Entry.write (e : Entry) : String :=
  "<InstructionEntry " ++ toString e.instruction.address ++ " " ++ e.instruction.mnemonic ++
    " '" ++ e.range.write ++ "'" ++ (if e.seen then " seen>" else ">")

/-- A code in the form it was given, and its entries in code order. -/
structure Listing where
  code : List Char
  entries : List Entry

namespace Listing

/-- Instructions with the ranges of a source map, one each as far as they go. -/
def pair : List Instruction → List Range → List Entry
  | [], _ => []
  | i :: is, [] => ⟨i, .empty, false⟩ :: pair is []
  | i :: is, r :: rs => ⟨i, r, false⟩ :: pair is rs

/-- The listing of a code text and the bytes it stands for. -/
def ofBytes (code : List Char) (bytes : List UInt8) (ranges : List Range) : Listing :=
  ⟨code, pair (Instruction.walk bytes) ranges⟩

/-- The number of instructions. -/
def size (l : Listing) : Nat := l.entries.length

/-- Whether there are no instructions. -/
def isEmpty (l : Listing) : Bool := l.entries.isEmpty

/-- The place of the instruction that starts at an address. -/
def indexOf? (l : Listing) (address : Int) : Option Nat :=
  l.entries.findIdx? fun e => (e.instruction.address : Int) == address

/-- The instruction that starts at an address. -/
def entryAt? (l : Listing) (address : Int) : Option Entry :=
  l.entries.find? fun e => (e.instruction.address : Int) == address

/-- The entry at a place; a negative place counts from the end. -/
def entry? (l : Listing) (place : Int) : Option Entry :=
  if 0 ≤ place then l.entries[place.toNat]?
  else if -place ≤ l.size then l.entries[l.size - (-place).toNat]?
  else none

/-- The instruction that a program counter points to, which is a number of any kind. -/
def entryAtCounter? (l : Listing) (pc : Value) : Option Entry :=
  pc.int?.bind l.entryAt?

/-- Marks the instructions whose addresses satisfy a condition. -/
def mark (l : Listing) (p : Entry → Bool) : Listing :=
  { l with entries := l.entries.map fun e => { e with seen := e.seen || p e } }

/-- The addresses of the marked instructions. -/
def seenAddresses (l : Listing) : List Nat :=
  (l.entries.filter (·.seen)).map (·.instruction.address)

/-- The number of marked instructions. -/
def seenCount (l : Listing) : Nat := l.entries.countP (·.seen)

/-- The hash of the code, with its placeholders filled in. -/
def hash (l : Listing) (keccak : List UInt8 → List UInt8 := Keccak.hash) : String :=
  Bytecode.hashText (Placeholder.link l.code) keccak

@[simp] theorem length_pair (is : List Instruction) (rs : List Range) :
    (pair is rs).length = is.length := by
  induction is generalizing rs with
  | nil => rfl
  | cons i is ih => cases rs <;> simp [pair, ih]

theorem map_instruction_pair (is : List Instruction) (rs : List Range) :
    (pair is rs).map (·.instruction) = is := by
  induction is generalizing rs with
  | nil => rfl
  | cons i is ih => cases rs <;> simp [pair, ih]

@[simp] theorem size_mark (l : Listing) (p : Entry → Bool) : (l.mark p).size = l.size := by
  simp [mark, size]

end Listing

end ContractCoverage
