import ContractCoverage.Code.Disassembly
import ContractCoverage.Proofs.Code.Tiling
import ContractCoverage.Proofs.Data.Chain

/-! Finding instructions by their address.

A listing is made of a walk and of the ranges of a source map, which are counted off
against each other: the k-th instruction has the k-th range, however many bytes the
instructions before it cover (`getElem?_pair`). The addresses of a walk ascend, so the place
of an instruction is the number of instructions that start before it
(`countP_lt_address`), and an address at which none starts lies in the operand of a push or
outside of the code (`exists_address_iff`).

`lookup_exact` puts this together for a listing read from two texts. -/
namespace ContractCoverage

/-! ### Addresses of a walk -/

namespace Instruction

/-- As many instructions start before an instruction as stand in front of it. -/
theorem countP_lt_address {is : List Instruction}
    (h : is.Pairwise fun i j => i.address < j.address) {k : Nat} {i : Instruction}
    (hk : is[k]? = some i) : is.countP (fun j => (j.address : Int) < i.address) = k := by
  induction is generalizing k with
  | nil => cases hk
  | cons first is ih =>
    obtain ⟨hfirst, hrest⟩ := List.pairwise_cons.1 h
    cases k with
    | zero =>
      cases hk
      rw [List.countP_eq_zero]
      refine List.forall_mem_cons.2 ⟨by simp, fun j hj => ?_⟩
      have hlt := hfirst j hj
      simp only [decide_eq_true_eq]
      omega
    | succ k =>
      have hlt := hfirst i (List.mem_of_getElem? hk)
      rw [List.countP_cons_of_pos (by simpa using hlt), ih hrest hk]

/-- An instruction is found at its address, and at no other. -/
theorem findIdx?_address_eq_some_iff {is : List Instruction}
    (h : is.Pairwise fun i j => i.address < j.address) {address : Int} {k : Nat} :
    is.findIdx? (fun i => (i.address : Int) == address) = some k ↔
      ∃ i, is[k]? = some i ∧ (i.address : Int) = address := by
  rw [List.findIdx?_eq_some_iff_getElem]
  constructor
  · rintro ⟨hk, hfound, -⟩
    exact ⟨is[k], List.getElem?_eq_getElem hk, beq_iff_eq.1 hfound⟩
  · rintro ⟨i, hi, haddress⟩
    obtain ⟨hk, rfl⟩ := List.getElem?_eq_some_iff.1 hi
    refine ⟨hk, beq_iff_eq.2 haddress, fun j hj => ?_⟩
    have hlt := List.pairwise_iff_getElem.1 h j k (Nat.lt_trans hj hk) hk hj
    rw [beq_iff_eq]
    omega

/-- An instruction starts at an address of a code unless the address is in the operand of one. -/
theorem exists_address_iff {code : List UInt8} {address : Nat} (h : address < code.length) :
    (∃ i ∈ walk code, i.address = address) ↔
      ¬ ∃ i ∈ walk code, i.address < address ∧ address < i.stop code := by
  have hwalked := walked_walk code
  constructor
  · rintro ⟨j, hj, rfl⟩ ⟨i, hi, hlt, hstop⟩
    obtain ⟨k, hk⟩ := List.getElem?_of_mem hi
    obtain ⟨l, hl⟩ := List.getElem?_of_mem hj
    -- Both instructions cover the address of the second one, so they are the same.
    have heq := eq_of_covers hk hl ⟨Nat.le_of_lt hlt, hstop⟩
      ⟨Nat.le_refl _, (hwalked.standsIn j hj).lt_stop⟩
    rw [heq, hl] at hk
    cases hk
    exact Nat.lt_irrefl _ hlt
  · intro hnone
    obtain ⟨i, hi, hle, hstop⟩ := hwalked.exists_covers (Nat.zero_le address) h
    rcases Nat.lt_or_eq_of_le hle with hlt | heq
    · exact absurd ⟨i, hi, hlt, hstop⟩ hnone
    · exact ⟨i, hi, heq⟩

end Instruction

namespace Listing
open Instruction (walk)

/-! ### Instructions and ranges -/

theorem getElem?_pair (is : List Instruction) (ranges : List Range) (k : Nat) :
    (pair is ranges)[k]? = is[k]?.map fun i => ⟨i, ranges[k]?.getD .empty, false⟩ := by
  induction is generalizing ranges k with
  | nil => rfl
  | cons i is ih => cases ranges <;> cases k <;> simp [pair, ih]

/-- Ranges beyond the last instruction make no difference. -/
theorem pair_take (is : List Instruction) (ranges : List Range) :
    pair is (ranges.take is.length) = pair is ranges := by
  induction is generalizing ranges with
  | nil => rfl
  | cons i is ih => cases ranges <;> simp [pair, ih]

/-- A listing can be made of two texts when both can be read, and is made of what they stand for. -/
theorem ofText_eq_ok_iff {code map : List Char} {l : Listing} :
    ofText code map = .ok l ↔ ∃ ranges bytes, SourceMap.decode map = .ok ranges ∧
      Bytecode.decode code = .ok bytes ∧ l = ofBytes code bytes ranges := by
  unfold ofText readTexts
  cases SourceMap.decode map with
  | error fault =>
    constructor
    · exact nofun
    · rintro ⟨_, _, ⟨⟩, -⟩
  | ok ranges =>
    cases Bytecode.decode code with
    | error fault =>
      constructor
      · exact nofun
      · rintro ⟨_, _, -, ⟨⟩, -⟩
    | ok bytes =>
      constructor
      · intro h
        cases h
        exact ⟨ranges, bytes, rfl, rfl, rfl⟩
      · rintro ⟨_, _, ⟨⟩, ⟨⟩, rfl⟩
        rfl

/-! ### What is found -/

/-- What is found at an address of a listing, said with the bytes and the ranges it is made of. -/
structure Answers (l : Listing) (bytes : List UInt8) (ranges : List Range) (address : Int) :
    Prop where
  place : ∀ k, l.indexOf? address = some k ↔
    ∃ i, (walk bytes)[k]? = some i ∧ (i.address : Int) = address
  nowhere : l.indexOf? address = none ↔ address < 0 ∨ bytes.length ≤ address ∨
    ∃ i ∈ walk bytes, (i.address : Int) < address ∧ address < i.stop bytes
  entry : ∀ k, l.indexOf? address = some k → ∃ i, (walk bytes)[k]? = some i ∧
    k = (walk bytes).countP (fun j => (j.address : Int) < address) ∧
    l.entryAt? address = some ⟨i, ranges[k]?.getD .empty, false⟩
  noEntry : l.indexOf? address = none → l.entryAt? address = none

section Find
variable (code : List Char) (bytes : List UInt8) (ranges : List Range) (address : Int)

theorem indexOf?_ofBytes : (ofBytes code bytes ranges).indexOf? address =
    (walk bytes).findIdx? fun i => (i.address : Int) == address := by
  rw [← map_instruction_pair (walk bytes) ranges, List.findIdx?_map]
  rfl

theorem entryAt?_eq_bind (l : Listing) :
    l.entryAt? address = (l.indexOf? address).bind (l.entries[·]?) :=
  List.find?_eq_bind_findIdx?_getElem?

/-- Nothing is found in front of the code, behind it and in operands. -/
theorem indexOf?_ofBytes_eq_none_iff : (ofBytes code bytes ranges).indexOf? address = none ↔
    address < 0 ∨ bytes.length ≤ address ∨
      ∃ i ∈ walk bytes, (i.address : Int) < address ∧ address < i.stop bytes := by
  rw [indexOf?_ofBytes, List.findIdx?_eq_none_iff]
  simp only [beq_eq_false_iff_ne]
  by_cases hinside : 0 ≤ address ∧ address < bytes.length
  · obtain ⟨n, rfl⟩ := Int.eq_ofNat_of_zero_le hinside.1
    have hiff := Instruction.exists_address_iff (Int.ofNat_lt.1 hinside.2)
    have hleft : ¬ ((n : Int) < 0) := by omega
    have hright : ¬ ((bytes.length : Int) ≤ n) := by omega
    simp only [hleft, hright, false_or, Int.ofNat_lt, ne_eq, Int.ofNat_inj]
    rw [← not_iff_not, ← hiff]
    simp only [not_forall, not_not, exists_prop]
  · have houtside : ∀ i ∈ walk bytes, (i.address : Int) ≠ address := by
      intro i hi
      have hlt := ((Instruction.walked_walk bytes).standsIn i hi).lt_length
      omega
    refine iff_of_true houtside ?_
    omega

/-- What a listing answers for an address. -/
theorem answers_ofBytes : (ofBytes code bytes ranges).Answers bytes ranges address := by
  have hascending := Instruction.pairwise_walkFrom 0 bytes
  have hplace : ∀ k, (ofBytes code bytes ranges).indexOf? address = some k ↔
      ∃ i, (walk bytes)[k]? = some i ∧ (i.address : Int) = address := by
    intro k
    rw [indexOf?_ofBytes]
    exact Instruction.findIdx?_address_eq_some_iff hascending
  refine ⟨hplace, indexOf?_ofBytes_eq_none_iff code bytes ranges address, ?_, ?_⟩
  · intro k hk
    obtain ⟨i, hi, rfl⟩ := (hplace k).1 hk
    refine ⟨i, hi, (Instruction.countP_lt_address hascending hi).symm, ?_⟩
    rw [entryAt?_eq_bind, hk]
    show (pair (walk bytes) ranges)[k]? = _
    rw [getElem?_pair, hi]
    rfl
  · intro hnone
    rw [entryAt?_eq_bind, hnone]
    rfl

end Find

/-- **Addresses find the right instruction and range.** A listing read from the texts of a code and
of a source map finds at an address the instruction that starts there, with the range of the map that
is counted off for it, and nothing where none starts; what the map has beyond the last instruction
changes nothing. -/
theorem lookup_exact {code map : List Char} {l : Listing}
    (h : (disassemble code map).result = .ok l) :
    ∃ bytes ranges, Bytecode.decode code = .ok bytes ∧ SourceMap.decode map = .ok ranges ∧
      (∀ address, l.Answers bytes ranges address) ∧
      l = ofBytes code bytes (ranges.take (walk bytes).length) := by
  rw [result_disassemble] at h
  obtain ⟨ranges, bytes, hranges, hbytes, rfl⟩ := ofText_eq_ok_iff.1 h
  refine ⟨bytes, ranges, hbytes, hranges, answers_ofBytes code bytes ranges, ?_⟩
  rw [ofBytes, ofBytes, pair_take]

/-- Two pushes and a store, with a map that says nothing of the store. -/
theorem lookup_exact_pushes : ∃ l bytes ranges,
    (disassemble "6080604052".toList "1:2:0;3:4".toList).result = .ok l ∧
      (∀ address, l.Answers bytes ranges address) ∧
      (l.indexOf? 2, l.indexOf? 3, l.indexOf? 4) = (some 1, none, some 2) ∧
      (l.entryAt? 2).map (·.write) = some "<InstructionEntry 2 PUSH1 '3:4:0'>" ∧
      (l.entryAt? 4).map (·.write) = some "<InstructionEntry 4 MSTORE ''>" := by
  have hread : (disassemble "6080604052".toList "1:2:0;3:4".toList).result.toOption.map (fun l =>
      ((l.indexOf? 2, l.indexOf? 3, l.indexOf? 4), (l.entryAt? 2).map (·.write),
        (l.entryAt? 4).map (·.write))) = some ((some 1, none, some 2),
          some "<InstructionEntry 2 PUSH1 '3:4:0'>", some "<InstructionEntry 4 MSTORE ''>") := by
    decide +kernel
  cases h : (disassemble "6080604052".toList "1:2:0;3:4".toList).result with
  | error fault =>
    rw [h] at hread
    cases hread
  | ok l =>
    obtain ⟨bytes, ranges, -, -, hanswers, -⟩ := lookup_exact h
    rw [h] at hread
    simp only [Except.toOption, Option.map_some, Option.some.injEq, Prod.mk.injEq] at hread
    exact ⟨l, bytes, ranges, rfl, hanswers, by rw [hread.1.1, hread.1.2.1, hread.1.2.2],
      hread.2.1, hread.2.2⟩

end Listing

end ContractCoverage
