import ContractCoverage.Proofs.Code.Tiling

/-! Bytes behind a code.

What stands behind a code, be it metadata, arguments of a constructor or another code,
reaches into it only through an instruction that the end of the code has cut (`IsCut`).
All other instructions stand in the longer code as they did (`StandsIn.append`), and those
of the bytes behind are moved on by the length of the code (`StandsIn.shift`).

`walk_append_code`: without a cut at the seam the walk over both is the two walks one behind
the other, and with one the instructions before it are still the same. -/
namespace ContractCoverage.Instruction

/-- The end of a code cuts an instruction that asks for more than the code has. -/
def IsCut (code : List UInt8) (i : Instruction) : Prop := code.length < i.next

/-- An instruction in the code that begins a number of bytes earlier. -/
def shift (n : Nat) (i : Instruction) : Instruction := { i with address := n + i.address }

theorem next_shift (n : Nat) (i : Instruction) : (i.shift n).next = n + i.next := by
  show n + i.address + 1 + Opcode.asked i.mnemonic = n + (i.address + 1 + Opcode.asked i.mnemonic)
  omega

variable {a b : List UInt8} {i j : Instruction}

/-! ### Where an instruction stands -/

namespace StandsIn

/-- At an address there is one instruction. -/
theorem eq_of_address (hi : i.StandsIn a) (hj : j.StandsIn a) (h : i.address = j.address) :
    i = j := by
  have hopcode : i.opcode = j.opcode := by
    have heq := hj.opcode
    rw [← h, hi.opcode] at heq
    exact Option.some.inj heq
  have hoperand : i.operand = j.operand := by
    rw [hi.operand, hj.operand, h, mnemonic, mnemonic, hopcode]
  cases i
  cases j
  cases h
  cases hopcode
  cases hoperand
  rfl

theorem append (h : i.StandsIn a) (hcut : ¬ i.IsCut a) (b : List UInt8) : i.StandsIn (a ++ b) := by
  have hle : i.address + 1 + Opcode.asked i.mnemonic ≤ a.length := Nat.le_of_not_lt hcut
  refine ⟨?_, ?_⟩
  · rw [List.getElem?_append_left h.lt_length]
    exact h.opcode
  · rw [List.drop_append_of_le_length (by omega),
      List.take_append_of_le_length (by rw [List.length_drop]; omega)]
    exact h.operand

theorem shift (h : i.StandsIn b) (a : List UInt8) : (i.shift a.length).StandsIn (a ++ b) := by
  refine ⟨?_, ?_⟩
  · show (a ++ b)[a.length + i.address]? = some i.opcode
    rw [List.getElem?_append_right (Nat.le_add_right ..), Nat.add_sub_cancel_left]
    exact h.opcode
  · show i.operand = ((a ++ b).drop (a.length + i.address + 1)).take _
    rw [Nat.add_assoc, ← List.drop_drop, List.drop_left]
    exact h.operand

/-- An instruction that is cut has more of its operand when there is more behind the code. -/
theorem not_append_of_isCut (h : i.StandsIn a) (hcut : i.IsCut a) (hb : b ≠ []) :
    ¬ i.StandsIn (a ++ b) := by
  intro hab
  have hshort := congrArg List.length h.operand
  have hlong := congrArg List.length hab.operand
  have hpos := List.length_pos_of_ne_nil hb
  have hlt := h.lt_length
  unfold IsCut next at hcut
  simp only [List.length_take, List.length_drop, List.length_append] at hshort hlong
  omega

end StandsIn

/-! ### The way of the walk -/

namespace Walked

theorem shift {address : Nat} {is : List Instruction} (h : Walked b address is) (a : List UInt8) :
    Walked (a ++ b) (a.length + address) (is.map (·.shift a.length)) := by
  induction h with
  | done h =>
    refine .done ?_
    rw [List.length_append]
    omega
  | @step _ i rest haddress hi _ ih =>
    rw [← next_shift] at ih
    exact .step (congrArg (a.length + ·) haddress) (hi.shift a) ih

/-- What has another instruction behind it is not cut. -/
theorem not_isCut {is : List Instruction} (h : Walked a i.next is) (hne : is ≠ []) :
    ¬ i.IsCut a := by
  cases h with
  | done => exact absurd rfl hne
  | step hnext hj =>
    have hlt := hj.lt_length
    unfold IsCut
    omega

/-- A way that ends without a cut goes on in the bytes behind the code. -/
theorem append {address : Nat} {is js : List Instruction} (h : Walked a address is)
    (hle : address ≤ a.length) (hlast : ∀ i ∈ is.getLast?, ¬ i.IsCut a) (hb : Walked b 0 js) :
    Walked (a ++ b) address (is ++ js.map (·.shift a.length)) := by
  induction h with
  | @done address h =>
    obtain rfl : address = a.length := Nat.le_antisymm hle h
    exact hb.shift a
  | @step _ i rest haddress hi hrest ih =>
    have hcut : ¬ i.IsCut a := by
      cases rest with
      | nil => exact hlast i rfl
      | cons j rest => exact hrest.not_isCut (List.cons_ne_nil j rest)
    refine .step haddress (hi.append hcut b) (ih (Nat.le_of_not_lt hcut) ?_)
    cases rest with
    | nil => exact fun i hi => by cases hi
    | cons => exact hlast

/-- The ways over a code and over a longer one have the same instructions as long as there is no
cut. -/
theorem getElem?_append {address : Nat} {is js : List Instruction} (h : Walked a address is)
    (hab : Walked (a ++ b) address js) {k : Nat} (hk : is[k]? = some i) (hcut : ¬ i.IsCut a) :
    js[k]? = some i := by
  induction h generalizing js k with
  | done => cases hk
  | @step address first rest haddress hfirst hrest ih =>
    have hwhole : ¬ first.IsCut a := by
      cases k with
      | zero =>
        cases hk
        exact hcut
      | succ k => exact hrest.not_isCut (List.ne_nil_of_mem (List.mem_of_getElem? hk))
    have hstands := hfirst.append hwhole b
    cases hab with
    | done hle =>
      have hlt := hstands.lt_length
      omega
    | step haddress' hfirst' hrest' =>
      obtain rfl := hstands.eq_of_address hfirst' (haddress.trans haddress'.symm)
      cases k with
      | zero => exact hk
      | succ k => exact ih hrest' hk

end Walked

/-- **Walks one behind the other.** The walk over a code and other bytes is the walk over the code
and that over the bytes when the last instruction of the code is not cut, and only then, unless
there are no bytes; and every instruction that is not cut has its place in the longer walk. -/
theorem walk_append_code (a b : List UInt8) :
    (walk (a ++ b) = walk a ++ (walk b).map (·.shift a.length) ↔
      b = [] ∨ ∀ i ∈ (walk a).getLast?, ¬ i.IsCut a) ∧
    ∀ (k : Nat) (i : Instruction), (walk a)[k]? = some i → ¬ i.IsCut a →
      (walk (a ++ b))[k]? = some i := by
  refine ⟨⟨fun h => ?_, ?_⟩, fun k i hk hcut =>
    (walked_walk a).getElem?_append (walked_walk (a ++ b)) hk hcut⟩
  · by_cases hb : b = []
    · exact .inl hb
    · refine .inr fun i hi hcut => ?_
      have hmem : i ∈ walk a := List.mem_of_getLast? hi
      have hmem' : i ∈ walk (a ++ b) := h ▸ List.mem_append_left _ hmem
      exact ((walked_walk a).standsIn i hmem).not_append_of_isCut hcut hb
        ((walked_walk (a ++ b)).standsIn i hmem')
  · rintro (rfl | hlast)
    · have hnil : walk [] = [] := walkFrom_nil 0
      rw [hnil, List.map_nil, List.append_nil, List.append_nil]
    · exact ((walked_walk a).append (Nat.zero_le _) hlast (walked_walk b)).eq_walkFrom.symm

end ContractCoverage.Instruction
