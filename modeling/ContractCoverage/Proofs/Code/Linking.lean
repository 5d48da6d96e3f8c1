import ContractCoverage.Code.Disassembly
import ContractCoverage.Proofs.Code.Pieces
import ContractCoverage.Proofs.Code.Tiling
import ContractCoverage.Proofs.Data.Chain

/-! Linking does not move code.

A text can be linked when every placeholder of it is all of the operand of an
instruction that pushes an address (`Linkable`). Such an operand may be exchanged: the
walk goes over it in one step, whatever it is (`walkFrom_window`). The placeholders are
exchanged one after the other, from the last to the first, so that in front of the one
whose turn it is the text has the same bytes as before linking (`exists_decode_linked`).
What comes out is a listing in which nothing but the operands of these instructions has
changed (`ofText_linked`). -/
namespace ContractCoverage

/-! ### The walk over an exchanged operand -/

/-- The opcode that pushes an address: twenty bytes. -/
def Opcode.pushAddress : UInt8 := 0x73

example : Opcode.mnemonic Opcode.pushAddress = "PUSH20" ∧
    Opcode.operandWidth Opcode.pushAddress = 20 := by decide

namespace Instruction

/-- Where an instruction that pushes an address stands in front of twenty bytes, these bytes are its
operand, and the walk goes the same way over any others. -/
theorem walkFrom_window {head operand operand' tail : List UInt8} (hlength : operand.length = 20)
    (hlength' : operand'.length = 20) {address : Nat} {i : Instruction}
    (hi : i ∈ walkFrom address (head ++ (operand ++ tail)))
    (hop : i.opcode = Opcode.pushAddress) (haddress : i.address + 1 = address + head.length) :
    ∃ before after,
      walkFrom address (head ++ (operand ++ tail)) =
        before ++ ⟨i.address, Opcode.pushAddress, operand⟩ :: after ∧
      walkFrom address (head ++ (operand' ++ tail)) =
        before ++ ⟨i.address, Opcode.pushAddress, operand'⟩ :: after := by
  induction hn : head.length using Nat.strongRecOn generalizing head address with
  | ind n ih =>
    cases head with
    | nil =>
      have hle := le_address i hi
      simp only [List.length_nil] at haddress
      omega
    | cons b head =>
      simp only [List.length_cons] at hn haddress
      rw [List.cons_append, walkFrom_cons] at hi ⊢
      rw [List.cons_append, walkFrom_cons]
      rcases List.mem_cons.1 hi with rfl | hi
      · -- The instruction is the first one, so nothing comes between it and the operand.
        obtain rfl : b = Opcode.pushAddress := hop
        have hwidth : Opcode.operandWidth Opcode.pushAddress = 20 := by decide
        obtain rfl : head = [] := by
          refine List.length_eq_zero_iff.1 ?_
          simp only at haddress
          omega
        refine ⟨[], walkFrom (address + 1 + 20) tail, ?_, ?_⟩
        · rw [List.nil_append, List.nil_append, hwidth, List.take_left' hlength,
            List.drop_left' hlength]
        · rw [List.nil_append, List.nil_append, hwidth, List.take_left' hlength',
            List.drop_left' hlength']
      · have hle := le_address i hi
        have hwidth : Opcode.operandWidth b ≤ head.length := by omega
        rw [List.drop_append_of_le_length hwidth] at hi ⊢
        rw [List.drop_append_of_le_length hwidth, List.take_append_of_le_length hwidth,
          List.take_append_of_le_length hwidth]
        obtain ⟨before, after, hwalk, hwalk'⟩ := ih _
          (by rw [List.length_drop]; omega) hi (by rw [List.length_drop]; omega) rfl
        exact ⟨_ :: before, after, by rw [hwalk, List.cons_append],
          by rw [hwalk', List.cons_append]⟩

end Instruction

/-! ### Texts that can be linked -/

namespace Piece
variable (ps : List Piece)

/-- A place in the bytes of a text where a placeholder begins. -/
def IsSite (place : Nat) (l : Link) : Prop :=
  ∃ before after head, ps = before ++ .link l :: after ∧
    Bytecode.decode (unlinked before) = .ok head ∧ head.length = place

/-- A text can be linked: every placeholder of it stands behind the opcode of an instruction that
pushes an address, in the walk over the text that has not been linked. -/
def Linkable : Prop :=
  ∀ before l after, ps = before ++ .link l :: after →
    ∃ bytes head, Bytecode.decode (unlinked ps) = .ok bytes ∧
      Bytecode.decode (unlinked before) = .ok head ∧
      ∃ i ∈ Instruction.walk bytes, i.opcode = Opcode.pushAddress ∧ i.address + 1 = head.length

end Piece

/-- An instruction, and the one in its place after linking: the same opcode and with it the same
mnemonic, at the same address, and the same operand unless it pushes the address that has taken the
place of a placeholder. -/
structure Instruction.Linked (ps : List Piece) (i i' : Instruction) : Prop where
  address : i'.address = i.address
  opcode : i'.opcode = i.opcode
  operand : i'.operand = i.operand ∨ i.opcode = Opcode.pushAddress ∧
    ∃ l, Piece.IsSite ps (i.address + 1) l ∧ Text.Hex.decode l.address = .ok i'.operand

/-- An entry, and the one in its place after linking. -/
structure Entry.Linked (ps : List Piece) (e e' : Entry) : Prop where
  instruction : Instruction.Linked ps e.instruction e'.instruction
  range : e'.range = e.range
  seen : e'.seen = e.seen

namespace Instruction

theorem Linked.refl (ps : List Piece) (i : Instruction) : Linked ps i i where
  address := rfl
  opcode := rfl
  operand := .inl rfl

/-- One more address takes the place of what stands at a placeholder. -/
theorem forall₂_linked_window {ps : List Piece} {is before after : List Instruction} {place : Nat}
    {operand operand' : List UInt8} {l : Link} (hsite : Piece.IsSite ps (place + 1) l)
    (hoperand : Text.Hex.decode l.address = .ok operand')
    (h : List.Forall₂ (Linked ps) is
      (before ++ ⟨place, Opcode.pushAddress, operand⟩ :: after)) :
    List.Forall₂ (Linked ps) is
      (before ++ ⟨place, Opcode.pushAddress, operand'⟩ :: after) := by
  induction before generalizing is with
  | nil =>
    cases h with
    | cons hi hrest =>
      refine .cons ⟨hi.address, hi.opcode, .inr ⟨hi.opcode.symm, l, ?_, hoperand⟩⟩ hrest
      rw [← hi.address]
      exact hsite
  | cons first before ih =>
    cases h with
    | cons hi hrest => exact .cons hi (ih hrest)

end Instruction

namespace Piece
variable {ps : List Piece}

/-- The code with addresses behind some point has the instructions of the code without. -/
theorem exists_decode_linked (hl : Linkable ps) {bytes : List UInt8}
    (h : Bytecode.decode (unlinked ps) = .ok bytes) {before after : List Piece}
    (hps : ps = before ++ after) :
    ∃ bytes', Bytecode.decode (prelinked before ++ linked after) = .ok bytes' ∧
      List.Forall₂ (Instruction.Linked ps) (Instruction.walk bytes) (Instruction.walk bytes') := by
  induction after generalizing before with
  | nil =>
    rw [List.append_nil] at hps
    refine ⟨bytes, ?_, List.forall₂_same.2 fun i _ => .refl ps i⟩
    rw [← hps]
    exact (List.append_nil (prelinked ps)).symm ▸ Bytecode.decode_prelinked h
  | cons p after ih =>
    have hshift : ps = (before ++ [p]) ++ after := by
      rw [hps, List.append_assoc, List.singleton_append]
    obtain ⟨bytes', hdecode, hwalk⟩ := ih hshift
    rw [prelinked_append, List.append_assoc] at hdecode
    cases p with
    | plain c hc => exact ⟨bytes', hdecode, hwalk⟩
    | link l =>
      obtain ⟨_, head, hbytes, hhead, i, hi, hop, haddress⟩ := hl before l after hps
      obtain rfl := Except.ok.inj (hbytes.symm.trans h)
      have hfill : prelinked [.link l] = Placeholder.dummyAddress := List.append_nil _
      rw [hfill] at hdecode
      obtain ⟨operand, tail, hlength, rfl, hexchange⟩ :=
        Bytecode.decode_window IsAddress.dummyAddress (not_mem_prelinked before)
          (not_mem_linked after) (Bytecode.decode_prelinked hhead) hdecode
      obtain ⟨operand', hlength', hreads, hdecode'⟩ := hexchange l.address l.isAddress
      obtain ⟨i', hi', hlinked⟩ := exists_of_forall₂ hwalk hi
      have hstart : i'.address + 1 = 0 + head.length := by
        rw [hlinked.address, haddress, Nat.zero_add]
      obtain ⟨first, rest, hbefore, hafter⟩ := Instruction.walkFrom_window hlength hlength' hi'
        (hlinked.opcode.trans hop) hstart
      have hsite : IsSite ps (i'.address + 1) l := by
        rw [hlinked.address, haddress]
        exact ⟨before, after, head, hps, hhead, rfl⟩
      refine ⟨_, hdecode', ?_⟩
      unfold Instruction.walk at hwalk ⊢
      rw [hbefore] at hwalk
      rw [hafter]
      exact Instruction.forall₂_linked_window hsite (Text.Hex.decode_eq_ok_iff.2 hreads) hwalk

/-- The code after linking has the instructions of the code before. -/
theorem decode_linked (hl : Linkable ps) {bytes : List UInt8}
    (h : Bytecode.decode (unlinked ps) = .ok bytes) :
    ∃ bytes', Bytecode.decode (linked ps) = .ok bytes' ∧
      List.Forall₂ (Instruction.Linked ps) (Instruction.walk bytes) (Instruction.walk bytes') := by
  have hps : ps = [] ++ ps := rfl
  exact exists_decode_linked hl h hps

/-- A text that cannot be read has no placeholders that can be linked. -/
theorem linked_eq_unlinked (hl : Linkable ps)
    (h : ∀ bytes, Bytecode.decode (unlinked ps) ≠ .ok bytes) : linked ps = unlinked ps := by
  have hplain : ∀ p ∈ ps, text Link.address p = text Link.placeholder p := by
    intro p hp
    cases p with
    | plain c hc => rfl
    | link l =>
      obtain ⟨before, after, hps⟩ := List.append_of_mem hp
      obtain ⟨bytes, _, hbytes, -⟩ := hl before l after hps
      exact absurd hbytes (h bytes)
  exact List.flatMap_congr hplain

end Piece

/-! ### Listings -/

namespace Listing

theorem forall₂_pair {ps : List Piece} {is is' : List Instruction}
    (h : List.Forall₂ (Instruction.Linked ps) is is') (ranges : List Range) :
    List.Forall₂ (Entry.Linked ps) (pair is ranges) (pair is' ranges) := by
  induction h generalizing ranges with
  | nil => exact .nil
  | cons hi _ ih =>
    cases ranges with
    | nil => exact .cons ⟨hi, rfl, rfl⟩ (ih [])
    | cons range ranges => exact .cons ⟨hi, rfl, rfl⟩ (ih ranges)

/-- Linking a text that can be linked changes the operands in its listing that were placeholders. A
listing that cannot be made of the one text cannot be made of the other, for the same reason. -/
theorem ofText_linked {ps : List Piece} (hl : Piece.Linkable ps) (map : List Char) :
    (∃ fault, ofText (Piece.unlinked ps) map = .error fault ∧
      ofText (Piece.linked ps) map = .error fault) ∨
    ∃ l l', ofText (Piece.unlinked ps) map = .ok l ∧ ofText (Piece.linked ps) map = .ok l' ∧
      List.Forall₂ (Entry.Linked ps) l.entries l'.entries := by
  unfold ofText readTexts
  cases SourceMap.decode map with
  | error fault => exact .inl ⟨_, rfl, rfl⟩
  | ok ranges =>
    cases h : Bytecode.decode (Piece.unlinked ps) with
    | error fault =>
      have hsame : Piece.linked ps = Piece.unlinked ps :=
        Piece.linked_eq_unlinked hl fun bytes hbytes => by
          rw [h] at hbytes
          cases hbytes
      rw [hsame, h]
      exact .inl ⟨_, rfl, rfl⟩
    | ok bytes =>
      obtain ⟨bytes', hbytes', hwalk⟩ := Piece.decode_linked hl h
      rw [hbytes']
      exact .inr ⟨_, _, rfl, rfl, forall₂_pair hwalk ranges⟩

end Listing

/-! ### A code that pushes the address of a library -/

namespace Piece

/-- A placeholder, and the address that a library was found at. -/
def library : Link where
  placeholder := "__$b5c8bd9e8e6e8f8b3a6f58f39a3fef1bc0$__".toList
  address := List.replicate Placeholder.width 'B'
  length_placeholder := by decide +kernel
  opens_placeholder := by decide +kernel
  isAddress := .replicate rfl

/-- The address is pushed and compared with the one that runs. -/
def pushLibrary : List Piece :=
  [.plain '7' (by decide), .plain '3' (by decide), .link library, .plain '3' (by decide),
    .plain '0' (by decide), .plain '1' (by decide), .plain '4' (by decide)]

theorem linkable_pushLibrary : Linkable pushLibrary := by
  intro before l after h
  have hread : Bytecode.decode (unlinked pushLibrary) =
      .ok (Opcode.pushAddress :: (List.replicate 20 0xaa ++ [0x30, 0x14])) := by decide +kernel
  have hbefore : before = pushLibrary.take 2 := by
    rcases before with _ | ⟨a, _ | ⟨b, _ | ⟨_, _ | ⟨_, _ | ⟨_, _ | ⟨_, _ | ⟨_, _⟩⟩⟩⟩⟩⟩⟩
    case cons.cons.nil =>
      simp only [pushLibrary, List.cons_append, List.nil_append, List.cons.injEq] at h
      rw [← h.1, ← h.2.1]
      rfl
    all_goals simp [pushLibrary] at h
  refine ⟨_, [Opcode.pushAddress], hread, ?_,
    ⟨0, Opcode.pushAddress, List.replicate 20 0xaa⟩, ?_, rfl, rfl⟩
  · rw [hbefore]
    decide +kernel
  · rw [Instruction.walk, Instruction.walkFrom_cons]
    exact List.mem_cons.2 (.inl rfl)

end Piece

end ContractCoverage
