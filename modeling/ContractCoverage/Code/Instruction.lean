import ContractCoverage.Code.Opcode
import ContractCoverage.Text.Hex

/-! Instructions: the walk over a code.

An instruction is an opcode byte and the operand bytes that follow it, of which the
end of the code may cut some off. `walk` lists the instructions of a code; laid end to
end they are the code (`flatMap_bytes_walk`). -/
namespace ContractCoverage

/-- An opcode with its operand, at an address in a code. -/
structure Instruction where
  address : Nat
  opcode : UInt8
  operand : List UInt8
  deriving DecidableEq, Repr

namespace Instruction

/-- The mnemonic of the opcode. -/
def mnemonic (i : Instruction) : String := Opcode.mnemonic i.opcode

/-- The bytes that an instruction covers. -/
def bytes (i : Instruction) : List UInt8 := i.opcode :: i.operand

/-- The operand of an instruction that takes one, as text. -/
def argument? (i : Instruction) : Option String :=
  if Opcode.operandWidth i.opcode = 0 then none
  else some ("0x" ++ Text.Hex.encodeText i.operand)

/-- The instructions of a code whose first byte has the given address. -/
def walkFrom (address : Nat) (code : List UInt8) : List Instruction :=
  match code with
  | [] => []
  | b :: rest =>
    let width := Opcode.operandWidth b
    ⟨address, b, rest.take width⟩ :: walkFrom (address + 1 + width) (rest.drop width)
termination_by code.length

/-- The instructions of a code. -/
def walk (code : List UInt8) : List Instruction := walkFrom 0 code

theorem walkFrom_nil (address : Nat) : walkFrom address [] = [] := by
  rw [walkFrom]

theorem walkFrom_cons (address : Nat) (b : UInt8) (rest : List UInt8) :
    walkFrom address (b :: rest) =
      ⟨address, b, rest.take (Opcode.operandWidth b)⟩ ::
        walkFrom (address + 1 + Opcode.operandWidth b) (rest.drop (Opcode.operandWidth b)) := by
  rw [walkFrom]

theorem flatMap_bytes_walkFrom (address : Nat) (code : List UInt8) :
    (walkFrom address code).flatMap bytes = code := by
  fun_induction walkFrom address code with
  | case1 => rfl
  | case2 address b rest width ih => simp [bytes, width, ih]

theorem flatMap_bytes_walk (code : List UInt8) : (walk code).flatMap bytes = code :=
  flatMap_bytes_walkFrom 0 code

end Instruction

end ContractCoverage
