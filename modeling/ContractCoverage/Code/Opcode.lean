import ContractCoverage.Text.Uppercase

/-! Opcodes: what the first byte of an instruction says.

Only what is needed to walk over a code is kept: the mnemonic of a byte and the
number of operand bytes that follow it. Every byte has a mnemonic, for the undefined
ones it is that of the designated invalid instruction. -/
namespace ContractCoverage.Opcode

/-- The number of operand bytes that an opcode takes. -/
def operandWidth (b : UInt8) : Nat :=
  if 0x60 ≤ b.toNat ∧ b.toNat ≤ 0x7f then b.toNat - 0x5f else 0

/-- The mnemonics that stand for themselves. -/
def named : List (Nat × String) :=
  [(0x00, "STOP"), (0x01, "ADD"), (0x02, "MUL"), (0x03, "SUB"), (0x04, "DIV"), (0x05, "SDIV"),
   (0x06, "MOD"), (0x07, "SMOD"), (0x08, "ADDMOD"), (0x09, "MULMOD"), (0x0a, "EXP"),
   (0x0b, "SIGNEXTEND"),
   (0x10, "LT"), (0x11, "GT"), (0x12, "SLT"), (0x13, "SGT"), (0x14, "EQ"), (0x15, "ISZERO"),
   (0x16, "AND"), (0x17, "OR"), (0x18, "XOR"), (0x19, "NOT"), (0x1a, "BYTE"), (0x1b, "SHL"),
   (0x1c, "SHR"), (0x1d, "SAR"),
   (0x20, "SHA3"),
   (0x30, "ADDRESS"), (0x31, "BALANCE"), (0x32, "ORIGIN"), (0x33, "CALLER"), (0x34, "CALLVALUE"),
   (0x35, "CALLDATALOAD"), (0x36, "CALLDATASIZE"), (0x37, "CALLDATACOPY"), (0x38, "CODESIZE"),
   (0x39, "CODECOPY"), (0x3a, "GASPRICE"), (0x3b, "EXTCODESIZE"), (0x3c, "EXTCODECOPY"),
   (0x3d, "RETURNDATASIZE"), (0x3e, "RETURNDATACOPY"), (0x3f, "EXTCODEHASH"),
   (0x40, "BLOCKHASH"), (0x41, "COINBASE"), (0x42, "TIMESTAMP"), (0x43, "NUMBER"),
   (0x44, "DIFFICULTY"), (0x45, "GASLIMIT"), (0x46, "CHAINID"), (0x47, "SELFBALANCE"),
   (0x48, "BASEFEE"), (0x49, "BLOBHASH"), (0x4a, "BLOBBASEFEE"),
   (0x50, "POP"), (0x51, "MLOAD"), (0x52, "MSTORE"), (0x53, "MSTORE8"), (0x54, "SLOAD"),
   (0x55, "SSTORE"), (0x56, "JUMP"), (0x57, "JUMPI"), (0x58, "PC"), (0x59, "MSIZE"),
   (0x5a, "GAS"), (0x5b, "JUMPDEST"), (0x5c, "TLOAD"), (0x5d, "TSTORE"), (0x5e, "MCOPY"),
   (0xa0, "LOG0"), (0xa1, "LOG1"), (0xa2, "LOG2"), (0xa3, "LOG3"), (0xa4, "LOG4"),
   (0xf0, "CREATE"), (0xf1, "CALL"), (0xf2, "CALLCODE"), (0xf3, "RETURN"),
   (0xf4, "DELEGATECALL"), (0xf5, "CREATE2"), (0xfa, "STATICCALL"), (0xfd, "REVERT"),
   (0xfe, "INVALID"), (0xff, "SELFDESTRUCT")]

/-- The mnemonic of a byte that is an opcode. -/
def mnemonic? (b : UInt8) : Option String :=
  let n := b.toNat
  if 0x5f ≤ n ∧ n ≤ 0x7f then some s!"PUSH{n - 0x5f}"
  else if 0x80 ≤ n ∧ n ≤ 0x8f then some s!"DUP{n - 0x7f}"
  else if 0x90 ≤ n ∧ n ≤ 0x9f then some s!"SWAP{n - 0x8f}"
  else named.lookup n

/-- The mnemonic of a byte. -/
def mnemonic (b : UInt8) : String := (mnemonic? b).getD "INVALID"

/-- The names that tracers use for opcodes that were renamed, with the names used here. -/
def aliases : List (String × String) :=
  [("KECCAK256", "SHA3"), ("PREVRANDAO", "DIFFICULTY"), ("RANDOM", "DIFFICULTY"),
   ("SUICIDE", "SELFDESTRUCT")]

/-- The name used here for a mnemonic as a tracer writes it. -/
def canonicalName (name : String) : String :=
  let name := Text.uppercase name
  (aliases.lookup name).getD name

theorem operandWidth_le (b : UInt8) : operandWidth b ≤ 32 := by
  simp only [operandWidth]
  split <;> omega

end ContractCoverage.Opcode
