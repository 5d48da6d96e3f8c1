import ContractCoverage.Code.Keccak
import ContractCoverage.Code.Placeholder
import ContractCoverage.Text.Blank
import ContractCoverage.Text.Hex

/-! Bytecode as text.

A bytecode text is hexadecimal, perhaps after `0x`, perhaps with white space around
it and with link placeholders in it. The hash of a code is taken of its text without
placeholders; a text that is not hexadecimal has none. The function that takes it of the
bytes is a parameter, which is Keccak-256 unless another one is given. -/
namespace ContractCoverage

/-- A bytecode text that is not hexadecimal, with the position of the first wrong character. -/
structure BytecodeFault where
  position : Nat
  deriving DecidableEq, Repr

/-- The text of a fault. -/
def BytecodeFault.message (fault : BytecodeFault) : String :=
  "Invalid bytecode hex string: non-hexadecimal number found in fromhex() arg at position " ++
    toString fault.position

namespace Bytecode

/-- A text without the mark of hexadecimal in front. -/
def dropMark : List Char → List Char
  | '0' :: 'x' :: rest => rest
  | s => s

/-- The bytes of a bytecode text. -/
def decode (s : List Char) : Except BytecodeFault (List UInt8) :=
  (Text.Hex.decode (dropMark (Placeholder.link (Text.trim Text.isMargin s)))).mapError
    BytecodeFault.mk

/-- The hash of a hexadecimal text, or nothing when it is not one. -/
def hashText (s : List Char) (keccak : List UInt8 → List UInt8 := Keccak.hash) : String :=
  match Text.Hex.decode (dropMark s) with
  | .ok bytes => "0x" ++ Text.Hex.encodeText (keccak bytes)
  | .error _ => ""

end Bytecode

end ContractCoverage
