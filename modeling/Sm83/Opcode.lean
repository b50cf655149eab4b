import Sm83.Text.Hex

/-!
# Opcodes

An opcode is one byte, or a byte after the byte CB. Eleven bytes are holes: no instruction begins
with them.
-/

namespace Sm83

inductive Opcode where
  | plain (byte : UInt8)
  | prefixed (byte : UInt8)
  deriving DecidableEq

namespace Opcode

/-- The byte that announces a prefixed opcode. -/
def prefixByte : UInt8 := 0xCB

/-- The bytes no instruction begins with. -/
def holes : List UInt8 :=
  [0xD3, 0xDB, 0xDD, 0xE3, 0xE4, 0xEB, 0xEC, 0xED, 0xF4, 0xFC, 0xFD]

def bytes : Opcode → List UInt8
  | plain byte => [byte]
  | prefixed byte => [prefixByte, byte]

def text (opcode : Opcode) : String :=
  " ".intercalate (opcode.bytes.map fun b => "0x" ++ Hex.byte b)

end Opcode

end Sm83
