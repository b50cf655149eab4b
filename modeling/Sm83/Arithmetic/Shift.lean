/-!
# Rotations and shifts

Each operation takes a byte and the incoming carry and gives the new byte and the bit that was
shifted out. Only the rotations through the carry use the incoming one.
-/

namespace Sm83

/-- A rotation by one bit: within the byte, or through the carry as a ninth bit. -/
inductive Rotation where
  | leftCircular | rightCircular | left | right
  deriving DecidableEq

namespace Rotation

def mnemonic : Rotation → String
  | leftCircular => "RLC"
  | rightCircular => "RRC"
  | left => "RL"
  | right => "RR"

/-- The rotated byte and the bit that left it. -/
def apply (rotation : Rotation) (value : UInt8) (carry : Bool) : UInt8 × Bool :=
  match rotation with
  | leftCircular => (value <<< 1 ||| value >>> 7, value &&& 0x80 != 0)
  | rightCircular => (value >>> 1 ||| value <<< 7, value &&& 0x01 != 0)
  | left => (value <<< 1 ||| carry.toUInt8, value &&& 0x80 != 0)
  | right => (value >>> 1 ||| carry.toUInt8 <<< 7, value &&& 0x01 != 0)

end Rotation

inductive Shift where
  | rotate (rotation : Rotation)
  | leftArithmetic
  | rightArithmetic
  | swap
  | rightLogical
  deriving DecidableEq

namespace Shift

def ofIndex (index : Nat) : Shift :=
  match index % 8 with
  | 0 => rotate .leftCircular
  | 1 => rotate .rightCircular
  | 2 => rotate .left
  | 3 => rotate .right
  | 4 => leftArithmetic
  | 5 => rightArithmetic
  | 6 => swap
  | _ => rightLogical

def mnemonic : Shift → String
  | rotate rotation => rotation.mnemonic
  | leftArithmetic => "SLA"
  | rightArithmetic => "SRA"
  | swap => "SWAP"
  | rightLogical => "SRL"

/-- The new byte and the bit shifted out; exchanging the nibbles shifts nothing out. -/
def apply (shift : Shift) (value : UInt8) (carry : Bool) : UInt8 × Bool :=
  match shift with
  | rotate rotation => rotation.apply value carry
  | leftArithmetic => (value <<< 1, value &&& 0x80 != 0)
  | rightArithmetic => (value >>> 1 ||| value &&& 0x80, value &&& 0x01 != 0)
  | swap => (value <<< 4 ||| value >>> 4, false)
  | rightLogical => (value >>> 1, value &&& 0x01 != 0)

end Shift

end Sm83
