import Sm83.Condition
import Sm83.Registers
import Sm83.Text.Hex

/-!
# Operands

An operand is written down twice: in the opcode map, where a memory operand is an addressing mode
and a literal is only a promise of bytes to come, and after decoding, where the address is fixed
and the literal is known. `Operand α β ω` covers both: `α` stands for addresses, `β` for literal
bytes and `ω` for literal words.
-/

namespace Sm83

inductive Addressing where
  | pair (r : Reg16)
  | absolute
  /-- The cell of page FF whose offset follows the opcode. -/
  | high
  /-- The cell of page FF whose offset is in C. -/
  | highC
  deriving DecidableEq

inductive Operand (α β ω : Type) where
  | reg8 (r : Reg8)
  | reg16 (r : Reg16)
  | byte (value : β)
  | word (value : ω)
  | memory (address : α)
  | condition (cc : Condition)
  | bit (index : UInt8)
  | vector (address : UInt8)
  deriving DecidableEq

/-- An operand as the opcode map declares it. -/
abbrev OperandKind := Operand Addressing Unit Unit

abbrev Argument := Operand UInt16 UInt8 UInt16

namespace Addressing

def text : Addressing → String
  | pair r => "(" ++ r.name ++ ")"
  | absolute => "(nn)"
  | high => "(n)"
  | highC => "(C)"

def extraBytes : Addressing → Nat
  | pair _ | highC => 0
  | absolute => 2
  | high => 1

def highPage (offset : UInt8) : UInt16 :=
  Word.join 0xFF offset

end Addressing

namespace OperandKind

def text : OperandKind → String
  | .reg8 r => r.name
  | .reg16 r => r.name
  | .byte () => "n"
  | .word () => "nn"
  | .memory mode => mode.text
  | .condition cc => cc.name
  | .bit index => toString index.toNat
  | .vector address => Hex.byte address ++ "H"

/-- How many bytes after the opcode belong to the operand. -/
def extraBytes : OperandKind → Nat
  | .byte () => 1
  | .word () => 2
  | .memory mode => mode.extraBytes
  | .reg8 _ | .reg16 _ | .condition _ | .bit _ | .vector _ => 0

def totalBytes : List OperandKind → Nat
  | [] => 0
  | kind :: rest => kind.extraBytes + totalBytes rest

end OperandKind

inductive Place (α : Type) where
  | reg (r : Reg8)
  | memory (address : α)
  deriving DecidableEq

inductive Source (α β : Type) where
  | place (p : Place α)
  | literal (value : β)
  deriving DecidableEq

inductive WordPlace (α : Type) where
  | reg (r : Reg16)
  | memory (address : α)
  deriving DecidableEq

inductive WordSource (ω : Type) where
  | reg (r : Reg16)
  | literal (value : ω)
  deriving DecidableEq

variable {α β ω : Type}

def Place.operand : Place α → Operand α β ω
  | .reg r => .reg8 r
  | .memory address => .memory address

def Source.operand : Source α β → Operand α β ω
  | .place p => p.operand
  | .literal value => .byte value

def WordPlace.operand : WordPlace α → Operand α β ω
  | .reg r => .reg16 r
  | .memory address => .memory address

def WordSource.operand : WordSource ω → Operand α β ω
  | .reg r => .reg16 r
  | .literal value => .word value

variable {m : Type → Type} [Monad m] {α' β' ω' : Type}

def Place.mapM (address : α → m α') : Place α → m (Place α')
  | .reg r => return .reg r
  | .memory a => return .memory (← address a)

def Source.mapM (address : α → m α') (byte : β → m β') : Source α β → m (Source α' β')
  | .place p => return .place (← p.mapM address)
  | .literal value => return .literal (← byte value)

def WordPlace.mapM (address : α → m α') : WordPlace α → m (WordPlace α')
  | .reg r => return .reg r
  | .memory a => return .memory (← address a)

def WordSource.mapM (word : ω → m ω') : WordSource ω → m (WordSource ω')
  | .reg r => return .reg r
  | .literal value => return .literal (← word value)

end Sm83
