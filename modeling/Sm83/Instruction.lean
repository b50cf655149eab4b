import Sm83.Arithmetic.Accumulator
import Sm83.Arithmetic.Shift
import Sm83.Instruction.Operand

/-!
# Instructions

One type describes an instruction in both of its lives. As a `Form` it is an entry of the opcode
map: its memory operands are addressing modes and its literals are still to be fetched. As an
`Operation` it is ready to run: its addresses and literals are known. Operands, mnemonic and flag
policy are read off the constructor, so both lives agree on them.
-/

namespace Sm83

/-- An instruction with addresses `α`, literal bytes `β` and literal words `ω`. -/
inductive Instruction (α β ω : Type) where
  | nop
  /-- Parks the core until it is woken; the byte after the opcode is skipped. -/
  | stop (padding : β)
  | halt
  | di
  | ei
  | load (dst : Place α) (src : Source α β)
  | loadAdjust (adjustment : Adjustment) (dst : Place α) (src : Source α β)
  | load16 (dst : WordPlace α) (src : WordSource ω)
  /-- HL becomes SP plus a signed byte. -/
  | loadHlSp (offset : β)
  | push (pair : Reg16)
  | pop (pair : Reg16)
  | alu (op : AluOp) (src : Source α β)
  | addHl (src : Reg16)
  | addSp (offset : β)
  | adjust (adjustment : Adjustment) (target : Place α)
  | adjust16 (adjustment : Adjustment) (target : Reg16)
  | daa
  | cpl
  | scf
  | ccf
  | rotateA (rotation : Rotation)
  | shift (op : Shift) (target : Place α)
  /-- Z tells whether the bit is clear. -/
  | testBit (index : Fin 8) (target : Place α)
  | resetBit (index : Fin 8) (target : Place α)
  | setBit (index : Fin 8) (target : Place α)
  | jump (condition : Option Condition) (target : WordSource ω)
  /-- The offset is signed and counts from the next instruction. -/
  | jumpRelative (condition : Option Condition) (offset : β)
  | call (condition : Option Condition) (target : ω)
  | ret (condition : Option Condition)
  /-- Returns and enables interrupts at once. -/
  | reti
  | rst (vector : Fin 8)
  deriving DecidableEq

/-- An instruction as the opcode map lists it. -/
abbrev Form := Instruction Addressing Unit Unit

abbrev Operation := Instruction UInt16 UInt8 UInt16

namespace Instruction

variable {α β ω : Type}

def restartVector (vector : Fin 8) : UInt8 :=
  vector.val.toUInt8 * 8

def conditionOperand (condition : Option Condition) : List (Operand α β ω) :=
  condition.toList.map .condition

/-- The operands in the order in which they are written and encoded. -/
def operands : Instruction α β ω → List (Operand α β ω)
  | nop | halt | di | ei | daa | cpl | scf | ccf | rotateA _ | reti => []
  | stop padding => [.byte padding]
  | load dst src | loadAdjust _ dst src => [dst.operand, src.operand]
  | load16 dst src => [dst.operand, src.operand]
  | loadHlSp offset => [.reg16 .sp, .byte offset]
  | push pair | pop pair => [.reg16 pair]
  | alu _ src => [.reg8 .a, src.operand]
  | addHl src => [.reg16 .hl, .reg16 src]
  | addSp offset => [.reg16 .sp, .byte offset]
  | adjust _ target => [target.operand]
  | adjust16 _ target => [.reg16 target]
  | shift _ target => [target.operand]
  | testBit index target | resetBit index target | setBit index target =>
      [.bit index.val.toUInt8, target.operand]
  | jump condition target => conditionOperand condition ++ [target.operand]
  | jumpRelative condition offset => conditionOperand condition ++ [.byte offset]
  | call condition target => conditionOperand condition ++ [.word target]
  | ret condition => conditionOperand condition
  | rst vector => [.vector (restartVector vector)]

def policy : Instruction α β ω → FlagPolicy
  | loadHlSp _ | addSp _ => .ofChars '0' '0' 'H' 'C'
  | pop .af => .ofChars 'Z' 'N' 'H' 'C'
  | alu op _ => op.policy
  | addHl _ => .ofChars '-' '0' 'H' 'C'
  | adjust adjustment _ => adjustment.policy
  | daa => .ofChars 'Z' '-' '0' 'C'
  | cpl => .ofChars '-' '1' '1' '-'
  | scf => .ofChars '-' '0' '0' '1'
  | ccf => .ofChars '-' '0' '0' 'C'
  | rotateA _ => .ofChars '0' '0' '0' 'C'
  | shift .swap _ => .ofChars 'Z' '0' '0' '0'
  | shift _ _ => .ofChars 'Z' '0' '0' 'C'
  | testBit _ _ => .ofChars 'Z' '0' '1' '-'
  | _ => {}

variable {m : Type → Type} [Monad m] {α' β' ω' : Type}

/-- Replaces addresses and literals, in the order of the operands. -/
def mapM (address : α → m α') (byte : β → m β') (word : ω → m ω') :
    Instruction α β ω → m (Instruction α' β' ω')
  | nop => return nop
  | stop padding => return stop (← byte padding)
  | halt => return halt
  | di => return di
  | ei => return ei
  | load dst src => return load (← dst.mapM address) (← src.mapM address byte)
  | loadAdjust adjustment dst src =>
      return loadAdjust adjustment (← dst.mapM address) (← src.mapM address byte)
  | load16 dst src => return load16 (← dst.mapM address) (← src.mapM word)
  | loadHlSp offset => return loadHlSp (← byte offset)
  | push pair => return push pair
  | pop pair => return pop pair
  | alu op src => return alu op (← src.mapM address byte)
  | addHl src => return addHl src
  | addSp offset => return addSp (← byte offset)
  | adjust adjustment target => return adjust adjustment (← target.mapM address)
  | adjust16 adjustment target => return adjust16 adjustment target
  | daa => return daa
  | cpl => return cpl
  | scf => return scf
  | ccf => return ccf
  | rotateA rotation => return rotateA rotation
  | shift op target => return shift op (← target.mapM address)
  | testBit index target => return testBit index (← target.mapM address)
  | resetBit index target => return resetBit index (← target.mapM address)
  | setBit index target => return setBit index (← target.mapM address)
  | jump condition target => return jump condition (← target.mapM word)
  | jumpRelative condition offset => return jumpRelative condition (← byte offset)
  | call condition target => return call condition (← word target)
  | ret condition => return ret condition
  | reti => return reti
  | rst vector => return rst vector

end Instruction

namespace Form

/-- The name of the instruction. Moves to and from page FF by a literal offset have a name of
their own. -/
def mnemonic : Form → String
  | .nop => "NOP"
  | .stop _ => "STOP"
  | .halt => "HALT"
  | .di => "DI"
  | .ei => "EI"
  | .load (.memory .high) _ | .load _ (.place (.memory .high)) => "LDH"
  | .load _ _ | .load16 _ _ => "LD"
  | .loadAdjust .increment _ _ => "LDI"
  | .loadAdjust .decrement _ _ => "LDD"
  | .loadHlSp _ => "LDHL"
  | .push _ => "PUSH"
  | .pop _ => "POP"
  | .alu op _ => op.mnemonic
  | .addHl _ | .addSp _ => "ADD"
  | .adjust .increment _ | .adjust16 .increment _ => "INC"
  | .adjust .decrement _ | .adjust16 .decrement _ => "DEC"
  | .daa => "DAA"
  | .cpl => "CPL"
  | .scf => "SCF"
  | .ccf => "CCF"
  | .rotateA rotation => rotation.mnemonic ++ "A"
  | .shift op _ => op.mnemonic
  | .testBit _ _ => "BIT"
  | .resetBit _ _ => "RES"
  | .setBit _ _ => "SET"
  | .jump _ _ => "JP"
  | .jumpRelative _ _ => "JR"
  | .call _ _ => "CALL"
  | .ret _ => "RET"
  | .reti => "RETI"
  | .rst _ => "RST"

/-- The instruction as it is written in assembly, with `n` and `nn` for literals. -/
def text (form : Form) : String :=
  match form.operands with
  | [] => form.mnemonic
  | operands => form.mnemonic ++ " " ++ ", ".intercalate (operands.map OperandKind.text)

def extraBytes (form : Form) : Nat :=
  OperandKind.totalBytes form.operands

end Form

end Sm83
