import Sm83.Instruction

/-!
# Routines

The instructions fall into families that run the same routine and differ in their operands only.
-/

namespace Sm83

/-- What a family of instructions runs. The forms of `ADD` share a routine, as do `LD` and `LDH`,
and the byte and word forms of `INC` and `DEC`. -/
inductive Routine where
  | nop
  | stop
  | halt
  | di
  | ei
  | load
  | loadAdjust (adjustment : Adjustment)
  | loadHlSp
  | push
  | pop
  | alu (op : AluOp)
  | adjust (adjustment : Adjustment)
  | daa
  | cpl
  | scf
  | ccf
  | rotateA (rotation : Rotation)
  | shift (op : Shift)
  | testBit
  | resetBit
  | setBit
  | jump
  | jumpRelative
  | call
  | ret
  | reti
  | rst
  deriving DecidableEq

def Instruction.routine {α β ω : Type} : Instruction α β ω → Routine
  | .nop => .nop
  | .stop _ => .stop
  | .halt => .halt
  | .di => .di
  | .ei => .ei
  | .load _ _ | .load16 _ _ => .load
  | .loadAdjust adjustment _ _ => .loadAdjust adjustment
  | .loadHlSp _ => .loadHlSp
  | .push _ => .push
  | .pop _ => .pop
  | .alu op _ => .alu op
  | .addHl _ | .addSp _ => .alu .add
  | .adjust adjustment _ | .adjust16 adjustment _ => .adjust adjustment
  | .daa => .daa
  | .cpl => .cpl
  | .scf => .scf
  | .ccf => .ccf
  | .rotateA rotation => .rotateA rotation
  | .shift op _ => .shift op
  | .testBit _ _ => .testBit
  | .resetBit _ _ => .resetBit
  | .setBit _ _ => .setBit
  | .jump _ _ => .jump
  | .jumpRelative _ _ => .jumpRelative
  | .call _ _ => .call
  | .ret _ => .ret
  | .reti => .reti
  | .rst _ => .rst

end Sm83
