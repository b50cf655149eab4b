import Sm83.Instruction
import Sm83.Opcode

/-!
# The opcode map

An opcode byte is read as three fields: `x`, its upper two bits, and `y` and `z`, three bits each.
The byte CB stands for no instruction of its own: the byte after it is looked up in a second map,
which is full. The first map has eleven holes besides (`plain?_eq_none_iff`).
-/

namespace Sm83

namespace Form

/-- The byte operand a three-bit field selects: a register, or the byte at HL. -/
def place (index : Nat) : Place Addressing :=
  match Reg8.ofIndex? index with
  | some r => .reg r
  | none => .memory (.pair .hl)

/-- The register pair a two-bit field selects where SP is the fourth choice. -/
def pair (index : Nat) : Reg16 :=
  match index % 4 with
  | 0 => .bc
  | 1 => .de
  | 2 => .hl
  | _ => .sp

/-- The register pair a two-bit field selects where AF is the fourth choice. -/
def stackPair (index : Nat) : Reg16 :=
  match index % 4 with
  | 0 => .bc
  | 1 => .de
  | 2 => .hl
  | _ => .af

def accumulator : Place Addressing := .reg .a

/-- The moves between A and memory at a pair; through HL in both directions of its adjustment. -/
def indirectMove : Nat → Form
  | 0 => .load (.memory (.pair .bc)) (.place accumulator)
  | 1 => .load accumulator (.place (.memory (.pair .bc)))
  | 2 => .load (.memory (.pair .de)) (.place accumulator)
  | 3 => .load accumulator (.place (.memory (.pair .de)))
  | 4 => .loadAdjust .increment (.memory (.pair .hl)) (.place accumulator)
  | 5 => .loadAdjust .increment accumulator (.place (.memory (.pair .hl)))
  | 6 => .loadAdjust .decrement (.memory (.pair .hl)) (.place accumulator)
  | _ => .loadAdjust .decrement accumulator (.place (.memory (.pair .hl)))

def accumulatorOnly : Nat → Form
  | 0 => .rotateA .leftCircular
  | 1 => .rotateA .rightCircular
  | 2 => .rotateA .left
  | 3 => .rotateA .right
  | 4 => .daa
  | 5 => .cpl
  | 6 => .scf
  | _ => .ccf

def firstQuarter (y z : Nat) : Form :=
  match z, y with
  | 0, 0 => .nop
  | 0, 1 => .load16 (.memory .absolute) (.reg .sp)
  | 0, 2 => .stop ()
  | 0, 3 => .jumpRelative none ()
  | 0, y => .jumpRelative (some (.ofIndex y)) ()
  | 1, y => if y % 2 = 0 then .load16 (.reg (pair (y / 2))) (.literal ()) else .addHl (pair (y / 2))
  | 2, y => indirectMove y
  | 3, y => .adjust16 (if y % 2 = 0 then .increment else .decrement) (pair (y / 2))
  | 4, y => .adjust .increment (place y)
  | 5, y => .adjust .decrement (place y)
  | 6, y => .load (place y) (.literal ())
  | _, y => accumulatorOnly y

/-- The opcodes C0 to FF, holes and all. -/
def lastQuarter? (y z : Nat) : Option Form :=
  match z, y with
  | 0, 4 => some (.load (.memory .high) (.place accumulator))
  | 0, 5 => some (.addSp ())
  | 0, 6 => some (.load accumulator (.place (.memory .high)))
  | 0, 7 => some (.loadHlSp ())
  | 0, y => some (.ret (some (.ofIndex y)))
  | 1, 1 => some (.ret none)
  | 1, 3 => some .reti
  | 1, 5 => some (.jump none (.reg .hl))
  | 1, 7 => some (.load16 (.reg .sp) (.reg .hl))
  | 1, y => some (.pop (stackPair (y / 2)))
  | 2, 4 => some (.load (.memory .highC) (.place accumulator))
  | 2, 5 => some (.load (.memory .absolute) (.place accumulator))
  | 2, 6 => some (.load accumulator (.place (.memory .highC)))
  | 2, 7 => some (.load accumulator (.place (.memory .absolute)))
  | 2, y => some (.jump (some (.ofIndex y)) (.literal ()))
  | 3, 0 => some (.jump none (.literal ()))
  | 3, 6 => some .di
  | 3, 7 => some .ei
  | 3, _ => none
  | 4, y => if y < 4 then some (.call (some (.ofIndex y)) ()) else none
  | 5, 1 => some (.call none ())
  | 5, y => if y % 2 = 0 then some (.push (stackPair (y / 2))) else none
  | 6, y => some (.alu (.ofIndex y) (.literal ()))
  | _, y => some (.rst (Fin.ofNat 8 y))

/-- The instruction an opcode byte stands for, if it stands for one by itself. -/
def plain? (opcode : UInt8) : Option Form :=
  let y := opcode.toNat / 8 % 8
  let z := opcode.toNat % 8
  match opcode.toNat / 64 with
  | 0 => some (firstQuarter y z)
  | 1 => some (if y = 6 ∧ z = 6 then .halt else .load (place y) (.place (place z)))
  | 2 => some (.alu (.ofIndex y) (.place (place z)))
  | _ => lastQuarter? y z

/-- The instruction a byte after CB stands for. -/
def prefixed (opcode : UInt8) : Form :=
  let y := opcode.toNat / 8 % 8
  let target := place (opcode.toNat % 8)
  match opcode.toNat / 64 with
  | 0 => .shift (.ofIndex y) target
  | 1 => .testBit (Fin.ofNat 8 y) target
  | 2 => .resetBit (Fin.ofNat 8 y) target
  | _ => .setBit (Fin.ofNat 8 y) target

end Form

theorem Form.plain?_eq_none_iff (opcode : UInt8) :
    Form.plain? opcode = none ↔ opcode = Opcode.prefixByte ∨ opcode ∈ Opcode.holes :=
  Byte.forall_of_lt (by decide +kernel) opcode

/-- The instruction of an opcode; none for a hole, and none for CB alone. -/
def Opcode.form? : Opcode → Option Form
  | .plain byte => Form.plain? byte
  | .prefixed byte => some (Form.prefixed byte)

structure Entry where
  opcode : Opcode
  form : Form
  deriving DecidableEq

namespace Entry

def size (entry : Entry) : Nat :=
  entry.opcode.bytes.length + entry.form.extraBytes

def text (entry : Entry) : String :=
  entry.form.text

def ofOpcode? (opcode : Opcode) : Option Entry :=
  opcode.form?.map fun form => { opcode, form }

def allPlain : List Entry :=
  (List.range 256).filterMap fun n => ofOpcode? (.plain n.toUInt8)

def allPrefixed : List Entry :=
  (List.range 256).filterMap fun n => ofOpcode? (.prefixed n.toUInt8)

end Entry

end Sm83
