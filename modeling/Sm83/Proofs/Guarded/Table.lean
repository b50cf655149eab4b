import Sm83.OpcodeMap
import Sm83.Proofs.Guarded.Routine

/-!
# The tables

Two tables of 256 slots are filled by walking the bit fields of every byte. The walk searches short
lists by field, multiplies and subtracts bytes, and adds up sizes in a byte; all of it is guarded.
Both tables get filled (`build_eq`), and each slot describes what the opcode map has for its opcode
(`slot_eq`), so a search by opcode gives that description (`lookUp_eq`).
-/

namespace Sm83.Guarded

structure Descriptor where
  routine : Routine
  opcode : Opcode
  operands : List OperandKind
  size : UInt8
  flags : FlagPolicy
  deriving DecidableEq

/-- A descriptor before its operands are completed and its size is known. -/
abbrev Row := Routine × List OperandKind × FlagPolicy

def place (index : UInt8) : OperandKind :=
  match Reg8.ofIndex? index.toNat with
  | some r => .reg8 r
  | none => .memory (.pair .hl)

def pair (p : UInt8) : Except Panic OperandKind := do
  return .reg16 (← pick [.bc, .de, .hl, .sp] (p &&& 3).toNat)

def stackPair (p : UInt8) : Except Panic OperandKind := do
  return .reg16 (← pick [.bc, .de, .hl, .af] (p &&& 3).toNat)

def condition (y : UInt8) : OperandKind :=
  .condition (.ofIndex y.toNat)

/-- An operation on A, written with A as an operand or without. -/
def aluRow (y : UInt8) (src : OperandKind) : Row :=
  let op := AluOp.ofIndex y.toNat
  let operands :=
    match op with
    | .add | .adc | .sbc => [.reg8 .a, src]
    | _ => [src]
  (.alu op, operands, op.policy)

def firstQuarter (y z : UInt8) : Except Panic Row := do
  let p := y >>> 1
  let upward := y &&& 1 = 0
  match z.toNat, y.toNat with
  | 0, 0 => return (.nop, [], {})
  | 0, 1 => return (.load, [.memory .absolute, .reg16 .sp], {})
  | 0, 2 => return (.stop, [.byte ()], {})
  | 0, 3 => return (.jumpRelative, [.byte ()], {})
  | 0, _ => return (.jumpRelative, [condition (← subByte y 4), .byte ()], {})
  | 1, _ =>
      if upward then return (.load, [← pair p, .word ()], {})
      else return (.alu .add, [.reg16 .hl, ← pair p], .ofChars '-' '0' 'H' 'C')
  | 2, _ =>
      let (routine, memory) : Routine × OperandKind :=
        match p.toNat with
        | 0 => (.load, .memory (.pair .bc))
        | 1 => (.load, .memory (.pair .de))
        | 2 => (.loadAdjust .increment, .memory (.pair .hl))
        | _ => (.loadAdjust .decrement, .memory (.pair .hl))
      if upward then return (routine, [memory, .reg8 .a], {})
      else return (routine, [.reg8 .a, memory], {})
  | 3, _ =>
      if upward then return (.adjust .increment, [← pair p], {})
      else return (.adjust .decrement, [← pair p], {})
  | 4, _ => return (.adjust .increment, [place y], .ofChars 'Z' '0' 'H' '-')
  | 5, _ => return (.adjust .decrement, [place y], .ofChars 'Z' '1' 'H' '-')
  | 6, _ => return (.load, [place y, .byte ()], {})
  | _, 0 => return (.rotateA .leftCircular, [], .ofChars '0' '0' '0' 'C')
  | _, 1 => return (.rotateA .rightCircular, [], .ofChars '0' '0' '0' 'C')
  | _, 2 => return (.rotateA .left, [], .ofChars '0' '0' '0' 'C')
  | _, 3 => return (.rotateA .right, [], .ofChars '0' '0' '0' 'C')
  | _, 4 => return (.daa, [], .ofChars 'Z' '-' '0' 'C')
  | _, 5 => return (.cpl, [], .ofChars '-' '1' '1' '-')
  | _, 6 => return (.scf, [], .ofChars '-' '0' '0' '1')
  | _, _ => return (.ccf, [], .ofChars '-' '0' '0' 'C')

def lastQuarter (y z : UInt8) : Except Panic (Option Row) := do
  let p := y >>> 1
  let upward := y &&& 1 = 0
  match z.toNat, y.toNat with
  | 0, 4 => return some (.load, [.memory .high, .reg8 .a], {})
  | 0, 5 => return some (.alu .add, [.reg16 .sp, .byte ()], .ofChars '0' '0' 'H' 'C')
  | 0, 6 => return some (.load, [.reg8 .a, .memory .high], {})
  | 0, 7 => return some (.loadHlSp, [.reg16 .sp, .byte ()], .ofChars '0' '0' 'H' 'C')
  | 0, _ => return some (.ret, [condition y], {})
  | 1, _ =>
      if upward then
        return some (.pop, [← stackPair p], if p = 3 then .ofChars 'Z' 'N' 'H' 'C' else {})
      else
        match p.toNat with
        | 0 => return some (.ret, [], {})
        | 1 => return some (.reti, [], {})
        | 2 => return some (.jump, [.reg16 .hl], {})
        | _ => return some (.load, [.reg16 .sp, .reg16 .hl], {})
  | 2, 4 => return some (.load, [.memory .highC, .reg8 .a], {})
  | 2, 5 => return some (.load, [.memory .absolute, .reg8 .a], {})
  | 2, 6 => return some (.load, [.reg8 .a, .memory .highC], {})
  | 2, 7 => return some (.load, [.reg8 .a, .memory .absolute], {})
  | 2, _ => return some (.jump, [condition y, .word ()], {})
  | 3, 0 => return some (.jump, [.word ()], {})
  | 3, 6 => return some (.di, [], {})
  | 3, 7 => return some (.ei, [], {})
  | 3, _ => return none
  | 4, _ => if y ≤ 3 then return some (.call, [condition y, .word ()], {}) else return none
  | 5, _ =>
      if upward then return some (.push, [← stackPair p], {})
      else if p = 0 then return some (.call, [.word ()], {})
      else return none
  | 6, _ => return some (aluRow y (.byte ()))
  | _, _ => return some (.rst, [.vector (← mulByte y 8)], {})

def plainRow (opcode : UInt8) : Except Panic (Option Row) := do
  let y := opcode >>> 3 &&& 7
  let z := opcode &&& 7
  match (opcode >>> 6).toNat with
  | 0 => return some (← firstQuarter y z)
  | 1 =>
      if y = 6 ∧ z = 6 then return some (.halt, [], {})
      else return some (.load, [place y, place z], {})
  | 2 => return some (aluRow y (place z))
  | _ => lastQuarter y z

def prefixedRow (opcode : UInt8) : Except Panic (Option Row) := do
  let y := opcode >>> 3 &&& 7
  let target := place (opcode &&& 7)
  match (opcode >>> 6).toNat with
  | 0 =>
      let op ← pick
        [.rotate .leftCircular, .rotate .rightCircular, .rotate .left, .rotate .right,
          .leftArithmetic, .rightArithmetic, .swap, .rightLogical] y.toNat
      let flags : FlagPolicy :=
        if op = .swap then .ofChars 'Z' '0' '0' '0' else .ofChars 'Z' '0' '0' 'C'
      return some (.shift op, [target], flags)
  | 1 => return some (.testBit, [.bit y, target], .ofChars 'Z' '0' '1' '-')
  | 2 => return some (.resetBit, [.bit y, target], {})
  | _ => return some (.setBit, [.bit y, target], {})

/-- The operations on A that are written without it. -/
def impliesAccumulator : Routine → Bool
  | .alu .sub | .alu .and | .alu .xor | .alu .or | .alu .cp => true
  | _ => false

def describe (opcode : Opcode) (row : Row) : Except Panic Descriptor := do
  let (routine, operands, flags) := row
  let operands :=
    if impliesAccumulator routine && operands.length == 1 then .reg8 .a :: operands else operands
  let extra ← operands.foldlM (fun total kind => addByte total kind.extraBytes.toUInt8) 0
  let start : UInt8 :=
    match opcode with
    | .plain _ => 0
    | .prefixed _ => 1
  return { routine, opcode, operands, size := ← addByte (← addByte 1 start) extra, flags }

def rowOf : Opcode → Except Panic (Option Row)
  | .plain byte => plainRow byte
  | .prefixed byte => prefixedRow byte

/-- The description of an opcode; none for a hole and for the byte CB alone. -/
def slot (opcode : Opcode) : Except Panic (Option Descriptor) := do
  match ← rowOf opcode with
  | none => return none
  | some row => return some (← describe opcode row)

def build (kind : UInt8 → Opcode) : Except Panic (List (Option Descriptor)) :=
  (List.range 256).mapM fun n => slot (kind n.toUInt8)

def lookUp : Opcode → Except Panic (Option Descriptor)
  | .plain byte => do pick (← build .plain) byte.toNat
  | .prefixed byte => do pick (← build .prefixed) byte.toNat

def Descriptor.ofEntry (entry : Entry) : Descriptor where
  routine := entry.form.routine
  opcode := entry.opcode
  operands := entry.form.operands
  size := entry.size.toUInt8
  flags := entry.form.policy

theorem eq_ok_of_toOption {α : Type} {value : α} :
    {result : Except Panic α} → result.toOption = some value → result = .ok value
  | .ok _, h => congrArg Except.ok (Option.some.inj h)

theorem slot_eq (opcode : Opcode) :
    slot opcode = .ok ((Entry.ofOpcode? opcode).map Descriptor.ofEntry) := by
  apply eq_ok_of_toOption
  cases opcode with
  | plain byte => exact Byte.forall_of_lt (by decide +kernel) byte
  | prefixed byte => exact Byte.forall_of_lt (by decide +kernel) byte

theorem build_eq (kind : UInt8 → Opcode) :
    build kind = .ok ((List.range 256).map fun n =>
      (Entry.ofOpcode? (kind n.toUInt8)).map Descriptor.ofEntry) := by
  simp only [build, slot_eq]
  exact List.mapM_pure

theorem pick_build (kind : UInt8 → Opcode) (byte : UInt8) :
    (build kind >>= fun slots => pick slots byte.toNat) =
      .ok ((Entry.ofOpcode? (kind byte)).map Descriptor.ofEntry) := by
  have bound := byte.toNat_lt
  rw [build_eq]
  change pick _ byte.toNat = _
  simp [pick, bound]

theorem lookUp_eq (opcode : Opcode) :
    lookUp opcode = .ok ((Entry.ofOpcode? opcode).map Descriptor.ofEntry) := by
  cases opcode with
  | plain byte => exact pick_build .plain byte
  | prefixed byte => exact pick_build .prefixed byte

end Sm83.Guarded
