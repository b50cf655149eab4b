import Sm83.Bus
import Sm83.Cpu
import Sm83.Instruction

/-!
# Running an instruction

An operation acts on the registers and the bus (`act`) and, if it is one of five, on the control
state (`control`). `execute` does both, applies the flag policy and moves the interrupt latch on.
Since `act` sees nothing but registers and bus, no register depends on the control state
(`regs_settle`).
-/

namespace Sm83

open Arithmetic

def Place.read (regs : Registers) : Place UInt16 → BusM UInt8
  | .reg r => return regs.get8 r
  | .memory address => BusM.readByte address

def Place.write (regs : Registers) (value : UInt8) : Place UInt16 → BusM Registers
  | .reg r => return regs.set8 r value
  | .memory address => do
      BusM.writeByte address value
      return regs

def Source.read (regs : Registers) : Source UInt16 UInt8 → BusM UInt8
  | .place p => p.read regs
  | .literal value => return value

def WordPlace.write (regs : Registers) (value : UInt16) : WordPlace UInt16 → BusM Registers
  | .reg r => return regs.set16 r value
  | .memory address => do
      BusM.writeWord address value
      return regs

/-- The word of a source; none is in memory. -/
def WordSource.value (regs : Registers) : WordSource UInt16 → UInt16
  | .reg r => regs.get16 r
  | .literal value => value

namespace Registers

def pushWord (regs : Registers) (value : UInt16) : BusM Registers := do
  let sp := regs.sp - 2
  BusM.writeWord sp value
  return { regs with sp }

def popWord (regs : Registers) : BusM (UInt16 × Registers) := do
  let value ← BusM.readWord regs.sp
  return (value, { regs with sp := regs.sp + 2 })

/-- Saves PC on the stack and goes on at `target`. -/
def callTo (regs : Registers) (target : UInt16) : BusM Registers := do
  let regs ← regs.pushWord regs.pc
  return { regs with pc := target }

def returnToCaller (regs : Registers) : BusM Registers := do
  let (pc, regs) ← regs.popWord
  return { regs with pc }

/-- Whether a branch is taken; one without a condition always is. -/
def takes (regs : Registers) : Option Condition → Bool
  | none => true
  | some condition => condition.holds regs.f

end Registers

namespace Operation

/-- What the operation does to the registers and on the bus. The flags are those it computes,
before its policy is applied. -/
def act (operation : Operation) (regs : Registers) : BusM Registers :=
  match operation with
  | .nop | .stop _ | .halt | .di | .ei | .scf => return regs
  | .load dst src => do
      let value ← src.read regs
      dst.write regs value
  | .loadAdjust adjustment dst src => do
      let value ← src.read regs
      let regs ← dst.write regs value
      return regs.set16 .hl (adjustment.word (regs.get16 .hl))
  | .load16 dst src => dst.write regs (src.value regs)
  | .loadHlSp offset =>
      let (hl, f) := addSigned regs.sp offset
      return { regs.set16 .hl hl with f }
  | .push pair => regs.pushWord (regs.get16 pair)
  | .pop pair => do
      let (value, regs) ← regs.popWord
      return regs.set16 pair value
  | .alu op src => do
      let value ← src.read regs
      return regs.accumulate (op.apply regs.a value regs.f.c)
  | .addHl src =>
      let (hl, f) := add16 (regs.get16 .hl) (regs.get16 src)
      return { regs.set16 .hl hl with f }
  | .addSp offset =>
      let (sp, f) := addSigned regs.sp offset
      return { regs with sp, f }
  | .adjust adjustment target => do
      let value ← target.read regs
      let (result, f) := adjustment.byte value
      let regs ← target.write regs result
      return { regs with f }
  | .adjust16 adjustment target =>
      return regs.set16 target (adjustment.word (regs.get16 target))
  | .daa => return regs.accumulate (decimalAdjust regs.a regs.f)
  | .cpl => return { regs with a := ~~~regs.a }
  | .ccf => return { regs with f := { regs.f with c := !regs.f.c } }
  | .rotateA rotation =>
      let (a, c) := rotation.apply regs.a regs.f.c
      return { regs with a, f := { regs.f with c } }
  | .shift op target => do
      let value ← target.read regs
      let (result, c) := op.apply value regs.f.c
      let regs ← target.write regs result
      return { regs with f := { regs.f with z := result == 0, c } }
  | .testBit index target => do
      let value ← target.read regs
      return { regs with f := { regs.f with z := value &&& Byte.mask index == 0 } }
  | .resetBit index target => do
      let value ← target.read regs
      target.write regs (value &&& ~~~Byte.mask index)
  | .setBit index target => do
      let value ← target.read regs
      target.write regs (value ||| Byte.mask index)
  | .jump condition target =>
      return if regs.takes condition then { regs with pc := target.value regs } else regs
  | .jumpRelative condition offset =>
      return if regs.takes condition then { regs with pc := regs.pc + Byte.signExtend offset }
        else regs
  | .call condition target => if regs.takes condition then regs.callTo target else return regs
  | .ret condition => if regs.takes condition then regs.returnToCaller else return regs
  | .reti => regs.returnToCaller
  | .rst vector => regs.callTo (Instruction.restartVector vector).toUInt16

def control (operation : Operation) (cpu : Cpu) : Cpu :=
  match operation with
  | .stop _ => { cpu with stopped := true }
  | .halt => { cpu with halted := true }
  | .di => { cpu with interrupts := cpu.interrupts.disable }
  | .ei => { cpu with interrupts := cpu.interrupts.schedule }
  | .reti => { cpu with interrupts := cpu.interrupts.enable }
  | _ => cpu

/-- The core once the operation has left `regs` behind: the flag policy is applied, the control state
changed, and the interrupt latch moved on. -/
def settle (operation : Operation) (cpu : Cpu) (regs : Registers) : Cpu :=
  let regs := { regs with f := operation.policy.apply cpu.regs.f regs.f }
  let cpu := operation.control { cpu with regs }
  { cpu with interrupts := cpu.interrupts.advance }

def execute (operation : Operation) (cpu : Cpu) : BusM Cpu :=
  operation.settle cpu <$> operation.act cpu.regs

theorem regs_control (operation : Operation) (cpu : Cpu) :
    (operation.control cpu).regs = cpu.regs := by
  cases operation <;> rfl

theorem regs_settle (operation : Operation) (cpu : Cpu) (regs : Registers) :
    (operation.settle cpu regs).regs =
      { regs with f := operation.policy.apply cpu.regs.f regs.f } :=
  regs_control operation _

end Operation

end Sm83
