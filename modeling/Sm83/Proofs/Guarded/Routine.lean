import Sm83.Operation
import Sm83.Proofs.Guarded.Arithmetic
import Sm83.Proofs.Instruction.Routine

/-!
# Routines over argument lists

Each family of instructions has one routine, which is handed its arguments as a list and takes from
it what it needs. Nothing in the type of the list says how many arguments there are and of which
kinds, so a routine panics when it does not find what it expects. On the operands of an operation it
never does (`act_operands`): it accesses the bus as the operation does and leaves the same registers.
-/

namespace Sm83

namespace Guarded

abbrev Args := List Argument

def maxOperands : Nat := 2

def Args.push (args : Args) (argument : Argument) : Except Panic Args :=
  if args.length < maxOperands then .ok (args ++ [argument]) else .error .tooManyArguments

def readByte (regs : Registers) : Argument → GuardedM UInt8
  | .reg8 r => return regs.get8 r
  | .byte value => return value
  | .memory address => BusM.readByte address
  | _ => throw .unexpectedArgument

def writeByte (regs : Registers) (value : UInt8) : Argument → GuardedM Registers
  | .reg8 r => return regs.set8 r value
  | .memory address => do
      BusM.writeByte address value
      return regs
  | _ => throw .unexpectedArgument

def readWord (regs : Registers) : Argument → GuardedM UInt16
  | .reg16 r => return regs.get16 r
  | .word value => return value
  | .memory address => BusM.readWord address
  | _ => throw .unexpectedArgument

def writeWord (regs : Registers) (value : UInt16) : Argument → GuardedM Registers
  | .reg16 r => return regs.set16 r value
  | .memory address => do
      BusM.writeWord address value
      return regs
  | _ => throw .unexpectedArgument

/-- Whether a branch is taken, and the arguments without the condition if they begin with one. -/
def splitCondition (regs : Registers) : Args → Bool × Args
  | .condition cc :: rest => (cc.holds regs.f, rest)
  | args => (true, args)

def literalByte : Argument → Except Panic UInt8
  | .byte value => .ok value
  | _ => .error .unexpectedArgument

def bitArgs : Args → Except Panic (UInt8 × Argument)
  | [.bit index, target] => .ok (index, target)
  | _ => .error .unexpectedArgument

/-- Moves a word if either side is one, and a byte otherwise. -/
def load (regs : Registers) (args : Args) : GuardedM Registers := do
  let dst ← pick args 0
  let src ← pick args 1
  let wide :=
    match dst, src with
    | .reg16 _, _ | _, .reg16 _ | _, .word _ => true
    | _, _ => false
  if wide then
    let value ← readWord regs src
    writeWord regs value dst
  else
    let value ← readByte regs src
    writeByte regs value dst

def combine (op : AluOp) (regs : Registers) (args : Args) : GuardedM Registers := do
  let value ← readByte regs (← pick args 1)
  return regs.accumulate (← apply op regs.a value regs.f.c)

/-- Adds to HL, SP or A, as the first argument says. -/
def addTo (regs : Registers) (args : Args) : GuardedM Registers := do
  match ← pick args 0, ← pick args 1 with
  | .reg16 .hl, src =>
      let value ← readWord regs src
      let (hl, f) ← addPair (regs.get16 .hl) value
      return { regs.set16 .hl hl with f }
  | .reg16 .sp, .byte offset =>
      let (sp, f) ← addOffset regs.sp offset
      return { regs with sp, f }
  | _, src =>
      let value ← readByte regs src
      return regs.accumulate (← add regs.a value false)

def stepByOne (adjustment : Adjustment) (regs : Registers) (args : Args) : GuardedM Registers := do
  match ← pick args 0 with
  | .reg16 r => return regs.set16 r (adjustment.word (regs.get16 r))
  | target =>
      let value ← readByte regs target
      let (result, f) := adjustment.byte value
      let regs ← writeByte regs result target
      return { regs with f }

def act (routine : Routine) (regs : Registers) (args : Args) : GuardedM Registers :=
  match routine with
  | .nop | .stop | .halt | .di | .ei | .scf => return regs
  | .load => load regs args
  | .loadAdjust adjustment => do
      let regs ← load regs args
      return regs.set16 .hl (adjustment.word (regs.get16 .hl))
  | .loadHlSp => do
      let sp ← readWord regs (← pick args 0)
      let offset ← literalByte (← pick args 1)
      let (hl, f) ← addOffset sp offset
      return { regs.set16 .hl hl with f }
  | .push => do
      let value ← readWord regs (← pick args 0)
      regs.pushWord value
  | .pop => do
      let (value, regs) ← regs.popWord
      writeWord regs value (← pick args 0)
  | .alu .add => addTo regs args
  | .alu op => combine op regs args
  | .adjust adjustment => stepByOne adjustment regs args
  | .daa => return regs.accumulate (Arithmetic.decimalAdjust regs.a regs.f)
  | .cpl => return { regs with a := ~~~regs.a }
  | .ccf => return { regs with f := { regs.f with c := !regs.f.c } }
  | .rotateA rotation =>
      let (a, c) := rotation.apply regs.a regs.f.c
      return { regs with a, f := { regs.f with c } }
  | .shift op => do
      let target ← pick args 0
      let value ← readByte regs target
      let (result, c) := op.apply value regs.f.c
      let regs ← writeByte regs result target
      return { regs with f := { regs.f with z := result == 0, c } }
  | .testBit => do
      let (index, target) ← bitArgs args
      let value ← readByte regs target
      return { regs with f := { regs.f with z := value &&& (← mask index) == 0 } }
  | .resetBit => do
      let (index, target) ← bitArgs args
      let value ← readByte regs target
      writeByte regs (value &&& ~~~(← mask index)) target
  | .setBit => do
      let (index, target) ← bitArgs args
      let value ← readByte regs target
      writeByte regs (value ||| (← mask index)) target
  | .jump => do
      let (taken, rest) := splitCondition regs args
      if taken then return { regs with pc := ← readWord regs (← pick rest 0) } else return regs
  | .jumpRelative => do
      let (taken, rest) := splitCondition regs args
      let offset ← literalByte (← pick rest 0)
      return if taken then { regs with pc := regs.pc + Byte.signExtend offset } else regs
  | .call => do
      let (taken, rest) := splitCondition regs args
      if taken then
        let target ← readWord regs (← pick rest 0)
        regs.callTo target
      else return regs
  | .ret => do
      let (taken, _) := splitCondition regs args
      if taken then regs.returnToCaller else return regs
  | .reti => regs.returnToCaller
  | .rst => do
      match ← pick args 0 with
      | .vector address => regs.callTo address.toUInt16
      | _ => throw .unexpectedArgument

theorem readByte_place (regs : Registers) (p : Place UInt16) :
    readByte regs p.operand = liftM (p.read regs) := by
  cases p <;> rfl

theorem readByte_source (regs : Registers) (s : Source UInt16 UInt8) :
    readByte regs s.operand = liftM (s.read regs) := by
  cases s with
  | place p => exact readByte_place regs p
  | literal value => rfl

theorem writeByte_place (regs : Registers) (value : UInt8) (p : Place UInt16) :
    writeByte regs value p.operand = liftM (p.write regs value) := by
  cases p <;> rfl

theorem readWord_source (regs : Registers) (s : WordSource UInt16) :
    readWord regs s.operand = pure (s.value regs) := by
  cases s <;> rfl

theorem load_bytes (regs : Registers) (dst : Place UInt16) (src : Source UInt16 UInt8) :
    load regs [dst.operand, src.operand] = liftM (src.read regs >>= dst.write regs) := by
  rcases dst with _ | _ <;> rcases src with (_ | _) | _ <;> rfl

theorem load_words (regs : Registers) (dst : WordPlace UInt16) (src : WordSource UInt16) :
    load regs [dst.operand, src.operand] = liftM (dst.write regs (src.value regs)) := by
  rcases dst with _ | _ <;> rcases src with _ | _ <;> rfl

/-- The argument after an optional condition must not be taken for one. -/
theorem splitCondition_append (regs : Registers) (condition : Option Condition)
    (argument : Argument) (h : ∀ cc, argument ≠ .condition cc) :
    splitCondition regs (Instruction.conditionOperand condition ++ [argument]) =
      (regs.takes condition, [argument]) := by
  cases condition with
  | some cc => rfl
  | none =>
    cases argument with
    | condition cc => exact (h cc rfl).elim
    | _ => rfl

/-- Its own operands are all that the routine of an operation asks for. -/
theorem act_operands (operation : Operation) (regs : Registers) :
    act operation.routine regs operation.operands = liftM (operation.act regs) := by
  cases operation with
  | load dst src => exact load_bytes regs dst src
  | loadAdjust adjustment dst src =>
    simp [act, Instruction.routine, Instruction.operands, Operation.act, load_bytes]
  | load16 dst src => exact load_words regs dst src
  | loadHlSp offset =>
    simp [act, Instruction.routine, Instruction.operands, Operation.act, pick, literalByte,
      readWord, addOffset_eq, Registers.get16]
  | pop pair =>
    simp [act, Instruction.routine, Instruction.operands, Operation.act, pick, writeWord]
  | alu op src =>
    have combined : combine op regs [.reg8 .a, src.operand] =
        liftM (Operation.act (.alu op src) regs) := by
      simp [combine, pick, readByte_source, apply_eq, Operation.act]
    cases op with
    | add =>
      simp [act, Instruction.routine, Instruction.operands, Operation.act, addTo, pick,
        readByte_source, add_eq, AluOp.apply]
    | _ => exact combined
  | addHl src =>
    simp [act, Instruction.routine, Instruction.operands, Operation.act, addTo, pick, readWord,
      addPair_eq]
  | addSp offset =>
    simp [act, Instruction.routine, Instruction.operands, Operation.act, addTo, pick, addOffset_eq]
  | adjust adjustment target => cases target <;> rfl
  | shift op target =>
    simp [act, Instruction.routine, Instruction.operands, Operation.act, pick, readByte_place,
      writeByte_place]
  | testBit index target =>
    simp [act, Instruction.routine, Instruction.operands, Operation.act, bitArgs, readByte_place,
      mask_eq]
  | resetBit index target | setBit index target =>
    simp [act, Instruction.routine, Instruction.operands, Operation.act, bitArgs, readByte_place,
      writeByte_place, mask_eq]
  | jump condition target =>
    have split := splitCondition_append regs condition target.operand
      (by cases target <;> simp [WordSource.operand])
    simp only [act, Instruction.routine, Instruction.operands, Operation.act, split]
    cases regs.takes condition <;> simp [pick, readWord_source]
  | jumpRelative condition offset =>
    have split := splitCondition_append regs condition (.byte offset) (by simp)
    simp only [act, Instruction.routine, Instruction.operands, Operation.act, split]
    cases regs.takes condition <;> rfl
  | call condition target =>
    have split := splitCondition_append regs condition (.word target) (by simp)
    simp only [act, Instruction.routine, Instruction.operands, Operation.act, split]
    cases regs.takes condition <;> rfl
  | ret condition =>
    have taken : (splitCondition regs (Instruction.conditionOperand condition)).1 =
        regs.takes condition := by
      cases condition <;> rfl
    simp only [act, Instruction.routine, Instruction.operands, Operation.act, taken]
    cases regs.takes condition <;> rfl
  | _ => rfl

end Guarded

end Sm83
