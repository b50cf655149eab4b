import Sm83.Decoded
import Sm83.Proofs.Bus.Block
import Sm83.Proofs.Instruction.Operands
import Sm83.Proofs.Instruction.Routine

/-!
# What a fetch reads

Fetching the operands of an instruction reads a block of as many bytes as the operands take and
turns it into the arguments (`run_operation`). The reading given here of that block is the one that
an assembler has in mind: each operand takes its own bytes, and a word has its low byte first.
-/

namespace Sm83

open BusM

/-- The argument that an operand becomes when exactly the given bytes are there for it. -/
def OperandKind.argument? (regs : Registers) : OperandKind → List UInt8 → Option Argument
  | .reg8 r, [] => some (.reg8 r)
  | .reg16 r, [] => some (.reg16 r)
  | .byte (), [value] => some (.byte value)
  | .word (), [low, high] => some (.word (Word.join high low))
  | .memory (.pair r), [] => some (.memory (regs.get16 r))
  | .memory .absolute, [low, high] => some (.memory (Word.join high low))
  | .memory .high, [offset] => some (.memory (0xFF00 + offset.toUInt16))
  | .memory .highC, [] => some (.memory (0xFF00 + regs.c.toUInt16))
  | .condition cc, [] => some (.condition cc)
  | .bit index, [] => some (.bit index)
  | .vector address, [] => some (.vector address)
  | _, _ => none

def OperandKind.arguments? (regs : Registers) : List OperandKind → List UInt8 → Option (List Argument)
  | [], [] => some []
  | [], _ :: _ => none
  | kind :: rest, bytes => do
      let first ← kind.argument? regs (bytes.take kind.extraBytes)
      let others ← arguments? regs rest (bytes.drop kind.extraBytes)
      return first :: others

namespace FetchM

variable (regs : Registers)

def argument : OperandKind → FetchM Argument :=
  Operand.mapM (address regs) (fun _ => byte) (fun _ => word)

theorem run_argument (kind : OperandKind) (pc : UInt16) :
    (fun r => (some r.1, r.2)) <$> (argument regs kind).run pc =
      (fun bytes => (kind.argument? regs bytes, pc + kind.extraBytes.toUInt16)) <$>
        readBlock pc kind.extraBytes := by
  have two : pc + 1 + 1 = pc + 2 := UInt16.add_assoc pc 1 1
  have unread (kind : OperandKind) (h : kind.extraBytes = 0) :
      (fun bytes => (kind.argument? regs bytes, pc + kind.extraBytes.toUInt16)) <$>
        readBlock pc kind.extraBytes = Pure.pure (kind.argument? regs [], pc) := by
    simp [h, readBlock]
  rcases kind with _ | _ | _ | _ | mode | _ | _ | _
  case byte =>
    simp [argument, Operand.mapM, byte, readBlock, OperandKind.extraBytes]
    rfl
  case word =>
    simp [argument, Operand.mapM, word, byte, readBlock, OperandKind.extraBytes, two]
    rfl
  case memory =>
    cases mode with
    | absolute =>
      simp [argument, Operand.mapM, address, word, byte, readBlock, OperandKind.extraBytes,
        Addressing.extraBytes, two]
      rfl
    | high =>
      simp [argument, Operand.mapM, address, byte, readBlock, OperandKind.extraBytes,
        Addressing.extraBytes]
      rfl
    | pair r | highC => rw [unread] <;> rfl
  all_goals rw [unread] <;> rfl

/-- Fetching operands reads a block, and the arguments are what the operands make of it. -/
theorem run_arguments (kinds : List OperandKind) (pc : UInt16) :
    (fun r => (some r.1, r.2)) <$> (kinds.mapM (argument regs)).run pc =
      (fun bytes => (OperandKind.arguments? regs kinds bytes,
          pc + (OperandKind.totalBytes kinds).toUInt16)) <$>
        readBlock pc (OperandKind.totalBytes kinds) := by
  induction kinds generalizing pc with
  | nil => simp [readBlock, OperandKind.arguments?, OperandKind.totalBytes]
  | cons kind rest ih =>
    let size := OperandKind.totalBytes rest
    calc (fun r => (some r.1, r.2)) <$> ((kind :: rest).mapM (argument regs)).run pc
      _ = (do
            let x ← (fun r => (some r.1, r.2)) <$> (argument regs kind).run pc
            let y ← (fun r => (some r.1, r.2)) <$> (rest.mapM (argument regs)).run x.2
            return (do return (← x.1) :: (← y.1), y.2)) := by simp
      _ = (do
            let first ← readBlock pc kind.extraBytes
            let others ← readBlock (pc + kind.extraBytes.toUInt16) size
            return (do
              return (← kind.argument? regs first) :: (← OperandKind.arguments? regs rest others),
              pc + kind.extraBytes.toUInt16 + size.toUInt16)) := by
          simp only [run_argument, ih, bind_map_left, size]
      _ = _ := by
          simp only [OperandKind.totalBytes, readBlock_add, map_bind, map_pure, address_add]
          refine (length_readBlock pc kind.extraBytes).bind_congr fun first h => ?_
          simp [OperandKind.arguments?, ← h, size]

theorem operands_operation (form : Form) :
    Instruction.operands <$> operation regs form = form.operands.mapM (argument regs) :=
  Instruction.operands_mapM _ _ _ form

theorem run_operation (form : Form) (pc : UInt16) :
    (fun r => (some r.1.operands, r.2)) <$> (operation regs form).run pc =
      (fun bytes => (OperandKind.arguments? regs form.operands bytes,
          pc + form.extraBytes.toUInt16)) <$> readBlock pc form.extraBytes := by
  have fetched := run_arguments regs form.operands pc
  rw [← operands_operation, StateT.run_map, Functor.map_map] at fetched
  exact fetched

theorem run_byte (pc : UInt16) : byte.run pc = (fun value => (value, pc + 1)) <$> readByte pc := rfl

theorem run_opcode (pc : UInt16) :
    opcode.run pc = do
      let first ← readByte pc
      if first = Opcode.prefixByte then
        let second ← readByte (pc + 1)
        return (.prefixed second, pc + 2)
      else return (.plain first, pc + 1) := by
  have two : pc + 1 + 1 = pc + 2 := UInt16.add_assoc pc 1 1
  rw [opcode, StateT.run_bind, run_byte, bind_map_left]
  refine bind_congr fun first => ?_
  by_cases found : first = Opcode.prefixByte
  · simp [found, run_byte, two]
  · simp [found]

theorem always_opcode (pc : UInt16) :
    (opcode.run pc).Always fun r => r.2 = pc + r.1.bytes.length.toUInt16 := by
  rw [run_opcode, always_bind]
  refine always_of_forall fun first => ?_
  by_cases found : first = Opcode.prefixByte
  · rw [if_pos found]
    exact fun _ => rfl
  · rw [if_neg found]
    exact rfl

theorem always_advance (form : Form) (pc : UInt16) :
    ((operation regs form).run pc).Always fun r => r.2 = pc + form.extraBytes.toUInt16 := by
  have read : ((fun r => (some r.1.operands, r.2)) <$> (operation regs form).run pc).Always
      fun r => r.2 = pc + form.extraBytes.toUInt16 := by
    rw [run_operation, always_map]
    exact always_of_forall fun _ => rfl
  rwa [always_map] at read

/-- Settling its operands does not make another instruction of a form. -/
theorem always_operation (form : Form) (pc : UInt16) :
    ((operation regs form).run pc).Always fun r =>
      r.1.routine = form.routine ∧ r.1.policy = form.policy := by
  cases form
  case pop pair => cases pair <;> exact ⟨rfl, rfl⟩
  case shift op target =>
    simp only [operation, Instruction.mapM, StateT.run_bind, always_bind]
    cases op <;> exact always_of_forall fun _ => ⟨rfl, rfl⟩
  all_goals
    simp only [operation, Instruction.mapM, StateT.run_bind, StateT.run_pure, always_bind]
    repeat' first
      | exact ⟨rfl, rfl⟩
      | refine always_of_forall fun _ => ?_

end FetchM

end Sm83
