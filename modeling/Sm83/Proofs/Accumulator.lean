import Sm83.Proofs.Arithmetic.Widened
import Sm83.Proofs.Step

/-!
# Operations on the accumulator in a step

A step that executes an operation on the accumulator leaves in A and in the flags what arithmetic
without a width says of A and the source, moves PC behind the instruction, and changes nothing else
(`run_step_alu`). Which operation that is and which byte is its source can be read off the opcode
(`step_alu`).
-/

namespace Sm83

open FlatBus (memory)

variable {σ : Type} [Bus σ] [FlatBus σ]

namespace Source

/-- The byte that a source stands for. -/
def value (regs : Registers) (m : Memory) : Source UInt16 UInt8 → UInt8
  | .place (.reg r) => regs.get8 r
  | .place (.memory address) => m.read address
  | .literal value => value

theorem run_read (source : Source UInt16 UInt8) (regs : Registers) (bus : σ) :
    (source.read regs).run bus = (source.value regs (memory bus), bus) := by
  cases source with
  | literal value => rfl
  | place p =>
    cases p with
    | reg r => rfl
    | memory address => exact FlatBus.read_eq address bus

theorem value_withPc (source : Source UInt16 UInt8) (cpu : Cpu) (pc : UInt16) (m : Memory) :
    source.value (cpu.withPc pc).regs m = source.value cpu.regs m := by
  cases source with
  | literal value => rfl
  | place p =>
    cases p with
    | reg r => cases r <;> rfl
    | memory address => rfl

end Source

/-- The source of an instruction at PC, with the bytes there filled in. -/
def Cpu.sourceOf (cpu : Cpu) (m : Memory) (entry : Entry) (src : Source Addressing Unit) :
    Source UInt16 UInt8 :=
  src.fill cpu.regs
    (m.block (cpu.regs.pc + entry.opcode.bytes.length.toUInt16) entry.form.extraBytes)

theorem Cpu.value_sourceOf_literal (cpu : Cpu) (m : Memory) (byte : UInt8) (op : AluOp) :
    (cpu.sourceOf m { opcode := .plain byte, form := .alu op (.literal ()) } (.literal ())).value
      cpu.regs m = m.read (cpu.regs.pc + 1) := by
  change literalByte (m.block (cpu.regs.pc + (1 : Nat).toUInt16) (0 + 1)) = _
  rw [Memory.block_succ]
  rfl

theorem Cpu.run_step_alu (cpu : Cpu) (bus : σ) {entry : Entry} {op : AluOp}
    {src : Source Addressing Unit} (running : cpu.stopped = false ∧ cpu.halted = false)
    (h : Entry.ofOpcode? ((memory bus).opcodeAt cpu.regs.pc) = some entry)
    (form : entry.form = .alu op src) :
    let value := (cpu.sourceOf (memory bus) entry src).value cpu.regs (memory bus)
    let left := op.widened cpu.regs.a value cpu.regs.f.c
    let regs := { cpu.regs with
      a := left.1, f := left.2, pc := cpu.regs.pc + entry.size.toUInt16 }
    cpu.step.run bus =
      ((.executed entry, { cpu with regs, interrupts := cpu.interrupts.advance }), bus) := by
  intro value left regs
  have operation : (cpu.decodedAs (memory bus) entry).operation =
      .alu op (cpu.sourceOf (memory bus) entry src) := by
    rw [decodedAs, sourceOf, form]
    rfl
  rw [cpu.run_step bus running h, operation]
  simp only [Operation.act, BusM.run_bind, Source.run_read, BusM.run_pure, Source.value_withPc]
  have eq := op.apply_policy_eq cpu.regs.a value cpu.regs.f
  simp only [left, regs, ← eq]
  rfl

/-! ### The opcodes -/

/-- Where an opcode has its operand: in a field of three bits that selects it, or behind itself. -/
inductive AluOperand where
  | field (index : Fin 8)
  | immediate
  deriving DecidableEq

def AluOp.row : AluOp → UInt8
  | add => 0
  | adc => 1
  | sub => 2
  | sbc => 3
  | and => 4
  | xor => 5
  | or => 6
  | cp => 7

/-- The byte that a field of three bits selects. -/
def Registers.selected (regs : Registers) (m : Memory) : Fin 8 → UInt8
  | 0 => regs.b
  | 1 => regs.c
  | 2 => regs.d
  | 3 => regs.e
  | 4 => regs.h
  | 5 => regs.l
  | 6 => m.read (Word.join regs.h regs.l)
  | 7 => regs.a

namespace AluOperand

def opcode (op : AluOp) : AluOperand → UInt8
  | field index => 0x80 + 8 * op.row + index.val.toUInt8
  | immediate => 0xC6 + 8 * op.row

def size : AluOperand → UInt16
  | field _ => 1
  | immediate => 2

def value (regs : Registers) (m : Memory) : AluOperand → UInt8
  | field index => regs.selected m index
  | immediate => m.read (regs.pc + 1)

def source : AluOperand → Source Addressing Unit
  | field index => .place (Form.place index)
  | immediate => .literal ()

def entry (op : AluOp) (operand : AluOperand) : Entry where
  opcode := .plain (operand.opcode op)
  form := .alu op operand.source

theorem ofOpcode?_entry (op : AluOp) (operand : AluOperand) :
    Entry.ofOpcode? (.plain (operand.opcode op)) = some (operand.entry op) := by
  cases operand with
  | field index =>
    revert index
    cases op <;> decide
  | immediate => cases op <;> rfl

theorem size_entry (op : AluOp) (operand : AluOperand) :
    (operand.entry op).size.toUInt16 = operand.size := by
  cases operand with
  | field index =>
    revert index
    cases op <;> decide
  | immediate => rfl

theorem value_sourceOf (op : AluOp) (operand : AluOperand) (cpu : Cpu) (m : Memory) :
    (cpu.sourceOf m (operand.entry op) operand.source).value cpu.regs m =
      operand.value cpu.regs m := by
  cases operand with
  | field index =>
    match index with
    | 0 | 1 | 2 | 3 | 4 | 5 | 6 | 7 => rfl
  | immediate => exact cpu.value_sourceOf_literal m _ op

end AluOperand

/-- The difference of a byte and itself is zero without a borrow. -/
theorem Widened.difference_self (a : UInt8) :
    Widened.difference a a false = (0, { z := true, n := true }) := by
  simp [difference]

/-- At an opcode of an operation on the accumulator the step leaves in A and in the flags what the
operation has to leave there, for the operand that the opcode selects or that follows it. PC moves
behind the instruction, and no other register, no cell and no bit that parks the core changes. -/
theorem Cpu.step_alu (cpu : Cpu) (bus : σ) (running : cpu.stopped = false ∧ cpu.halted = false)
    {op : AluOp} {operand : AluOperand}
    (opcode : (memory bus).read cpu.regs.pc = operand.opcode op) :
    let left := op.widened cpu.regs.a (operand.value cpu.regs (memory bus)) cpu.regs.f.c
    let regs := { cpu.regs with a := left.1, f := left.2, pc := cpu.regs.pc + operand.size }
    cpu.step.run bus =
      ((.executed (operand.entry op), { cpu with regs, interrupts := cpu.interrupts.advance }),
        bus) ∧
    ((op = .sub ∨ op = .cp) → operand = .field 7 → regs.f = { z := true, n := true }) := by
  intro left regs
  have found := Memory.found_of_read opcode (operand.ofOpcode?_entry op)
  have step := cpu.run_step_alu bus running found rfl
  rw [operand.value_sourceOf, operand.size_entry] at step
  refine ⟨step, ?_⟩
  rintro (rfl | rfl) rfl
  · exact congrArg Prod.snd (Widened.difference_self cpu.regs.a)
  · exact congrArg Prod.snd (Widened.difference_self cpu.regs.a)

/-- `SBC A, (HL)` with HL at the instruction itself, and `SUB A, A` in the last cell. -/
theorem Cpu.step_alu_of_own_opcode :
    let cpu : Cpu := { regs := { a := 0x9D, f := { c := true }, h := 0xC0, pc := 0xC000 } }
    let m := Memory.zero.write 0xC000 0x9E
    let last : Cpu := { regs := { a := 0x5A, f := { c := true }, pc := 0xFFFF } }
    let n := Memory.zero.write 0xFFFF 0x97
    m.read 0xC000 = AluOperand.opcode .sbc (.field 6) ∧
    cpu.step.run m =
      ((.executed ⟨.plain 0x9E, .alu .sbc (.place (.memory (.pair .hl)))⟩,
        { regs :=
            { a := 0xFE, f := { n := true, h := true, c := true }, h := 0xC0, pc := 0xC001 } }),
        m) ∧
    n.read 0xFFFF = AluOperand.opcode .sub (.field 7) ∧
    (last.step.run n).1.1 = .executed ⟨.plain 0x97, .alu .sub (.place (.reg .a))⟩ ∧
    (last.step.run n).1.2.regs.f = { z := true, n := true } := by
  intro cpu m last n
  have byte : m.read 0xC000 = 0x9E := Memory.read_write_self _ _ _
  have opcode : m.read 0xC000 = AluOperand.opcode .sbc (.field 6) := byte.trans (by decide)
  have pointed : Word.join 0xC0 0x00 = 0xC000 := by decide
  have operand : (AluOperand.field 6).value cpu.regs m = 0x9E :=
    (congrArg m.read pointed).trans byte
  have left : AluOp.sbc.widened cpu.regs.a 0x9E cpu.regs.f.c =
      (0xFE, { n := true, h := true, c := true }) := by
    change AluOp.sbc.widened 0x9D 0x9E true = _
    decide
  have step := (cpu.step_alu m ⟨rfl, rfl⟩ opcode).1
  rw [show FlatBus.memory m = m from rfl, operand, left] at step
  have opcode' : n.read 0xFFFF = AluOperand.opcode .sub (.field 7) :=
    (Memory.read_write_self _ _ 0x97).trans (by decide)
  obtain ⟨step', flags⟩ := last.step_alu n ⟨rfl, rfl⟩ opcode'
  refine ⟨opcode, step, opcode', ?_⟩
  rw [step']
  exact ⟨rfl, flags (.inl rfl) rfl⟩

end Sm83
