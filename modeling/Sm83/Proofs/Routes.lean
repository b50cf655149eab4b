import Sm83.Proofs.Dependence.Flags
import Sm83.Proofs.Perform
import Sm83.Proofs.Prefixed
import Sm83.Proofs.Transfer

/-!
# Different routes to the same effect

Much of what an instruction does can be done in another way as well: by two others in a row, by
another one after the carry has been cleared, or by another one after which some register is put
back. The two ways leave the same registers and flags and the same bus (`routes_agree`). PC may
differ where they are not equally long; the ways of transferring control lead to the same PC too.
-/

namespace Sm83

namespace Cpu

def withoutPc (cpu : Cpu) : Registers :=
  (cpu.withPc 0).regs

def set8 (cpu : Cpu) (r : Reg8) (value : UInt8) : Cpu :=
  { cpu with regs := cpu.regs.set8 r value }

def set16 (cpu : Cpu) (r : Reg16) (value : UInt16) : Cpu :=
  { cpu with regs := cpu.regs.set16 r value }

def withCarry (cpu : Cpu) (c : Bool) : Cpu :=
  cpu.withFlags { cpu.regs.f with c }

def withZero (cpu : Cpu) (z : Bool) : Cpu :=
  cpu.withFlags { cpu.regs.f with z }

end Cpu

/-- On every bus the programs leave the same registers, PC aside, and the same bus. -/
def BusM.SameButPc (p q : BusM Cpu) : Prop :=
  ∀ (σ : Type) [Bus σ] (bus : σ),
    (p.run bus).1.withoutPc = (q.run bus).1.withoutPc ∧ (p.run bus).2 = (q.run bus).2

theorem BusM.sameButPc_of_eq {p q : BusM Cpu}
    (same : Cpu.withoutPc <$> p = Cpu.withoutPc <$> q) : p.SameButPc q := by
  intro σ _ bus
  have runs := congrArg (BusM.run · bus) same
  simp only [run_map, Prod.mk.injEq] at runs
  exact runs

/-- The opcode of the rotation of A. Behind CB it stands for the rotation of A too. -/
def Rotation.opcode : Rotation → UInt8
  | leftCircular => 0x07
  | rightCircular => 0x0F
  | left => 0x17
  | right => 0x1F

namespace AluOperand

def literals (literal : UInt8) : AluOperand → List UInt8
  | field _ => []
  | immediate => [literal]

/-- The bytes of an operation on the accumulator. -/
def code (op : AluOp) (literal : UInt8) (operand : AluOperand) : List UInt8 :=
  operand.opcode op :: operand.literals literal

end AluOperand

namespace Operation

open Arithmetic

variable (cpu : Cpu)

theorem act_loadAdjust (adjustment : Adjustment) (dst : Place UInt16) (src : Source UInt16 UInt8)
    (regs : Registers) :
    act (.loadAdjust adjustment dst src) regs =
      (fun after => after.set16 .hl (adjustment.word (after.get16 .hl))) <$>
        act (.load dst src) regs := by
  simp [act]

theorem execute_loadAdjust (adjustment : Adjustment) (dst : Place UInt16)
    (src : Source UInt16 UInt8) :
    Cpu.withoutPc <$> execute (.loadAdjust adjustment dst src) cpu =
      Cpu.withoutPc <$> (execute (.load dst src) cpu >>= fun next =>
        execute (.adjust16 adjustment .hl) (next.withPc (next.regs.pc + 1))) := by
  simp only [execute, act_loadAdjust, bind_map_left, map_bind, Functor.map_map]
  rw [map_eq_pure_bind]
  exact bind_congr fun after => rfl

/-- With no carry to take in, adding and subtracting with the carry is doing so without it. -/
theorem execute_alu_withCarry (src : Source UInt16 UInt8) :
    execute (.alu .adc src) (cpu.withCarry false) = execute (.alu .add src) cpu ∧
      execute (.alu .sbc src) (cpu.withCarry false) = execute (.alu .sub src) cpu := by
  have add : execute (.alu .add src) (cpu.withCarry false) = execute (.alu .add src) cpu :=
    execute_withFlags_of_deaf rfl rfl (fun which => by cases which <;> nofun) cpu _
  have sub : execute (.alu .sub src) (cpu.withCarry false) = execute (.alu .sub src) cpu :=
    execute_withFlags_of_deaf rfl rfl (fun which => by cases which <;> nofun) cpu _
  rw [← add, ← sub]
  exact ⟨rfl, rfl⟩

/-- With no carry to take in, rotating through the carry is shifting. -/
theorem execute_shift_withCarry (target : Place UInt16) :
    execute (.shift (.rotate .left) target) (cpu.withCarry false) =
        execute (.shift .leftArithmetic target) cpu ∧
      execute (.shift (.rotate .right) target) (cpu.withCarry false) =
        execute (.shift .rightLogical target) cpu := by
  have left : execute (.shift .leftArithmetic target) (cpu.withCarry false) =
      execute (.shift .leftArithmetic target) cpu :=
    execute_withFlags_of_deaf rfl rfl (fun which => by cases which <;> nofun) cpu _
  have right : execute (.shift .rightLogical target) (cpu.withCarry false) =
      execute (.shift .rightLogical target) cpu :=
    execute_withFlags_of_deaf rfl rfl (fun which => by cases which <;> nofun) cpu _
  have rl (value : UInt8) :
      (Shift.rotate .left).apply value false = Shift.leftArithmetic.apply value false := by
    simp [Shift.apply, Rotation.apply, Bool.toUInt8]
  have rr (value : UInt8) :
      (Shift.rotate .right).apply value false = Shift.rightLogical.apply value false := by
    simp [Shift.apply, Rotation.apply, Bool.toUInt8]
  rw [← left, ← right]
  simp only [execute, act, Cpu.withCarry, Cpu.withFlags, Registers.withFlags, rl, rr]
  exact ⟨rfl, rfl⟩

theorem execute_cp (src : Source UInt16 UInt8) :
    execute (.alu .cp src) cpu =
      (·.set8 .a cpu.regs.a) <$> execute (.alu .sub src) cpu := by
  simp only [execute, act, map_bind, Functor.map_map]
  rfl

theorem add8_one (value : UInt8) :
    add8 value 1 false = ((inc8 value).1, { (inc8 value).2 with c := value == 0xFF }) :=
  Byte.forall_of_lt (by decide +kernel) value

theorem sub8_one (value : UInt8) :
    sub8 value 1 false = ((dec8 value).1, { (dec8 value).2 with c := value == 0 }) :=
  Byte.forall_of_lt (by decide +kernel) value

/-- A step by one is an addition or subtraction of one that hands the carry through. -/
theorem execute_adjust_a (pc : UInt16) :
    Cpu.withoutPc <$> execute (.adjust .increment (.reg .a)) cpu =
        Cpu.withoutPc <$> (·.withCarry cpu.regs.f.c) <$>
          execute (.alu .add (.literal 1)) (cpu.withPc pc) ∧
      Cpu.withoutPc <$> execute (.adjust .decrement (.reg .a)) cpu =
        Cpu.withoutPc <$> (·.withCarry cpu.regs.f.c) <$>
          execute (.alu .sub (.literal 1)) (cpu.withPc pc) := by
  have add := add8_one cpu.regs.a
  have sub := sub8_one cpu.regs.a
  constructor
  · simp only [execute, act, Place.read, Place.write, Source.read, pure_bind, map_pure,
      AluOp.apply, Cpu.withPc, add]
    rfl
  · simp only [execute, act, Place.read, Place.write, Source.read, pure_bind, map_pure,
      AluOp.apply, Cpu.withPc, sub]
    rfl

theorem execute_rotateA (rotation : Rotation) (pc : UInt16) :
    Cpu.withoutPc <$> execute (.rotateA rotation) cpu =
      Cpu.withoutPc <$> (·.withZero false) <$>
        execute (.shift (.rotate rotation) (.reg .a)) (cpu.withPc pc) := by
  rfl

theorem execute_addSp (offset : UInt8) (pc : UInt16) :
    Cpu.withoutPc <$> execute (.addSp offset) cpu =
      Cpu.withoutPc <$>
        (·.set16 .hl (cpu.regs.get16 .hl)) <$>
          (execute (.loadHlSp offset) cpu >>= fun next =>
            execute (.load16 (.reg .sp) (.reg .hl)) (next.withPc pc)) := by
  let sum := addSigned cpu.regs.sp offset
  let f := FlagPolicy.apply (.ofChars '0' '0' 'H' 'C') cpu.regs.f sum.2
  let hl := Word.join cpu.regs.h cpu.regs.l
  -- The sum is taken apart into H and L and put together again.
  change (Pure.pure { cpu.regs with f, sp := sum.1, pc := 0 } : BusM Registers) =
    Pure.pure { cpu.regs with
      f, h := Word.high hl, l := Word.low hl, sp := Word.join (Word.high sum.1) (Word.low sum.1)
      pc := 0 }
  rw [Word.join_high_low, Word.high_join, Word.low_join]

theorem execute_reti :
    execute .reti cpu =
      (fun after => { after with interrupts := after.interrupts.enable }) <$>
        execute (.ret none) cpu := by
  have latch (latch : Interrupts) : latch.enable.advance = latch.advance.enable := by
    rcases latch with ⟨_, _ | _, _ | _⟩ <;> rfl
  have settled (after : Registers) : settle .reti cpu after =
      let left := settle (.ret none) cpu after
      { left with interrupts := left.interrupts.enable } :=
    congrArg (Cpu.mk _ · _ _) (latch cpu.interrupts)
  rw [execute, execute, funext settled, Functor.map_map]
  rfl

theorem execute_rst (vector : Fin 8) :
    execute (.rst vector) cpu = execute (.call none (8 * vector.val).toUInt16) cpu := by
  have target : (Instruction.restartVector vector).toUInt16 = (8 * vector.val).toUInt16 := by
    revert vector
    decide
  rw [← target]
  rfl

theorem execute_jumpRelative (condition : Option Condition) (offset : UInt8) :
    let target := UInt16.ofInt (cpu.regs.pc.toNat + Byte.signed offset)
    execute (.jumpRelative condition offset) cpu =
      execute (.jump condition (.literal target)) cpu := by
  rw [← Byte.add_signExtend]
  rfl

end Operation

/-! ### Instructions -/

namespace Cpu

open BusM

variable (cpu : Cpu)

theorem sameButPc_loadAdjust {adjustment : Adjustment} {dst : Place Addressing}
    {src : Source Addressing Unit} {both move adjust : UInt8}
    (both_listed :
      Entry.ofOpcode? (.plain both) = some ⟨.plain both, .loadAdjust adjustment dst src⟩)
    (move_listed : Entry.ofOpcode? (.plain move) = some ⟨.plain move, .load dst src⟩)
    (adjust_listed :
      Entry.ofOpcode? (.plain adjust) = some ⟨.plain adjust, .adjust16 adjustment .hl⟩)
    (bare : 0 = Form.extraBytes (.load dst src)) :
    (cpu.perform [both]).SameButPc (cpu.performAll [[move], [adjust]]) := by
  have first := cpu.perform_plain both [] both_listed bare
  have second := cpu.perform_plain move [] move_listed bare
  have third (next : Cpu) := next.perform_plain adjust [] adjust_listed rfl
  rw [performAll_pair, first, second]
  simp only [third]
  exact sameButPc_of_eq (Operation.execute_loadAdjust _ adjustment _ _)

/-- Between A and a cell it is no matter how the cell is named. -/
theorem sameButPc_move {mode mode' : Addressing} {literals literals' : List UInt8}
    (same : mode.target cpu.regs literals = mode'.target cpu.regs literals') (pc pc' : UInt16) :
    let store (mode : Addressing) : Form := .load (.memory mode) (.place Form.accumulator)
    let fetch (mode : Addressing) : Form := .load Form.accumulator (.place (.memory mode))
    (((store mode).fill cpu.regs literals).execute (cpu.withPc pc)).SameButPc
        (((store mode').fill cpu.regs literals').execute (cpu.withPc pc')) ∧
      (((fetch mode).fill cpu.regs literals).execute (cpu.withPc pc)).SameButPc
        (((fetch mode').fill cpu.regs literals').execute (cpu.withPc pc')) := by
  let address := mode.target cpu.regs literals
  have store : ((Form.fill cpu.regs literals' (.load (.memory mode') (.place Form.accumulator)))) =
      .load (.memory address) (.place (.reg .a)) :=
    congrArg (fun address => Instruction.load (.memory address) (.place (.reg .a))) same.symm
  have fetch : ((Form.fill cpu.regs literals' (.load Form.accumulator (.place (.memory mode'))))) =
      .load (.reg .a) (.place (.memory address)) :=
    congrArg (fun address => Instruction.load (.reg .a) (.place (.memory address))) same.symm
  dsimp only
  rw [store, fetch]
  exact ⟨sameButPc_of_eq rfl, sameButPc_of_eq rfl⟩

theorem sameButPc_page (offset : UInt8) :
    let address := 0xFF00 + offset.toUInt16
    (cpu.perform [0xE0, offset]).SameButPc
        (cpu.perform [0xEA, Word.low address, Word.high address]) ∧
      (cpu.perform [0xF0, offset]).SameButPc
        (cpu.perform [0xFA, Word.low address, Word.high address]) := by
  intro address
  rw [cpu.perform_plain 0xE0 [offset] rfl rfl, cpu.perform_plain 0xEA [_, _] rfl rfl,
    cpu.perform_plain 0xF0 [offset] rfl rfl, cpu.perform_plain 0xFA [_, _] rfl rfl]
  have same : Addressing.high.target cpu.regs [offset] =
      Addressing.absolute.target cpu.regs [Word.low address, Word.high address] :=
    (Word.join_high_low address).symm
  exact cpu.sameButPc_move same _ _

theorem sameButPc_pageC :
    (cpu.perform [0xE2]).SameButPc (cpu.perform [0xE0, cpu.regs.c]) ∧
      (cpu.perform [0xF2]).SameButPc (cpu.perform [0xF0, cpu.regs.c]) := by
  rw [cpu.perform_plain 0xE2 [] rfl rfl, cpu.perform_plain 0xE0 [_] rfl rfl,
    cpu.perform_plain 0xF2 [] rfl rfl, cpu.perform_plain 0xF0 [_] rfl rfl]
  exact cpu.sameButPc_move rfl _ _

theorem perform_alu (op : AluOp) (literal : UInt8) (operand : AluOperand) :
    let literals := operand.literals literal
    cpu.perform (operand.code op literal) =
      Operation.execute (.alu op (operand.source.fill cpu.regs literals))
        (cpu.withPc (cpu.regs.pc + (literals.length + 1).toUInt16)) := by
  intro literals
  have complete : literals.length = (operand.entry op).form.extraBytes := by
    cases operand with
    | field index =>
      match index with
      | 0 | 1 | 2 | 3 | 4 | 5 | 6 | 7 => rfl
    | immediate => rfl
  exact cpu.perform_plain _ literals (operand.ofOpcode?_entry op) complete

theorem fill_place_withCarry (index : Nat) (c : Bool) (literals : List UInt8) :
    (Form.place index).fill (cpu.withCarry c).regs literals =
      (Form.place index).fill cpu.regs literals := by
  unfold Form.place
  split <;> rfl

theorem perform_alu_withCarry (literal : UInt8) (operand : AluOperand) :
    let bare := cpu.withCarry false
    cpu.perform (operand.code .add literal) = bare.perform (operand.code .adc literal) ∧
      cpu.perform (operand.code .sub literal) = bare.perform (operand.code .sbc literal) := by
  intro bare
  have source : operand.source.fill bare.regs (operand.literals literal) =
      operand.source.fill cpu.regs (operand.literals literal) := by
    cases operand with
    | field index => exact congrArg Source.place (cpu.fill_place_withCarry index false [])
    | immediate => rfl
  obtain ⟨add, sub⟩ := Operation.execute_alu_withCarry
    (cpu.withPc (cpu.regs.pc + ((operand.literals literal).length + 1).toUInt16))
    (operand.source.fill cpu.regs (operand.literals literal))
  rw [perform_alu, perform_alu, perform_alu, perform_alu, source]
  exact ⟨add.symm, sub.symm⟩

theorem perform_cp (literal : UInt8) (operand : AluOperand) :
    cpu.perform (operand.code .cp literal) =
      (·.set8 .a cpu.regs.a) <$> cpu.perform (operand.code .sub literal) := by
  rw [perform_alu, perform_alu]
  exact Operation.execute_cp _ _

theorem sameButPc_adjust_a :
    (cpu.perform [0x3C]).SameButPc ((·.withCarry cpu.regs.f.c) <$> cpu.perform [0xC6, 0x01]) ∧
      (cpu.perform [0x3D]).SameButPc ((·.withCarry cpu.regs.f.c) <$> cpu.perform [0xD6, 0x01]) := by
  rw [cpu.perform_plain 0x3C [] rfl rfl, cpu.perform_plain 0xC6 [0x01] rfl rfl,
    cpu.perform_plain 0x3D [] rfl rfl, cpu.perform_plain 0xD6 [0x01] rfl rfl]
  obtain ⟨up, down⟩ := Operation.execute_adjust_a (cpu.withPc (cpu.regs.pc + 1)) (cpu.regs.pc + 2)
  exact ⟨sameButPc_of_eq up, sameButPc_of_eq down⟩

theorem perform_shift (row target : Fin 8) :
    cpu.perform [0xCB, 8 * row.val.toUInt8 + target.val.toUInt8] =
      Operation.execute (.shift (Shift.row row) ((Form.place target.val).fill cpu.regs []))
        (cpu.withPc (cpu.regs.pc + 2)) := by
  have fields : ∀ row target : Fin 8,
      let byte := 8 * row.val.toUInt8 + target.val.toUInt8
      Prefixed.quarter byte = 0 ∧ Prefixed.row byte = row ∧ Prefixed.target byte = target := by
    decide
  obtain ⟨quarter, first, second⟩ := fields row target
  rw [perform_prefixed, Prefixed.fill_form, quarter, first, second]
  rfl

theorem perform_shift_withCarry (target : Fin 8) :
    let bare := cpu.withCarry false
    cpu.perform [0xCB, 0x20 + target.val.toUInt8] = bare.perform [0xCB, 0x10 + target.val.toUInt8] ∧
      cpu.perform [0xCB, 0x38 + target.val.toUInt8] =
        bare.perform [0xCB, 0x18 + target.val.toUInt8] := by
  intro bare
  have place := cpu.fill_place_withCarry target.val false []
  obtain ⟨left, right⟩ := Operation.execute_shift_withCarry (cpu.withPc (cpu.regs.pc + 2))
    ((Form.place target.val).fill cpu.regs [])
  have sla := cpu.perform_shift 4 target
  have srl := cpu.perform_shift 7 target
  have rl := bare.perform_shift 2 target
  have rr := bare.perform_shift 3 target
  rw [place] at rl rr
  exact ⟨sla.trans (left.symm.trans rl.symm), srl.trans (right.symm.trans rr.symm)⟩

theorem sameButPc_rotateA (rotation : Rotation) :
    (cpu.perform [rotation.opcode]).SameButPc
      ((·.withZero false) <$> cpu.perform [0xCB, rotation.opcode]) := by
  have listed : Entry.ofOpcode? (.plain rotation.opcode) =
      some ⟨.plain rotation.opcode, .rotateA rotation⟩ := by
    cases rotation <;> rfl
  have behind : (Form.prefixed rotation.opcode).fill cpu.regs [] =
      .shift (.rotate rotation) (.reg .a) := by
    cases rotation <;> rfl
  rw [cpu.perform_plain _ [] listed rfl, perform_prefixed, behind]
  exact sameButPc_of_eq (Operation.execute_rotateA (cpu.withPc _) rotation _)

theorem sameButPc_addSp (offset : UInt8) :
    (cpu.perform [0xE8, offset]).SameButPc
      ((·.set16 .hl (cpu.regs.get16 .hl)) <$> cpu.performAll [[0xF8, offset], [0xF9]]) := by
  have second (next : Cpu) := next.perform_plain 0xF9 [] rfl rfl
  rw [performAll_pair, cpu.perform_plain 0xE8 [offset] rfl rfl,
    cpu.perform_plain 0xF8 [offset] rfl rfl]
  simp only [second]
  exact sameButPc_of_eq (Operation.execute_addSp _ offset _)

theorem perform_reti :
    cpu.perform [0xD9] =
      (fun after => { after with interrupts := after.interrupts.enable }) <$>
        cpu.perform [0xC9] := by
  rw [cpu.perform_plain 0xD9 [] rfl rfl, cpu.perform_plain 0xC9 [] rfl rfl]
  exact Operation.execute_reti _

theorem perform_before (next : UInt16) (byte : UInt8) (literals : List UInt8) {form : Form}
    (listed : Entry.ofOpcode? (.plain byte) = some ⟨.plain byte, form⟩)
    (complete : literals.length = form.extraBytes) :
    let size := (literals.length + 1).toUInt16
    (cpu.withPc (next - size)).perform (byte :: literals) =
      (form.fill (cpu.withPc (next - size)).regs literals).execute (cpu.withPc next) := by
  intro size
  let start := cpu.withPc (next - size)
  have reached : start.withPc (next - size + size) = cpu.withPc next :=
    congrArg cpu.withPc (UInt16.sub_add_cancel next size)
  rw [start.perform_plain byte literals listed complete, ← reached]
  rfl

/-- The instructions of both ways end before the same byte. -/
theorem perform_rst (next : UInt16) (vector : Fin 8) :
    (cpu.withPc (next - 1)).perform [0xC7 + 8 * vector.val.toUInt8] =
      (cpu.withPc (next - 3)).perform [0xCD, 8 * vector.val.toUInt8, 0x00] := by
  have target : literalWord [8 * vector.val.toUInt8, 0x00] = (8 * vector.val).toUInt16 := by
    revert vector
    decide
  calc
    _ = Operation.execute (.rst vector) (cpu.withPc next) :=
        cpu.perform_before next _ [] (Branch.rst vector).ofOpcode?_entry rfl
    _ = Operation.execute (.call none (literalWord [8 * vector.val.toUInt8, 0x00]))
          (cpu.withPc next) := by
        rw [target]
        exact Operation.execute_rst _ vector
    _ = _ := (cpu.perform_before next 0xCD [_, _] rfl rfl).symm

theorem perform_jumpRelative (next : UInt16) (condition : Option Condition) (offset : UInt8) :
    let target := UInt16.ofInt (next.toNat + Byte.signed offset)
    (cpu.withPc (next - 2)).perform [(Branch.jumpRelative condition).opcode, offset] =
      (cpu.withPc (next - 3)).perform
        [(Branch.jump condition).opcode, Word.low target, Word.high target] := by
  intro target
  have joined : literalWord [Word.low target, Word.high target] = target :=
    Word.join_high_low target
  calc
    _ = Operation.execute (.jumpRelative condition offset) (cpu.withPc next) :=
        cpu.perform_before next _ [_] (Branch.jumpRelative condition).ofOpcode?_entry
          (by cases condition <;> rfl)
    _ = Operation.execute
          (.jump condition (.literal (literalWord [Word.low target, Word.high target])))
          (cpu.withPc next) := by
        rw [joined]
        exact Operation.execute_jumpRelative _ condition offset
    _ = _ := (cpu.perform_before next _ [_, _] (Branch.jump condition).ofOpcode?_entry
        (by cases condition <;> rfl)).symm

end Cpu

/-- Wherever an effect can be had in two ways, they agree on every bus: a load that adjusts HL and
its two parts; a cell of page FF named by a byte, by C or by a word; the operations with the carry
once it is clear and those without it; a comparison and a subtraction that A survives; a step by one
and an addition of one that the carry survives; the rotations of A and those behind CB, Z apart; SP
moved directly and through HL; and restarts and relative jumps and the calls and jumps to the same
place, from the same next instruction. A return from an interrupt is a return that enables
interrupts too. All instructions are performed as they are decoded from a bus on which they lie. -/
theorem Cpu.routes_agree (cpu : Cpu) :
    let bare := cpu.withCarry false
    (∀ encoded : Encoded, PerformsDecoded encoded.bytes) ∧
    -- LDI (HL), A and LDI A, (HL), then LDD (HL), A and LDD A, (HL)
    (cpu.perform [0x22]).SameButPc (cpu.performAll [[0x77], [0x23]]) ∧
    (cpu.perform [0x2A]).SameButPc (cpu.performAll [[0x7E], [0x23]]) ∧
    (cpu.perform [0x32]).SameButPc (cpu.performAll [[0x77], [0x2B]]) ∧
    (cpu.perform [0x3A]).SameButPc (cpu.performAll [[0x7E], [0x2B]]) ∧
    -- LDH (n), A and LDH A, (n) beside LD (nn), A and LD A, (nn)
    (∀ n : UInt8, let nn := 0xFF00 + n.toUInt16
      (cpu.perform [0xE0, n]).SameButPc (cpu.perform [0xEA, Word.low nn, Word.high nn]) ∧
      (cpu.perform [0xF0, n]).SameButPc (cpu.perform [0xFA, Word.low nn, Word.high nn])) ∧
    -- LD (C), A and LD A, (C) beside them
    (cpu.perform [0xE2]).SameButPc (cpu.perform [0xE0, cpu.regs.c]) ∧
    (cpu.perform [0xF2]).SameButPc (cpu.perform [0xF0, cpu.regs.c]) ∧
    (∀ (operand : AluOperand) (n : UInt8),
      cpu.perform (operand.code .add n) = bare.perform (operand.code .adc n) ∧
      cpu.perform (operand.code .sub n) = bare.perform (operand.code .sbc n) ∧
      cpu.perform (operand.code .cp n) =
        (·.set8 .a cpu.regs.a) <$> cpu.perform (operand.code .sub n)) ∧
    -- INC A and ADD A, 1, then DEC A and SUB A, 1
    (cpu.perform [0x3C]).SameButPc ((·.withCarry cpu.regs.f.c) <$> cpu.perform [0xC6, 0x01]) ∧
    (cpu.perform [0x3D]).SameButPc ((·.withCarry cpu.regs.f.c) <$> cpu.perform [0xD6, 0x01]) ∧
    -- SLA and RL, then SRL and RR
    (∀ target : Fin 8, let t := target.val.toUInt8
      cpu.perform [0xCB, 0x20 + t] = bare.perform [0xCB, 0x10 + t] ∧
      cpu.perform [0xCB, 0x38 + t] = bare.perform [0xCB, 0x18 + t]) ∧
    (∀ rotation : Rotation,
      (cpu.perform [rotation.opcode]).SameButPc
        ((·.withZero false) <$> cpu.perform [0xCB, rotation.opcode])) ∧
    -- ADD SP, n beside LDHL SP, n and LD SP, HL
    (∀ n : UInt8, (cpu.perform [0xE8, n]).SameButPc
      ((·.set16 .hl (cpu.regs.get16 .hl)) <$> cpu.performAll [[0xF8, n], [0xF9]])) ∧
    -- RST and CALL
    (∀ (next : UInt16) (vector : Fin 8), let v := 8 * vector.val.toUInt8
      (cpu.withPc (next - 1)).perform [0xC7 + v] =
        (cpu.withPc (next - 3)).perform [0xCD, v, 0x00]) ∧
    (∀ (next : UInt16) (condition : Option Condition) (n : UInt8),
      let nn := UInt16.ofInt (next.toNat + Byte.signed n)
      (cpu.withPc (next - 2)).perform [(Branch.jumpRelative condition).opcode, n] =
        (cpu.withPc (next - 3)).perform
          [(Branch.jump condition).opcode, Word.low nn, Word.high nn]) ∧
    -- RETI and RET
    cpu.perform [0xD9] =
      (fun after => { after with interrupts := after.interrupts.enable }) <$>
        cpu.perform [0xC9] := by
  intro bare
  have alu (operand : AluOperand) (n : UInt8) := cpu.perform_alu_withCarry n operand
  refine ⟨perform_eq_execute, cpu.sameButPc_loadAdjust rfl rfl rfl rfl,
    cpu.sameButPc_loadAdjust rfl rfl rfl rfl, cpu.sameButPc_loadAdjust rfl rfl rfl rfl,
    cpu.sameButPc_loadAdjust rfl rfl rfl rfl,
    cpu.sameButPc_page, cpu.sameButPc_pageC.1, cpu.sameButPc_pageC.2, ?_,
    cpu.sameButPc_adjust_a.1, cpu.sameButPc_adjust_a.2, cpu.perform_shift_withCarry,
    cpu.sameButPc_rotateA, cpu.sameButPc_addSp, cpu.perform_rst, cpu.perform_jumpRelative,
    cpu.perform_reti⟩
  exact fun operand n => ⟨(alu operand n).1, (alu operand n).2, cpu.perform_cp n operand⟩

end Sm83
