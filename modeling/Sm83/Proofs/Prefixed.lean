import Sm83.Proofs.Arithmetic.Bits
import Sm83.Proofs.Loads

/-!
# Prefixed instructions

The byte behind CB has three fields: the upper two bits tell shifts, tests, clearings and settings of
a bit apart, the next three name the shift or the bit, and the lower three select the byte that is
worked on. A step that executes such an instruction puts the shifted or changed byte back where it
came from, sets the flags and moves PC, and no other location changes (`step_prefixed`).
-/

namespace Sm83

/-- The shifts in the order of their opcodes. -/
def Shift.row : Fin 8 → Shift
  | 0 => rotate .leftCircular
  | 1 => rotate .rightCircular
  | 2 => rotate .left
  | 3 => rotate .right
  | 4 => leftArithmetic
  | 5 => rightArithmetic
  | 6 => swap
  | 7 => rightLogical

theorem Shift.ofIndex_row (index : Fin 8) : ofIndex index.val = row index := by
  match index with
  | 0 | 1 | 2 | 3 | 4 | 5 | 6 | 7 => rfl

def Flags.parts (f : Flags) : List (Location × Content) :=
  Flag.all.map fun which => (.flag which, .bit (which.get f))

theorem stored_f (regs : Registers) (m : Memory) (f : Flags) :
    Stored f.parts (regs, m) ({ regs with f }, m) := by
  intro location
  cases location with
  | flag which => cases which <;> rfl
  | _ => rfl

namespace Prefixed

def quarter (byte : UInt8) : Fin 4 :=
  .ofNat 4 (byte.toNat / 64)

def row (byte : UInt8) : Fin 8 :=
  Byte.position (byte.toNat / 8)

def target (byte : UInt8) : Fin 8 :=
  Byte.position byte.toNat

/-- The byte that goes back to where it came from, if one does, and the flags that are left. -/
def left (row : Fin 8) (value : UInt8) (f : Flags) : Fin 4 → Option UInt8 × Flags
  | 0 =>
      let result := Byte.ofBits ((Shift.row row).bits value f.c)
      (some result,
        { z := result == 0, n := false, h := false, c := (Shift.row row).lost value })
  | 1 => (none, { z := !Byte.bit value row, n := false, h := true, c := f.c })
  | 2 => (some (Byte.withBit value row false), f)
  | 3 => (some (Byte.withBit value row true), f)

/-- Everything that the instruction behind CB changes. -/
def stores (regs : Registers) (m : Memory) (byte : UInt8) : List (Location × Content) :=
  let left := left (row byte) (regs.selected m (target byte)) regs.f (quarter byte)
  left.2.parts ++
    ((left.1.toList.map fun value => (.selected regs (target byte), .byte value)) ++
      [(.pc, .word (regs.pc + 2))])

def operation (row : Fin 8) (target : Place UInt16) : Fin 4 → Operation
  | 0 => .shift (Shift.row row) target
  | 1 => .testBit row target
  | 2 => .resetBit row target
  | 3 => .setBit row target

theorem fill_form (byte : UInt8) (regs : Registers) (literals : List UInt8) :
    (Form.prefixed byte).fill regs literals =
      operation (row byte) ((Form.place (target byte).val).fill regs literals) (quarter byte) := by
  have shift : Shift.ofIndex (byte.toNat / 8 % 8) = Shift.row (row byte) :=
    Shift.ofIndex_row (row byte)
  have bit : Fin.ofNat 8 (byte.toNat / 8 % 8) = row byte := Fin.ofNat_val_eq_self (row byte)
  have upper : byte.toNat / 64 = (quarter byte).val := by
    have bound := byte.toNat_lt
    simp only [quarter, Fin.val_ofNat]
    omega
  rw [Form.prefixed, upper, shift, bit]
  generalize quarter byte = q
  match q with
  | 0 | 1 | 2 | 3 => rfl

theorem value_selected (index : Fin 8) (regs : Registers) (m : Memory) (literals : List UInt8) :
    (Source.place ((Form.place index.val).fill regs literals)).value regs m =
      regs.selected m index := by
  match index with
  | 0 | 1 | 2 | 3 | 4 | 5 | 6 | 7 => rfl

/-! ### What the operations store -/

variable (cpu : Cpu) (m : Memory) (next : UInt16) (target : Place UInt16)

theorem run_read_target :
    (target.read (cpu.withPc next).regs).run m = ((Source.place target).value cpu.regs m, m) := by
  rw [← (Source.place target).value_withPc cpu next]
  exact (Source.place target).run_read (cpu.withPc next).regs m

theorem stored_back (value : UInt8) (f : Flags) :
    let written := (target.write (cpu.withPc next).regs value).run m
    Stored (f.parts ++ ([(target.location, .byte value)] ++ [(.pc, .word next)])) (cpu.regs, m)
      ({ written.1 with f }, written.2) := by
  have moved := stored_pc cpu.regs m next
  exact (moved.trans (target.stored_run_write _ m value)).trans (stored_f _ _ f)

theorem stored_shift (op : Shift) :
    let value := (Source.place target).value cpu.regs m
    let result := Byte.ofBits (op.bits value cpu.regs.f.c)
    let f : Flags := { z := result == 0, n := false, h := false, c := op.lost value }
    let operation : Operation := .shift op target
    let r := (operation.act (cpu.withPc next).regs).run m
    Stored (f.parts ++ ([(target.location, .byte result)] ++ [(.pc, .word next)])) (cpu.regs, m)
      ((operation.settle (cpu.withPc next) r.1).regs, r.2) := by
  intro value result f operation r
  have shifted : op.apply value cpu.regs.f.c = (result, op.lost value) := op.apply_eq value _
  let written := (target.write (cpu.withPc next).regs result).run m
  have acted : r =
      ({ written.1 with f := { written.1.f with z := result == 0, c := op.lost value } },
        written.2) := by
    simp only [r, operation, Operation.act, BusM.run_bind, run_read_target]
    rw [show (cpu.withPc next).regs.f.c = cpu.regs.f.c from rfl, shifted]
    rfl
  have flags : operation.policy.apply cpu.regs.f
      { written.1.f with z := result == 0, c := op.lost value } = f := by
    cases op <;> rfl
  rw [acted, Operation.regs_settle, ← flags]
  exact stored_back cpu m next target result _

theorem stored_testBit (index : Fin 8) :
    let value := (Source.place target).value cpu.regs m
    let f : Flags := { z := !Byte.bit value index, n := false, h := true, c := cpu.regs.f.c }
    let operation : Operation := .testBit index target
    let r := (operation.act (cpu.withPc next).regs).run m
    Stored (f.parts ++ [(.pc, .word next)]) (cpu.regs, m)
      ((operation.settle (cpu.withPc next) r.1).regs, r.2) := by
  intro value f operation r
  have acted : r =
      ({ (cpu.withPc next).regs with
          f := { cpu.regs.f with z := value &&& Byte.mask index == 0 } }, m) := by
    simp only [r, operation, Operation.act, BusM.run_bind, run_read_target]
    rfl
  rw [acted, Byte.and_mask_eq, Operation.regs_settle]
  exact (stored_pc cpu.regs m next).trans (stored_f _ _ f)

theorem stored_setBit (index : Fin 8) (up : Bool) :
    let value := Byte.withBit ((Source.place target).value cpu.regs m) index up
    let operation : Operation := if up then .setBit index target else .resetBit index target
    let r := (operation.act (cpu.withPc next).regs).run m
    Stored (cpu.regs.f.parts ++ ([(target.location, .byte value)] ++ [(.pc, .word next)]))
      (cpu.regs, m) ((operation.settle (cpu.withPc next) r.1).regs, r.2) := by
  intro value operation r
  have program : operation.act (cpu.withPc next).regs =
      target.read (cpu.withPc next).regs >>= fun before =>
        target.write (cpu.withPc next).regs (Byte.withBit before index up) := by
    cases up with
    | false => exact bind_congr fun before => by rw [Byte.and_not_mask_eq]
    | true => exact bind_congr fun before => by rw [Byte.or_mask_eq]
  have acted : r = (target.write (cpu.withPc next).regs value).run m := by
    simp only [r, program, BusM.run_bind, run_read_target, value]
  have free : operation.policy = {} := by cases up <;> rfl
  rw [acted, Operation.regs_settle, free, FlagPolicy.apply_unaffected]
  exact stored_back cpu m next target value cpu.regs.f

theorem stored_operation (row : Fin 8) (quarter : Fin 4) :
    let left := left row ((Source.place target).value cpu.regs m) cpu.regs.f quarter
    let operation := operation row target quarter
    let r := (operation.act (cpu.withPc next).regs).run m
    Stored (left.2.parts ++ ((left.1.toList.map fun value => (target.location, .byte value)) ++
        [(.pc, .word next)])) (cpu.regs, m)
      ((operation.settle (cpu.withPc next) r.1).regs, r.2) := by
  match quarter with
  | 0 => exact stored_shift cpu m next target (Shift.row row)
  | 1 => exact stored_testBit cpu m next target row
  | 2 => exact stored_setBit cpu m next target row false
  | 3 => exact stored_setBit cpu m next target row true

/-- A test of a bit only reads. -/
theorem write_not_mem_testBit (index : Fin 8) (regs : Registers) :
    let operation : Operation := .testBit index target
    (operation.act regs).logged.Always fun r => ∀ address value, .write address value ∉ r.2 := by
  intro operation
  simp only [operation, Operation.act, BusM.logged_bind, BusM.logged_pure, BusM.always_bind]
  cases target with
  | reg r => exact fun _ _ => List.not_mem_nil
  | memory a => exact fun read _ _ => by simp

theorem settle_operation (row : Fin 8) (quarter : Fin 4) (after : Registers) :
    let settled := (operation row target quarter).settle cpu after
    settled.halted = cpu.halted ∧ settled.stopped = cpu.stopped := by
  match quarter with
  | 0 | 1 | 2 | 3 => exact ⟨rfl, rfl⟩

end Prefixed

/-! ### A step -/

theorem Entry.size_prefixed (byte : UInt8) :
    (Entry.mk (.prefixed byte) (Form.prefixed byte)).size = 2 := by
  have found : ofOpcode? (.prefixed byte) = some ⟨.prefixed byte, Form.prefixed byte⟩ := rfl
  have bare := (plain_or_bare found).resolve_left (by simp [Opcode.bytes])
  rw [size, bare]
  rfl

/-- Where CB is at PC, the step does what the byte behind it says: the selected byte is replaced by
what the shift, or the clearing or setting of a bit, makes of it, or it is only tested; the flags are
set, and PC moves behind the two bytes. All other registers and cells stay as they are, and the core
is not parked. A test of a bit makes no write at all. -/
theorem Cpu.step_prefixed (cpu : Cpu) (m : Memory)
    (running : cpu.stopped = false ∧ cpu.halted = false)
    (announced : m.read cpu.regs.pc = 0xCB) :
    let byte := m.read (cpu.regs.pc + 1)
    (∃ after m',
      cpu.step.run m = ((.executed ⟨.prefixed byte, Form.prefixed byte⟩, after), m') ∧
      Stored (Prefixed.stores cpu.regs m byte) (cpu.regs, m) (after.regs, m') ∧
      after.halted = cpu.halted ∧ after.stopped = cpu.stopped) ∧
    (Prefixed.quarter byte = 1 → ∀ address value,
      .write address value ∉ (cpu.step.run { bus := m : Recorded Memory }).2.log) := by
  intro byte
  have found : Entry.ofOpcode? (m.opcodeAt cpu.regs.pc) =
      some ⟨.prefixed byte, Form.prefixed byte⟩ := by
    rw [Memory.opcodeAt, announced]
    rfl
  let target := (Form.place (Prefixed.target byte).val).fill cpu.regs (m.block (cpu.regs.pc + 1) 2)
  have operation := cpu.operation_decodedAs m found
  rw [Prefixed.fill_form] at operation
  constructor
  · have step := cpu.run_step m running found
    rw [show FlatBus.memory m = m from rfl, operation, Entry.size_prefixed] at step
    have stored := Prefixed.stored_operation cpu m (cpu.regs.pc + 2) target (Prefixed.row byte)
      (Prefixed.quarter byte)
    rw [Load.location_place, Prefixed.value_selected] at stored
    exact ⟨_, _, step, stored, Prefixed.settle_operation _ target _ _ _⟩
  · intro test address value
    have unwritten := (Prefixed.write_not_mem_testBit target (Prefixed.row byte)
      (cpu.withPc (cpu.regs.pc + 2)).regs).run m
    rw [BusM.run_of_unlogged, cpu.run_logged_step m running found,
      show FlatBus.memory m = m from rfl, operation, test, Entry.size_prefixed]
    intro made
    rcases List.mem_append.mp (List.mem_toArray.mp made) with fetched | acted
    · simp [Memory.reads] at fetched
    · exact unwritten address value acted

/-- `RL (HL)` around the end of memory, with HL at its own second byte, and `BIT 7, B` there. -/
theorem Cpu.step_prefixed_of_own_byte :
    let cpu : Cpu := { regs := { b := 0x7F, f := { c := true }, pc := 0xFFFF } }
    let m := (Memory.zero.write 0xFFFF 0xCB).write 0x0000 0x16
    let n := (Memory.zero.write 0xFFFF 0xCB).write 0x0000 0x78
    (m.read 0xFFFF = 0xCB ∧ ∃ after m',
      cpu.step.run m =
        ((.executed ⟨.prefixed 0x16, .shift (.rotate .left) (.memory (.pair .hl))⟩, after), m') ∧
      m'.read 0x0000 = 0x2D ∧ after.regs.f = {} ∧ after.regs.pc = 0x0001) ∧
    (n.read 0xFFFF = 0xCB ∧ Prefixed.quarter 0x78 = 1 ∧
      ∀ value, .write 0x0000 value ∉ (cpu.step.run { bus := n : Recorded Memory }).2.log) := by
  intro cpu m n
  have announced (byte : UInt8) :
      ((Memory.zero.write 0xFFFF 0xCB).write 0x0000 byte).read 0xFFFF = 0xCB :=
    (Memory.read_write_of_ne _ _ (by decide)).trans (Memory.read_write_self _ _ _)
  have behind (byte : UInt8) :
      ((Memory.zero.write 0xFFFF 0xCB).write 0x0000 byte).read (0xFFFF + 1) = byte :=
    Memory.read_write_self _ _ byte
  constructor
  · obtain ⟨⟨after, m', executed, stored, -⟩, -⟩ := cpu.step_prefixed m ⟨rfl, rfl⟩ (announced 0x16)
    rw [show m.read (cpu.regs.pc + 1) = 0x16 from behind 0x16] at executed stored
    have pointed : Word.join 0x00 0x00 = 0x0000 := by decide
    have value : cpu.regs.selected m 6 = 0x16 :=
      (congrArg m.read pointed).trans (Memory.read_write_self _ _ _)
    have left : Prefixed.left 2 0x16 cpu.regs.f 0 = (some 0x2D, {}) := by decide
    have stores : Prefixed.stores cpu.regs m 0x16 =
        Flags.parts {} ++ [(.cell 0x0000, .byte 0x2D), (.pc, .word 0x0001)] := by
      change (Prefixed.left 2 (cpu.regs.selected m 6) cpu.regs.f 0).2.parts ++
        (((Prefixed.left 2 (cpu.regs.selected m 6) cpu.regs.f 0).1.toList.map fun value =>
          (.cell (Word.join 0x00 0x00), .byte value)) ++ [(.pc, .word (0xFFFF + 2))]) = _
      rw [value, left, pointed, show (0xFFFF + 2 : UInt16) = 0x0001 by decide]
      rfl
    rw [stores] at stored
    have cell : Content.byte (m'.read 0x0000) = .byte 0x2D := stored (.cell 0x0000)
    have pc : Content.word after.regs.pc = .word 0x0001 := stored .pc
    have f : after.regs.f = {} :=
      Flag.eq_of_get fun which => Content.bit.inj (by cases which <;> exact stored (.flag _))
    exact ⟨announced 0x16, after, m', executed, Content.byte.inj cell, f, Content.word.inj pc⟩
  · obtain ⟨-, unwritten⟩ := cpu.step_prefixed n ⟨rfl, rfl⟩ (announced 0x78)
    rw [show n.read (cpu.regs.pc + 1) = 0x78 from behind 0x78] at unwritten
    have test : Prefixed.quarter 0x78 = 1 := by decide
    exact ⟨announced 0x78, test, unwritten test 0x0000⟩

end Sm83
