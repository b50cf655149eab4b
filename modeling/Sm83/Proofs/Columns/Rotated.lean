import Mathlib.Data.Nat.Digits.Lemmas
import Sm83.Proofs.Columns
import Sm83.Proofs.Prefixed.Inverse

/-!
# Numbers of any length rotated through the carry

A rotation through the carry takes the carry into the byte at one end and out of it at the other.
From the least significant byte up, the rotations to the left double a number and take the carry in
as its lowest bit; from the most significant byte down, the rotations to the right halve it and take
the carry in as its highest bit. It is all the same which of the two opcodes of a rotation stands in
which place (`run_rotated_columns`).
-/

namespace Sm83

namespace Rotation

/-- Nine bits make a number whose top or bottom bit is the carry. -/
theorem left_total (value : UInt8) (carry : Bool) :
    let rotated := left.apply value carry
    rotated.1.toNat + 256 * rotated.2.toNat = 2 * value.toNat + carry.toNat := by
  cases carry
  · exact Byte.forall_of_lt (by decide +kernel) value
  · exact Byte.forall_of_lt (by decide +kernel) value

theorem right_total (value : UInt8) (carry : Bool) :
    let rotated := right.apply value carry
    2 * rotated.1.toNat + rotated.2.toNat = value.toNat + 256 * carry.toNat := by
  cases carry
  · exact Byte.forall_of_lt (by decide +kernel) value
  · exact Byte.forall_of_lt (by decide +kernel) value

end Rotation

namespace AccumulatorCode

/-- The rotation of A by the opcode that has no prefix. -/
def rotate (rotation : Rotation) : AccumulatorCode where
  entry := ⟨.plain rotation.opcode, .rotateA rotation⟩
  literals := []
  listed := (Entry.mem_all_iff _).mpr (by cases rotation <;> rfl)
  complete := by cases rotation <;> rfl
  effect a f :=
    let (result, c) := rotation.apply a f.c
    (result, { c })
  execute_eq _ _ := rfl

/-- The rotation of A by the opcode behind CB. -/
def rotatePrefixed (rotation : Rotation) : AccumulatorCode where
  entry := ⟨.prefixed rotation.opcode, Form.prefixed rotation.opcode⟩
  literals := []
  listed := (Entry.mem_all_iff _).mpr rfl
  complete := by cases rotation <;> rfl
  effect a f :=
    let (result, c) := rotation.apply a f.c
    (result, { z := result == 0, c })
  execute_eq _ _ := by cases rotation <;> rfl

end AccumulatorCode

namespace Cpu

/-- Loads the byte and rotates it by one opcode or the other. -/
def rotatedColumn (rotation : Rotation) (column : UInt8 × Bool) : List AccumulatorCode :=
  [.load column.1, if column.2 then .rotatePrefixed rotation else .rotate rotation]

theorem afterAll_rotatedColumn (before : Cpu) (rotation : Rotation) (column : UInt8 × Bool) :
    let after := before.afterAll (rotatedColumn rotation column)
    (after.regs.a, after.regs.f.c) = rotation.apply column.1 before.regs.f.c := by
  rcases column with ⟨value, _ | _⟩ <;> rfl

theorem program_rotatedColumn (rotation : Rotation) (column : UInt8 × Bool) :
    AccumulatorCode.program (rotatedColumn rotation column) =
      0x3E :: column.1 :: if column.2 then [0xCB, rotation.opcode] else [rotation.opcode] := by
  rcases column with ⟨value, _ | _⟩ <;> rfl

theorem adds_left (column : UInt8 × Bool) :
    Adds 256 1 UInt8.toNat (column.1, column.1) (rotatedColumn .left column) := by
  intro before after
  have total := Rotation.left_total column.1 before.regs.f.c
  rw [← before.afterAll_rotatedColumn .left column] at total
  change after.regs.a.toNat + 256 * after.regs.f.c.toNat = _ at total
  dsimp only
  omega

/-- To double a number is to add it to itself. -/
theorem milestones_doubled (cpu : Cpu) (columns : List (UInt8 × Bool)) :
    let cores := cpu.milestones (columns.map (rotatedColumn .left))
    let number (bytes : List UInt8) := Nat.ofDigits 256 (bytes.map UInt8.toNat)
    number (cores.map (·.regs.a)) + (cores.getLastD cpu).regs.f.c.toNat * 256 ^ columns.length =
      2 * number (columns.map Prod.fst) + cpu.regs.f.c.toNat := by
  intro cores number
  have sum : (number (cores.map (·.regs.a)) : Int) +
      1 * ((cores.getLastD cpu).regs.f.c.toNat * 256 ^ columns.length : Nat) =
        number (columns.map Prod.fst) + 1 * (number (columns.map Prod.fst) + cpu.regs.f.c.toNat) :=
    milestones_total columns (fun column _ => adds_left column) cpu
  omega

theorem milestones_halved (cpu : Cpu) (columns : List (UInt8 × Bool)) :
    let cores := cpu.milestones (columns.reverse.map (rotatedColumn .right))
    let number (bytes : List UInt8) := Nat.ofDigits 256 (bytes.map UInt8.toNat)
    2 * number (cores.map (·.regs.a)).reverse + (cores.getLastD cpu).regs.f.c.toNat =
      number (columns.map Prod.fst) + cpu.regs.f.c.toNat * 256 ^ columns.length := by
  -- The most significant byte comes first, and its carry goes to the bytes below it.
  induction columns using List.reverseRecOn generalizing cpu with
  | nil => simp [milestones]
  | append_singleton columns top ih =>
    let next := cpu.afterAll (rotatedColumn .right top)
    have below := ih next
    have first := Rotation.right_total top.1 cpu.regs.f.c
    rw [← cpu.afterAll_rotatedColumn .right top] at first
    rw [List.reverse_concat]
    simp only [List.map_cons, List.map_append, List.map_nil, milestones, List.reverse_cons,
      Nat.ofDigits_append, Nat.ofDigits_singleton, length_milestones, List.length_map,
      List.length_append, List.length_reverse, List.length_singleton, List.getLastD_cons,
      pow_succ] at below first ⊢
    linear_combination below + 256 ^ columns.length * first

theorem run_rounds_rotated (cpu : Cpu) (m : Memory) (columns : List (UInt8 × Bool))
    (rotation : Rotation) (running : cpu.stopped = false ∧ cpu.halted = false) :
    let code := columns.flatMap fun (x, behind) =>
      0x3E :: x :: if behind then [0xCB, rotation.opcode] else [rotation.opcode]
    code.length ≤ 0x10000 →
      let loaded := m.load cpu.regs.pc code
      (cpu.rounds 2 columns.length).run loaded =
        (cpu.milestones (columns.map (rotatedColumn rotation)), loaded) := by
  intro code fits
  have whole : (columns.flatMap fun column =>
      AccumulatorCode.program (rotatedColumn rotation column)) = code :=
    congrArg columns.flatMap (funext fun column => program_rotatedColumn rotation column)
  have even (column : UInt8 × Bool) : (rotatedColumn rotation column).length = 2 := rfl
  rw [← whole] at fits ⊢
  exact cpu.run_rounds_columns m columns even running fits

/-- Rotations of A to the left through the carry, over the bytes of a number from the least
significant one up, leave twice the number byte by byte, with the carry as its lowest bit, and in the
carry what that has in excess. Rotations to the right, from the most significant byte down, leave
half the number, with the carry as its highest bit, and in the carry what the number has in excess of
twice that. In both, every byte may be rotated by the opcode with the prefix or by the one without.
On each byte that an instruction with the prefix can select, rotations to both sides undo one
another, those through the carry with the carry, and exchanging the nibbles twice changes nothing,
whether the core is parked or not. These instructions are performed as they are decoded from a bus on
which they lie. -/
theorem run_rotated_columns (cpu : Cpu) (m : Memory) (columns : List (UInt8 × Bool)) :
    let number (bytes : List UInt8) := Nat.ofDigits 256 (bytes.map UInt8.toNat)
    let value := number (columns.map Prod.fst)
    let carry := cpu.regs.f.c.toNat
    let limit := 256 ^ columns.length
    let running := cpu.stopped = false ∧ cpu.halted = false
    (let code := columns.flatMap fun (x, behind) =>
        0x3E :: x :: if behind then [0xCB, 0x17] else [0x17]
      let loaded := m.load cpu.regs.pc code
      let run := (cpu.rounds 2 columns.length).run loaded
      let digits := run.1.map fun core => core.regs.a
      let f := (run.1.getLastD cpu).regs.f
      running → code.length ≤ 0x10000 → run.2 = loaded ∧ digits.length = columns.length ∧
        number digits + f.c.toNat * limit = 2 * value + carry) ∧
    (let code := columns.reverse.flatMap fun (x, behind) =>
        0x3E :: x :: if behind then [0xCB, 0x1F] else [0x1F]
      let loaded := m.load cpu.regs.pc code
      let run := (cpu.rounds 2 columns.length).run loaded
      let digits := (run.1.map fun core => core.regs.a).reverse
      let f := (run.1.getLastD cpu).regs.f
      running → code.length ≤ 0x10000 → run.2 = loaded ∧ digits.length = columns.length ∧
        2 * number digits + f.c.toNat = value + carry * limit) ∧
    (∀ byte : UInt8, PerformsDecoded [0xCB, byte]) ∧
    ∀ target : Fin 8,
      let t := target.val.toUInt8
      let loose : List Location := [.pc, .flag .z, .flag .n, .flag .h]
      cpu.Restores m target loose [[0xCB, 0x10 + t], [0xCB, 0x18 + t]] ∧
      cpu.Restores m target loose [[0xCB, 0x18 + t], [0xCB, 0x10 + t]] ∧
      cpu.Restores m target (.flag .c :: loose) [[0xCB, 0x00 + t], [0xCB, 0x08 + t]] ∧
      cpu.Restores m target (.flag .c :: loose) [[0xCB, 0x08 + t], [0xCB, 0x00 + t]] ∧
      cpu.Restores m target (.flag .c :: loose) [[0xCB, 0x30 + t], [0xCB, 0x30 + t]] := by
  intro number value carry limit running
  refine ⟨?_, ?_, fun byte => perform_eq_execute (.ofPrefixed byte), cpu.restores_inverses m⟩
  · intro code loaded run digits f active fits
    have ran : run = _ := cpu.run_rounds_rotated m columns .left active fits
    simp only [digits, f, ran]
    exact ⟨rfl, by simp [length_milestones], cpu.milestones_doubled columns⟩
  · intro code loaded run digits f active fits
    have ran := cpu.run_rounds_rotated m columns.reverse .right active fits
    rw [List.length_reverse] at ran
    have same : run = _ := ran
    simp only [digits, f, same]
    exact ⟨rfl, by simp [length_milestones], cpu.milestones_halved columns⟩

/-- The number 80FF and a carry, rotated to both sides by code around the end of memory. -/
theorem run_rotated_columns_around_end :
    let cpu : Cpu := { regs := { f := { c := true }, pc := 0xFFFD } }
    let columns : List (UInt8 × Bool) := [(0xFF, true), (0x80, false)]
    let number (bytes : List UInt8) := Nat.ofDigits 256 (bytes.map UInt8.toNat)
    let left := columns.flatMap fun (x, behind) =>
      0x3E :: x :: if behind then [0xCB, 0x17] else [0x17]
    let doubled := (cpu.rounds 2 columns.length).run (Memory.zero.load cpu.regs.pc left)
    let right := columns.reverse.flatMap fun (x, behind) =>
      0x3E :: x :: if behind then [0xCB, 0x1F] else [0x1F]
    let halved := (cpu.rounds 2 columns.length).run (Memory.zero.load cpu.regs.pc right)
    (cpu.stopped = false ∧ cpu.halted = false) ∧ left.length ≤ 0x10000 ∧ right.length ≤ 0x10000 ∧
    number (doubled.1.map fun core => core.regs.a) +
      (doubled.1.getLastD cpu).regs.f.c.toNat * 256 ^ columns.length = 0x101FF ∧
    2 * number (halved.1.map fun core => core.regs.a).reverse +
      (halved.1.getLastD cpu).regs.f.c.toNat = 0x180FF := by
  intro cpu columns number
  obtain ⟨twice, half, -⟩ := cpu.run_rotated_columns Memory.zero columns
  obtain ⟨-, -, total⟩ := twice ⟨rfl, rfl⟩ (by decide)
  obtain ⟨-, -, total'⟩ := half ⟨rfl, rfl⟩ (by decide)
  have sum : 2 * number (columns.map Prod.fst) + cpu.regs.f.c.toNat = 0x101FF := by decide
  have sum' : number (columns.map Prod.fst) + cpu.regs.f.c.toNat * 256 ^ columns.length = 0x180FF := by
    decide
  exact ⟨⟨rfl, rfl⟩, by decide, by decide, total.trans sum, total'.trans sum'⟩

end Cpu

end Sm83
