import Mathlib.Data.Nat.Digits.Lemmas
import Sm83.Proofs.Columns

/-!
# Binary numbers of any length

`ADC` adds the bytes of two numbers one pair after the other, with the carry from each pair to the
next, and `SBC` subtracts them. A load in between leaves the carry alone. So the bytes left in A make up
the sum or the difference of the whole numbers, the last carry is the one out of it, and after a
difference it compares the numbers (`run_binary_columns`).
-/

namespace Sm83

namespace Cpu

def binaryColumn (op : AluOp) (column : UInt8 × UInt8) : List AccumulatorCode :=
  [.load column.1, .alu op column.2]

theorem adds_adc (column : UInt8 × UInt8) :
    Adds 256 1 UInt8.toNat column (binaryColumn .adc column) := by
  intro before after
  have total := Widened.sum_total column.1 column.2 before.regs.f.c
  change after.regs.a.toNat + 256 * after.regs.f.c.toNat = _ at total
  omega

theorem adds_sbc (column : UInt8 × UInt8) :
    Adds 256 (-1) UInt8.toNat column (binaryColumn .sbc column) := by
  intro before after
  have total := Widened.difference_total column.1 column.2 before.regs.f.c
  change after.regs.a.toNat + _ = _ + 256 * after.regs.f.c.toNat at total
  omega

theorem run_rounds_binary (cpu : Cpu) (m : Memory) (columns : List (UInt8 × UInt8)) (op : AluOp)
    (running : cpu.stopped = false ∧ cpu.halted = false) (fits : 4 * columns.length ≤ 0x10000) :
    let loaded := m.load cpu.regs.pc
      (columns.flatMap fun (x, y) => [0x3E, x, AluOperand.immediate.opcode op, y])
    (cpu.rounds 2 columns.length).run loaded =
      (cpu.milestones (columns.map (binaryColumn op)), loaded) := by
  have even (column : UInt8 × UInt8) : (binaryColumn op column).length = 2 := rfl
  have size (column : UInt8 × UInt8) :
      (AccumulatorCode.program (binaryColumn op column)).length = 4 := rfl
  have whole := AccumulatorCode.length_program_columns columns size
  exact cpu.run_rounds_columns m columns even running (whole.trans_le fits)

/-- The zero flag that is left last tells about the last digit. -/
theorem zero_iff_of_last {cpu : Cpu} {op : AluOp} {columns : List (UInt8 × UInt8)} {top : UInt8}
    (zero : ∀ a value carry, let (result, f) := op.widened a value carry
      f.z = true ↔ result = 0) :
    let cores := cpu.milestones (columns.map (binaryColumn op))
    top ∈ (cores.map fun core => core.regs.a).getLast? →
      ((cores.getLastD cpu).regs.f.z = true ↔ top = 0) := by
  intro cores last
  rw [List.getLast?_map, Option.mem_def, Option.map_eq_some_iff] at last
  obtain ⟨core, last, rfl⟩ := last
  obtain ⟨column, -, before, ran⟩ := exists_of_mem_milestones (List.mem_of_getLast? last)
  rw [List.getLastD_eq_getLast?, last, ran]
  exact zero column.1 column.2 before.regs.f.c

theorem number_lt (bytes : List UInt8) :
    Nat.ofDigits 256 (bytes.map UInt8.toNat) < 256 ^ bytes.length := by
  have digits : ∀ digit ∈ bytes.map UInt8.toNat, digit < 256 := by
    intro digit inside
    obtain ⟨byte, -, rfl⟩ := List.mem_map.mp inside
    exact byte.toNat_lt
  have bound := Nat.ofDigits_lt_base_pow_length (by decide) digits
  rwa [List.length_map] at bound

/-- A difference below its limit has a borrow exactly where it would be negative without it. -/
theorem borrow_iff {difference left right limit : Nat} {borrow : Bool} (below : difference < limit)
    (total : (difference : Int) + -1 * (borrow.toNat * limit : Nat) = left + -1 * right) :
    borrow = true ↔ left < right := by
  cases borrow
  · simp at total ⊢
    omega
  · simp at total ⊢
    omega

/-- `ADC` over two numbers of one length leaves their sum byte by byte, and `SBC` their difference. The
carry that is left last is the one out of the whole sum or difference. After a difference it tells
whether the left number is smaller. The zero flag that is left last tells about the last byte only. -/
theorem run_binary_columns (cpu : Cpu) (m : Memory) (columns : List (UInt8 × UInt8))
    (running : cpu.stopped = false ∧ cpu.halted = false) (fits : 4 * columns.length ≤ 0x10000) :
    let number (bytes : List UInt8) := Nat.ofDigits 256 (bytes.map UInt8.toNat)
    let left := number (columns.map Prod.fst)
    let right := number (columns.map Prod.snd)
    let carry := cpu.regs.f.c.toNat
    let limit := 256 ^ columns.length
    (let loaded := m.load cpu.regs.pc (columns.flatMap fun (x, y) => [0x3E, x, 0xCE, y])
      let run := (cpu.rounds 2 columns.length).run loaded
      let digits := run.1.map fun core => core.regs.a
      let f := (run.1.getLastD cpu).regs.f
      run.2 = loaded ∧ digits.length = columns.length ∧
      number digits + f.c.toNat * limit = left + right + carry ∧
      ∀ top ∈ digits.getLast?, f.z = true ↔ top = 0) ∧
    (let loaded := m.load cpu.regs.pc (columns.flatMap fun (x, y) => [0x3E, x, 0xDE, y])
      let run := (cpu.rounds 2 columns.length).run loaded
      let digits := run.1.map fun core => core.regs.a
      let f := (run.1.getLastD cpu).regs.f
      run.2 = loaded ∧ digits.length = columns.length ∧
      (number digits : Int) = left - right - carry + f.c.toNat * limit ∧
      (f.c = true ↔ left < right + carry) ∧
      ∀ top ∈ digits.getLast?, f.z = true ↔ top = 0) := by
  have count (op : AluOp) := cpu.length_milestones (columns.map (binaryColumn op))
  constructor
  · have sum := milestones_number columns (fun column _ => adds_adc column) cpu
    intro loaded
    rw [show (cpu.rounds 2 columns.length).run loaded = _ from
      cpu.run_rounds_binary m columns .adc running fits]
    refine ⟨rfl, by simp [count], ?_, fun top => zero_iff_of_last Widened.sum_zero_iff⟩
    dsimp only at sum ⊢
    omega
  · have difference := milestones_number columns (fun column _ => adds_sbc column) cpu
    intro loaded
    rw [show (cpu.rounds 2 columns.length).run loaded = _ from
      cpu.run_rounds_binary m columns .sbc running fits]
    have below := number_lt ((cpu.milestones (columns.map (binaryColumn .sbc))).map (·.regs.a))
    rw [List.length_map, count, List.length_map] at below
    refine ⟨rfl, by simp [count], ?_, borrow_iff below difference,
      fun top => zero_iff_of_last Widened.difference_zero_iff⟩
    dsimp only at difference ⊢
    omega

/-- The numbers 00FF and FFFF and a carry, added and subtracted by code around the end of memory. -/
theorem run_binary_columns_around_end :
    let cpu : Cpu := { regs := { f := { c := true }, pc := 0xFFFD } }
    let columns : List (UInt8 × UInt8) := [(0xFF, 0xFF), (0x00, 0xFF)]
    let number (bytes : List UInt8) := Nat.ofDigits 256 (bytes.map UInt8.toNat)
    let added := Memory.zero.load cpu.regs.pc (columns.flatMap fun (x, y) => [0x3E, x, 0xCE, y])
    let sum := (cpu.rounds 2 columns.length).run added
    let taken := Memory.zero.load cpu.regs.pc (columns.flatMap fun (x, y) => [0x3E, x, 0xDE, y])
    let difference := (cpu.rounds 2 columns.length).run taken
    4 * columns.length ≤ 0x10000 ∧ sum.2 = added ∧ difference.2 = taken ∧
    number (sum.1.map fun core => core.regs.a) +
      (sum.1.getLastD cpu).regs.f.c.toNat * 256 ^ columns.length = 0x100FF ∧
    (difference.1.getLastD cpu).regs.f.c = true := by
  intro cpu columns number
  obtain ⟨⟨kept, -, total, -⟩, ⟨kept', -, -, borrow, -⟩⟩ :=
    cpu.run_binary_columns Memory.zero columns ⟨rfl, rfl⟩ (by decide)
  have numbers : number [0xFF, 0x00] + number [0xFF, 0xFF] + 1 = 0x100FF := by decide
  exact ⟨by decide, kept, kept', total.trans numbers, borrow.mpr (by decide)⟩

end Cpu

end Sm83
