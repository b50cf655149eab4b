import Sm83.Proofs.Columns

/-!
# Packed decimal numbers of any length

A byte holds two decimal digits. After such bytes have been added or subtracted, `DAA` corrects each
digit that went past nine or below zero, which it finds out from A and the flags (`decimalAdjust_sum`,
`decimalAdjust_difference`). Its carry is the one out of the two digits, so numbers are added and
subtracted byte by byte (`run_decimal_columns`).
-/

namespace Sm83

namespace Byte

/-- Both halves of the byte are decimal digits. -/
def PackedDecimal (b : UInt8) : Prop :=
  b.toNat / 16 ≤ 9 ∧ b.toNat % 16 ≤ 9

instance (b : UInt8) : Decidable (PackedDecimal b) :=
  inferInstanceAs (Decidable (_ ∧ _))

/-- The number from 0 to 99 that two digits stand for. -/
def decimal (b : UInt8) : Nat :=
  10 * (b.toNat / 16) + b.toNat % 16

theorem PackedDecimal.digits {b : UInt8} (h : PackedDecimal b) : ∃ tens ones,
    b.toNat = 16 * tens + ones ∧ tens ≤ 9 ∧ ones ≤ 9 ∧ decimal b = 10 * tens + ones :=
  ⟨b.toNat / 16, b.toNat % 16, (Nat.div_add_mod ..).symm, h.1, h.2, rfl⟩

theorem packedDecimal_of_digits {b : UInt8} {tens ones : Nat} (h : b.toNat = 16 * tens + ones)
    (upper : tens ≤ 9) (lower : ones ≤ 9) : PackedDecimal b ∧ decimal b = 10 * tens + ones := by
  rw [PackedDecimal, decimal, h]
  omega

end Byte

namespace Arithmetic

open Byte

/-- Six is added to each digit that has to be corrected, or taken from it. -/
theorem decimalAdjust_of_due {a : UInt8} {f : Flags} {lower upper : Nat}
    (low : lower ≤ 1) (high : upper ≤ 1)
    (lowDue : f.h = true ∨ f.n = false ∧ 9 < a.toNat % 16 ↔ lower = 1)
    (highDue : f.c = true ∨ f.n = false ∧ 0x99 < a.toNat ↔ upper = 1) :
    let correction := 6 * lower + 96 * upper
    let adjusted := decimalAdjust a f
    adjusted.1.toNat =
      (if f.n then 256 - correction + a.toNat else a.toNat + correction) % 256 ∧
    adjusted.2.c.toNat = upper := by
  have first : (f.h || (!f.n && lowNibble a > 0x09)) = true ↔ lower = 1 := by
    simp [← lowDue, UInt8.lt_iff_toNat_lt]
  have second : (f.c || (!f.n && a > 0x99)) = true ↔ upper = 1 := by
    simp [← highDue, UInt8.lt_iff_toNat_lt]
  have correction : decimalCorrection a f = UInt8.ofNat (6 * lower + 96 * upper) ∧
      (UInt8.ofNat (6 * lower + 96 * upper) &&& 0x60 != 0).toNat = upper := by
    simp only [decimalCorrection, first, second]
    obtain rfl | rfl : lower = 0 ∨ lower = 1 := by omega
    all_goals
      obtain rfl | rfl : upper = 0 ∨ upper = 1 := by omega
      all_goals decide
  have value : (UInt8.ofNat (6 * lower + 96 * upper)).toNat = 6 * lower + 96 * upper := by
    rw [UInt8.toNat_ofNat']
    omega
  rw [decimalAdjust, correction.1]
  refine ⟨?_, correction.2⟩
  dsimp only
  split
  · rw [UInt8.toNat_sub, value]
  · rw [UInt8.toNat_add, value]

theorem decimalAdjust_digits {a : UInt8} {f : Flags} {tens ones lower upper : Nat}
    (low : lower ≤ 1 ∧ ones ≤ 9) (high : upper ≤ 1 ∧ tens ≤ 9)
    (lowDue : f.h = true ∨ f.n = false ∧ 9 < a.toNat % 16 ↔ lower = 1)
    (highDue : f.c = true ∨ f.n = false ∧ 0x99 < a.toNat ↔ upper = 1)
    (corrected : let correction := 6 * lower + 96 * upper
      (if f.n then 256 - correction + a.toNat else a.toNat + correction) % 256 =
        16 * tens + ones) :
    let adjusted := decimalAdjust a f
    PackedDecimal adjusted.1 ∧ decimal adjusted.1 = 10 * tens + ones ∧
      adjusted.2.c.toNat = upper := by
  obtain ⟨value, carry⟩ := decimalAdjust_of_due low.1 high.1 lowDue highDue
  obtain ⟨valid, decimals⟩ := packedDecimal_of_digits (value.trans corrected) high.2 low.2
  exact ⟨valid, decimals, carry⟩

/-- One decimal column of a sum on paper. -/
theorem exists_carry {total : Nat} (h : total ≤ 19) :
    ∃ digit carry, total = digit + 10 * carry ∧ carry ≤ 1 ∧ digit ≤ 9 :=
  ⟨total % 10, total / 10, (Nat.mod_add_div ..).symm, by omega, by omega⟩

/-- One decimal column of a difference on paper. -/
theorem exists_borrow {left right : Nat} (hl : left ≤ 9) (hr : right ≤ 10) :
    ∃ digit borrow, digit + right = left + 10 * borrow ∧ borrow ≤ 1 ∧ digit ≤ 9 := by
  rcases Nat.lt_or_ge left right with less | enough
  · exact ⟨left + 10 - right, 1, by omega, by omega, by omega⟩
  · exact ⟨left - right, 0, by omega, by omega, by omega⟩

theorem decimalAdjust_sum {x y : UInt8} (hx : PackedDecimal x) (hy : PackedDecimal y)
    (carry : Bool) :
    let sum := Widened.sum x y carry
    let adjusted := decimalAdjust sum.1 sum.2
    PackedDecimal adjusted.1 ∧
      decimal adjusted.1 + 100 * adjusted.2.c.toNat =
        decimal x + decimal y + carry.toNat := by
  intro sum
  have hc := carry.toNat_le
  obtain ⟨x₁, x₀, whole, hx₁, hx₀, dx⟩ := hx.digits
  obtain ⟨y₁, y₀, whole', hy₁, hy₀, dy⟩ := hy.digits
  obtain ⟨ones, lower, column, low⟩ := exists_carry (show x₀ + y₀ + carry.toNat ≤ 19 by omega)
  obtain ⟨tens, upper, column', high⟩ := exists_carry (show x₁ + y₁ + lower ≤ 19 by omega)
  -- The flags and the sum ask for the correction of a digit where its column has a carry.
  have lowDue : sum.2.h = true ∨ sum.2.n = false ∧ 9 < sum.1.toNat % 16 ↔ lower = 1 := by
    simp [sum, Widened.sum]
    omega
  have highDue : sum.2.c = true ∨ sum.2.n = false ∧ 0x99 < sum.1.toNat ↔ upper = 1 := by
    simp [sum, Widened.sum]
    omega
  obtain ⟨valid, decimals, carried⟩ := decimalAdjust_digits low high lowDue highDue (by
    simp [sum, Widened.sum]
    omega)
  refine ⟨valid, ?_⟩
  rw [decimals, carried, dx, dy]
  omega

theorem decimalAdjust_difference {x y : UInt8} (hx : PackedDecimal x) (hy : PackedDecimal y)
    (carry : Bool) :
    let difference := Widened.difference x y carry
    let adjusted := decimalAdjust difference.1 difference.2
    PackedDecimal adjusted.1 ∧
      decimal adjusted.1 + (decimal y + carry.toNat) =
        decimal x + 100 * adjusted.2.c.toNat := by
  intro difference
  have hc := carry.toNat_le
  obtain ⟨x₁, x₀, whole, hx₁, hx₀, dx⟩ := hx.digits
  obtain ⟨y₁, y₀, whole', hy₁, hy₀, dy⟩ := hy.digits
  obtain ⟨ones, lower, column, low⟩ := exists_borrow hx₀ (show y₀ + carry.toNat ≤ 10 by omega)
  obtain ⟨tens, upper, column', high⟩ := exists_borrow hx₁ (show y₁ + lower ≤ 10 by omega)
  -- A difference has borrowed in the nibbles exactly where it has to borrow in the digits.
  have lowDue : difference.2.h = true ∨ difference.2.n = false ∧ 9 < difference.1.toNat % 16 ↔
      lower = 1 := by
    simp [difference, Widened.difference]
    omega
  have highDue : difference.2.c = true ∨ difference.2.n = false ∧ 0x99 < difference.1.toNat ↔
      upper = 1 := by
    simp [difference, Widened.difference]
    omega
  obtain ⟨valid, decimals, carried⟩ := decimalAdjust_digits low high lowDue highDue (by
    simp [difference, Widened.difference]
    omega)
  refine ⟨valid, ?_⟩
  rw [decimals, carried, dx, dy]
  omega

end Arithmetic

namespace Cpu

open Byte

def decimalColumn (op : AluOp) (column : UInt8 × UInt8) : List AccumulatorCode :=
  [.load column.1, .alu op column.2, .daa]

theorem adds_adc_daa {column : UInt8 × UInt8} (left : PackedDecimal column.1)
    (right : PackedDecimal column.2) : Adds 100 1 decimal column (decimalColumn .adc column) := by
  intro before after
  have total := (Arithmetic.decimalAdjust_sum left right before.regs.f.c).2
  change decimal after.regs.a + 100 * after.regs.f.c.toNat = _ at total
  omega

theorem adds_sbc_daa {column : UInt8 × UInt8} (left : PackedDecimal column.1)
    (right : PackedDecimal column.2) :
    Adds 100 (-1) decimal column (decimalColumn .sbc column) := by
  intro before after
  have total := (Arithmetic.decimalAdjust_difference left right before.regs.f.c).2
  change decimal after.regs.a + _ = _ + 100 * after.regs.f.c.toNat at total
  omega

theorem run_rounds_decimal (cpu : Cpu) (m : Memory) (columns : List (UInt8 × UInt8)) (op : AluOp)
    (running : cpu.stopped = false ∧ cpu.halted = false) (fits : 5 * columns.length ≤ 0x10000) :
    let loaded := m.load cpu.regs.pc
      (columns.flatMap fun (x, y) => [0x3E, x, AluOperand.immediate.opcode op, y, 0x27])
    (cpu.rounds 3 columns.length).run loaded =
      (cpu.milestones (columns.map (decimalColumn op)), loaded) := by
  have even (column : UInt8 × UInt8) : (decimalColumn op column).length = 3 := rfl
  have size (column : UInt8 × UInt8) :
      (AccumulatorCode.program (decimalColumn op column)).length = 5 := rfl
  have whole := AccumulatorCode.length_program_columns columns size
  exact cpu.run_rounds_columns m columns even running (whole.trans_le fits)

/-- `ADC` and `DAA` over two packed decimal numbers of one length leave their sum byte by byte, and
`SBC` and `DAA` their difference. Every byte they leave is packed decimal, and the carry that is left
last is the one out of the whole sum or difference. -/
theorem run_decimal_columns (cpu : Cpu) (m : Memory) (columns : List (UInt8 × UInt8))
    (running : cpu.stopped = false ∧ cpu.halted = false) (fits : 5 * columns.length ≤ 0x10000)
    (valid : ∀ column ∈ columns, PackedDecimal column.1 ∧ PackedDecimal column.2) :
    let number (bytes : List UInt8) := Nat.ofDigits 100 (bytes.map decimal)
    let left := number (columns.map Prod.fst)
    let right := number (columns.map Prod.snd)
    let carry := cpu.regs.f.c.toNat
    let limit := 100 ^ columns.length
    (let loaded := m.load cpu.regs.pc (columns.flatMap fun (x, y) => [0x3E, x, 0xCE, y, 0x27])
      let run := (cpu.rounds 3 columns.length).run loaded
      let digits := run.1.map fun core => core.regs.a
      let f := (run.1.getLastD cpu).regs.f
      run.2 = loaded ∧ digits.length = columns.length ∧ (∀ z ∈ digits, PackedDecimal z) ∧
      number digits + f.c.toNat * limit = left + right + carry) ∧
    (let loaded := m.load cpu.regs.pc (columns.flatMap fun (x, y) => [0x3E, x, 0xDE, y, 0x27])
      let run := (cpu.rounds 3 columns.length).run loaded
      let digits := run.1.map fun core => core.regs.a
      let f := (run.1.getLastD cpu).regs.f
      run.2 = loaded ∧ digits.length = columns.length ∧ (∀ z ∈ digits, PackedDecimal z) ∧
      (number digits : Int) = left - right - carry + f.c.toNat * limit) := by
  have count (op : AluOp) := cpu.length_milestones (columns.map (decimalColumn op))
  constructor
  · have sum := milestones_number columns
      (fun column given => adds_adc_daa (valid column given).1 (valid column given).2) cpu
    intro loaded
    rw [show (cpu.rounds 3 columns.length).run loaded = _ from
      cpu.run_rounds_decimal m columns .adc running fits]
    refine ⟨rfl, by simp [count], forall_mem_noted fun column given before => ?_, ?_⟩
    · obtain ⟨first, second⟩ := valid column given
      exact (Arithmetic.decimalAdjust_sum first second before.regs.f.c).1
    · dsimp only at sum ⊢
      omega
  · have difference := milestones_number columns
      (fun column given => adds_sbc_daa (valid column given).1 (valid column given).2) cpu
    intro loaded
    rw [show (cpu.rounds 3 columns.length).run loaded = _ from
      cpu.run_rounds_decimal m columns .sbc running fits]
    refine ⟨rfl, by simp [count], forall_mem_noted fun column given before => ?_, ?_⟩
    · obtain ⟨first, second⟩ := valid column given
      exact (Arithmetic.decimalAdjust_difference first second before.regs.f.c).1
    · dsimp only at difference ⊢
      omega

/-- The numbers 0099 and 9999 and a carry, added and subtracted by code around the end of memory. -/
theorem run_decimal_columns_around_end :
    let cpu : Cpu := { regs := { f := { c := true }, pc := 0xFFFD } }
    let columns : List (UInt8 × UInt8) := [(0x99, 0x99), (0x00, 0x99)]
    let number (bytes : List UInt8) := Nat.ofDigits 100 (bytes.map decimal)
    let added := Memory.zero.load cpu.regs.pc
      (columns.flatMap fun (x, y) => [0x3E, x, 0xCE, y, 0x27])
    let sum := (cpu.rounds 3 columns.length).run added
    let taken := Memory.zero.load cpu.regs.pc
      (columns.flatMap fun (x, y) => [0x3E, x, 0xDE, y, 0x27])
    let difference := (cpu.rounds 3 columns.length).run taken
    5 * columns.length ≤ 0x10000 ∧
    (∀ column ∈ columns, PackedDecimal column.1 ∧ PackedDecimal column.2) ∧
    sum.2 = added ∧ difference.2 = taken ∧
    number (sum.1.map fun core => core.regs.a) +
      (sum.1.getLastD cpu).regs.f.c.toNat * 100 ^ columns.length = 10099 ∧
    ∀ z ∈ difference.1.map fun core => core.regs.a, PackedDecimal z := by
  intro cpu columns number
  have valid : ∀ column ∈ columns, PackedDecimal column.1 ∧ PackedDecimal column.2 :=
    List.forall_mem_cons.mpr ⟨by decide, List.forall_mem_singleton.mpr (by decide)⟩
  obtain ⟨⟨kept, -, -, total⟩, ⟨kept', -, digits, -⟩⟩ :=
    cpu.run_decimal_columns Memory.zero columns ⟨rfl, rfl⟩ (by decide) valid
  have numbers : number [0x99, 0x00] + number [0x99, 0x99] + 1 = 10099 := by decide
  exact ⟨by decide, valid, kept, kept', total.trans numbers, digits⟩

end Cpu

end Sm83
