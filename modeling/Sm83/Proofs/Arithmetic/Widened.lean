import Sm83.Arithmetic.Accumulator

/-!
# Arithmetic without a width

Sums and differences of bytes taken in numbers that no width cuts off. A carry out of a bit is then
a sum that has grown past it, and a borrow is a difference below zero, so a byte and its carry hold
the whole (`sum_total`, `difference_total`). The operations on the accumulator leave in A and in the
flags what this arithmetic says (`apply_policy_eq`).
-/

namespace Sm83

namespace Widened

/-- `a + value + carry`: the carries out of bits 3 and 7. -/
def sum (a value : UInt8) (carry : Bool) : UInt8 × Flags :=
  let total := a.toNat + value.toNat + carry.toNat
  let half := a.toNat % 16 + value.toNat % 16 + carry.toNat
  (UInt8.ofNat (total % 256),
    { z := total % 256 == 0, n := false, h := decide (16 ≤ half), c := decide (256 ≤ total) })

/-- `a - value - carry`: the borrows into bits 3 and 7. -/
def difference (a value : UInt8) (carry : Bool) : UInt8 × Flags :=
  let total : Int := (a.toNat : Int) - value.toNat - carry.toNat
  let half : Int := (a.toNat % 16 : Int) - value.toNat % 16 - carry.toNat
  (UInt8.ofNat (total % 256).toNat,
    { z := total % 256 == 0, n := true, h := decide (half < 0), c := decide (total < 0) })

/-- Neither a sum nor a difference, so only the zero flag is read off the result. -/
def bitwise (result : UInt8) (half : Bool) : UInt8 × Flags :=
  (result, { z := result.toNat == 0, n := false, h := half, c := false })

/-- The byte and its carry hold the whole sum. -/
theorem sum_total (a value : UInt8) (carry : Bool) :
    let (result, f) := sum a value carry
    result.toNat + 256 * f.c.toNat = a.toNat + value.toNat + carry.toNat := by
  have ha := a.toNat_lt
  have hv := value.toNat_lt
  have hc := carry.toNat_le
  simp only [sum, UInt8.toNat_ofNat']
  by_cases past : 256 ≤ a.toNat + value.toNat + carry.toNat
  · simp only [past, decide_true, Bool.toNat_true]
    omega
  · simp only [past, decide_false, Bool.toNat_false]
    omega

/-- The byte and its borrow hold the whole difference. -/
theorem difference_total (a value : UInt8) (carry : Bool) :
    let (result, f) := difference a value carry
    result.toNat + (value.toNat + carry.toNat) = a.toNat + 256 * f.c.toNat := by
  have ha := a.toNat_lt
  have hv := value.toNat_lt
  have hc := carry.toNat_le
  simp only [difference, UInt8.toNat_ofNat']
  by_cases under : (a.toNat : Int) - value.toNat - carry.toNat < 0
  · simp only [under, decide_true, Bool.toNat_true]
    omega
  · simp only [under, decide_false, Bool.toNat_false]
    omega

theorem sum_zero_iff (a value : UInt8) (carry : Bool) :
    let (result, f) := sum a value carry
    f.z = true ↔ result = 0 := by
  simp [sum, ← UInt8.toNat_inj]

theorem difference_zero_iff (a value : UInt8) (carry : Bool) :
    let (result, f) := difference a value carry
    f.z = true ↔ result = 0 := by
  simp [difference, ← UInt8.toNat_inj]
  omega

end Widened

/-- What an operation has to leave in A and in the flags. -/
def AluOp.widened (op : AluOp) (a value : UInt8) (carry : Bool) : UInt8 × Flags :=
  match op with
  | add => Widened.sum a value false
  | adc => Widened.sum a value carry
  | sub => Widened.difference a value false
  | sbc => Widened.difference a value carry
  | and => Widened.bitwise (a &&& value) true
  | xor => Widened.bitwise (a ^^^ value) false
  | or => Widened.bitwise (a ||| value) false
  | cp => (a, (Widened.difference a value false).2)

namespace Arithmetic

open Byte

theorem beq_zero_eq (b : UInt8) : (b == 0) = (b.toNat == 0) := by
  rw [Bool.eq_iff_iff, beq_iff_eq, beq_iff_eq]
  exact UInt8.toNat_inj.symm

theorem add8_eq (a value : UInt8) (carry : Bool) :
    add8 a value carry = Widened.sum a value carry := by
  have result : (wideSum a value carry).toUInt8 =
      UInt8.ofNat ((a.toNat + value.toNat + carry.toNat) % 256) := by
    apply UInt8.toNat_inj.mp
    rw [UInt16.toNat_toUInt8, toNat_wideSum, UInt8.toNat_ofNat']
    omega
  have half : wideSum (lowNibble a) (lowNibble value) carry > 0x0F ↔
      16 ≤ a.toNat % 16 + value.toNat % 16 + carry.toNat := by
    have limit : (0x0F : UInt16).toNat = 15 := rfl
    rw [gt_iff_lt, UInt16.lt_iff_toNat_lt, toNat_wideSum, toNat_lowNibble, toNat_lowNibble, limit]
    omega
  have full : wideSum a value carry > 0xFF ↔ 256 ≤ a.toNat + value.toNat + carry.toNat := by
    have limit : (0xFF : UInt16).toNat = 255 := rfl
    rw [gt_iff_lt, UInt16.lt_iff_toNat_lt, toNat_wideSum, limit]
    omega
  simp only [add8, Widened.sum, result, beq_zero_eq, UInt8.toNat_ofNat', half, full]
  simp

/-- Subtraction leaves N to the policy. -/
theorem sub8_eq (a value : UInt8) (carry : Bool) :
    let (result, f) := sub8 a value carry
    (result, { f with n := true }) = Widened.difference a value carry := by
  have ha := a.toNat_lt
  have hv := value.toNat_lt
  have hc := carry.toNat_le
  have result : (a.toUInt16 - carried value carry).toUInt8 =
      UInt8.ofNat (((a.toNat : Int) - value.toNat - carry.toNat) % 256).toNat := by
    apply UInt8.toNat_inj.mp
    rw [UInt16.toNat_toUInt8, UInt16.toNat_sub, toNat_carried, UInt8.toNat_toUInt16,
      UInt8.toNat_ofNat']
    omega
  have zero : ((a.toUInt16 - carried value carry).toUInt8 == 0) =
      (((a.toNat : Int) - value.toNat - carry.toNat) % 256 == 0) := by
    rw [result, beq_zero_eq, UInt8.toNat_ofNat', Bool.eq_iff_iff, beq_iff_eq, beq_iff_eq]
    omega
  have half : carried (lowNibble value) carry > (lowNibble a).toUInt16 ↔
      (a.toNat % 16 : Int) - value.toNat % 16 - carry.toNat < 0 := by
    rw [gt_iff_lt, UInt16.lt_iff_toNat_lt, toNat_carried, toNat_lowNibble, UInt8.toNat_toUInt16,
      toNat_lowNibble]
    omega
  have full : carried value carry > a.toUInt16 ↔
      (a.toNat : Int) - value.toNat - carry.toNat < 0 := by
    rw [gt_iff_lt, UInt16.lt_iff_toNat_lt, toNat_carried, UInt8.toNat_toUInt16]
    omega
  simp only [sub8, Widened.difference, zero, half, full]
  rw [result]

end Arithmetic

open Arithmetic in
/-- What an operation computes, with its policy applied, is what it has to leave. -/
theorem AluOp.apply_policy_eq (op : AluOp) (a value : UInt8) (f : Flags) :
    let (result, computed) := op.apply a value f.c
    (result, op.policy.apply f computed) = op.widened a value f.c := by
  cases op
  case add => exact add8_eq a value false
  case adc => exact add8_eq a value f.c
  case sub => exact sub8_eq a value false
  case sbc => exact sub8_eq a value f.c
  case cp => exact congrArg (fun r => (a, r.2)) (sub8_eq a value false)
  -- A bitwise operation is all in its result; only Z is read off it in another way.
  case and => exact congrArg (fun z => (a &&& value, Flags.mk z false true false)) (beq_zero_eq _)
  case xor => exact congrArg (fun z => (a ^^^ value, Flags.mk z false false false)) (beq_zero_eq _)
  case or => exact congrArg (fun z => (a ||| value, Flags.mk z false false false)) (beq_zero_eq _)

end Sm83
