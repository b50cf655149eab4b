import Sm83.Arithmetic.Accumulator
import Sm83.Proofs.Guarded.Basic

/-!
# Arithmetic within the width

The sums from which the flags are read are never cut off: each fits the width in which it is taken,
and the guarded operations give what the unguarded ones give (`apply_eq`, `addPair_eq`,
`addOffset_eq`).
-/

namespace Sm83.Guarded

open Arithmetic Byte

def sum (a value : UInt8) (carry : Bool) : Except Panic UInt16 := do
  addWord (← addWord a.toUInt16 value.toUInt16) carry.toUInt16

def add (a value : UInt8) (carry : Bool) : Except Panic (UInt8 × Flags) := do
  let total ← sum a value carry
  let half ← sum (lowNibble a) (lowNibble value) carry
  let result := total.toUInt8
  return (result, { z := result == 0, h := half > 0x0F, c := total > 0xFF })

def subtract (a value : UInt8) (carry : Bool) : Except Panic (UInt8 × Flags) := do
  let subtrahend ← addWord value.toUInt16 carry.toUInt16
  let half ← addWord (lowNibble value).toUInt16 carry.toUInt16
  let result := (a.toUInt16 - subtrahend).toUInt8
  return (result,
    { z := result == 0, h := half > (lowNibble a).toUInt16, c := subtrahend > a.toUInt16 })

def apply (op : AluOp) (a value : UInt8) (carry : Bool) : Except Panic (UInt8 × Flags) :=
  match op with
  | .add => add a value false
  | .adc => add a value carry
  | .sub => subtract a value false
  | .sbc => subtract a value carry
  | .and => return logic (a &&& value)
  | .xor => return logic (a ^^^ value)
  | .or => return logic (a ||| value)
  | .cp => return (a, (← subtract a value false).2)

/-- `base + value`: the carries out of bits 11 and 15, the latter as the overflow of the whole. -/
def addPair (base value : UInt16) : Except Panic (UInt16 × Flags) := do
  let half ← addWord (base &&& 0x0FFF) (value &&& 0x0FFF)
  return (base + value, { h := half > 0x0FFF, c := 65536 ≤ base.toNat + value.toNat })

/-- `base` plus a signed byte, with the carries of the low bytes added as they stand. -/
def addOffset (base : UInt16) (offset : UInt8) : Except Panic (UInt16 × Flags) := do
  let low := Word.low base
  let half ← addByte (lowNibble low) (lowNibble offset)
  return (base + signExtend offset, { h := half > 0x0F, c := 256 ≤ low.toNat + offset.toNat })

theorem toNat_toUInt16 (carry : Bool) : carry.toUInt16.toNat = carry.toNat := by
  cases carry <;> rfl

theorem sum_eq (a value : UInt8) (carry : Bool) : sum a value carry = .ok (wideSum a value carry) := by
  have ha := a.toNat_lt
  have hv := value.toNat_lt
  have hc := carry.toNat_le
  have inner : (a.toUInt16 + value.toUInt16).toNat = a.toNat + value.toNat := by
    rw [UInt16.toNat_add, UInt8.toNat_toUInt16, UInt8.toNat_toUInt16]
    omega
  have first : addWord a.toUInt16 value.toUInt16 = .ok (a.toUInt16 + value.toUInt16) :=
    addWord_eq (by rw [UInt8.toNat_toUInt16, UInt8.toNat_toUInt16]; omega)
  have second : addWord (a.toUInt16 + value.toUInt16) carry.toUInt16 =
      .ok (a.toUInt16 + value.toUInt16 + carry.toUInt16) :=
    addWord_eq (by rw [inner, toNat_toUInt16]; omega)
  rw [sum, first]
  exact second.trans (by rw [wideSum, carried, UInt16.add_assoc])

theorem addWord_carried (value : UInt8) (carry : Bool) :
    addWord value.toUInt16 carry.toUInt16 = .ok (carried value carry) := by
  have hv := value.toNat_lt
  have hc := carry.toNat_le
  exact addWord_eq (by rw [UInt8.toNat_toUInt16, toNat_toUInt16]; omega)

theorem add_eq (a value : UInt8) (carry : Bool) : add a value carry = .ok (add8 a value carry) := by
  rw [add, sum_eq, sum_eq]
  rfl

theorem subtract_eq (a value : UInt8) (carry : Bool) :
    subtract a value carry = .ok (sub8 a value carry) := by
  rw [subtract, addWord_carried, addWord_carried]
  rfl

theorem apply_eq (op : AluOp) (a value : UInt8) (carry : Bool) :
    apply op a value carry = .ok (op.apply a value carry) := by
  cases op <;> simp only [apply, add_eq, subtract_eq] <;> rfl

theorem addPair_eq (base value : UInt16) : addPair base value = .ok (add16 base value) := by
  have half : addWord (base &&& 0x0FFF) (value &&& 0x0FFF) = .ok (sum12 base value) :=
    addWord_eq (by rw [Word.toNat_low12, Word.toNat_low12]; omega)
  have carry : (base.toUInt32 + value.toUInt32 > 0xFFFF) ↔ 65536 ≤ base.toNat + value.toNat := by
    have hb := base.toNat_lt
    have hv := value.toNat_lt
    have limit : (0xFFFF : UInt32).toNat = 65535 := rfl
    rw [gt_iff_lt, UInt32.lt_iff_toNat_lt, UInt32.toNat_add, UInt16.toNat_toUInt32,
      UInt16.toNat_toUInt32, limit]
    omega
  rw [addPair, half]
  simp only [add16, carry]
  rfl

theorem addOffset_eq (base : UInt16) (offset : UInt8) :
    addOffset base offset = .ok (addSigned base offset) := by
  have half : addByte (lowNibble (Word.low base)) (lowNibble offset) =
      .ok (lowNibble (Word.low base) + lowNibble offset) :=
    addByte_eq (by rw [toNat_lowNibble, toNat_lowNibble]; omega)
  have carry : (wideSum (Word.low base) offset false > 0xFF) ↔
      256 ≤ (Word.low base).toNat + offset.toNat := by
    have limit : (0xFF : UInt16).toNat = 255 := rfl
    rw [gt_iff_lt, UInt16.lt_iff_toNat_lt, toNat_wideSum, Bool.toNat_false, limit]
    omega
  rw [addOffset, half]
  simp only [addSigned, carry]
  rfl

theorem mask_eq (index : Fin 8) : mask (UInt8.ofNat index) = .ok (Byte.mask index) :=
  if_pos (by revert index; decide)

end Sm83.Guarded
