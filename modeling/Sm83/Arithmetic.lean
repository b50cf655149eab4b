import Sm83.Byte
import Sm83.Flags
import Sm83.Word

/-!
# Arithmetic on bytes and words

Each operation gives its result together with the flags it computes; flags that an instruction
forces are the matter of its policy. Sums of bytes are taken in sixteen bits, where they cannot
overflow (`toNat_wideSum`), so the outgoing carry takes the incoming one into account.
-/

namespace Sm83.Arithmetic

open Byte

def carried (value : UInt8) (carry : Bool) : UInt16 :=
  value.toUInt16 + carry.toUInt16

def wideSum (a value : UInt8) (carry : Bool) : UInt16 :=
  a.toUInt16 + carried value carry

/-- `a + value + carry`: Z, and the carries out of bits 3 and 7. -/
def add8 (a value : UInt8) (carry : Bool) : UInt8 × Flags :=
  let sum := wideSum a value carry
  let result := sum.toUInt8
  (result,
    { z := result == 0
      h := wideSum (lowNibble a) (lowNibble value) carry > 0x0F
      c := sum > 0xFF })

/-- `a - value - carry`: Z, and the borrows into bits 3 and 7. -/
def sub8 (a value : UInt8) (carry : Bool) : UInt8 × Flags :=
  let subtrahend := carried value carry
  let result := (a.toUInt16 - subtrahend).toUInt8
  (result,
    { z := result == 0
      h := carried (lowNibble value) carry > (lowNibble a).toUInt16
      c := subtrahend > a.toUInt16 })

/-- The result of a bitwise operation: only Z is computed. -/
def logic (result : UInt8) : UInt8 × Flags :=
  (result, { z := result == 0 })

/-- `value + 1`: Z, and the carry out of bit 3. -/
def inc8 (value : UInt8) : UInt8 × Flags :=
  let result := value + 1
  (result, { z := result == 0, h := lowNibble value == 0x0F })

/-- `value - 1`: Z, and the borrow into bit 3. -/
def dec8 (value : UInt8) : UInt8 × Flags :=
  let result := value - 1
  (result, { z := result == 0, h := lowNibble value == 0 })

/-- What has to be added to a binary sum, or taken from a binary difference, to make it packed
decimal: six for each digit that left its range. -/
def decimalCorrection (a : UInt8) (f : Flags) : UInt8 :=
  (if f.h || (!f.n && lowNibble a > 0x09) then 0x06 else 0) |||
    (if f.c || (!f.n && a > 0x99) then 0x60 else 0)

/-- Makes `a` packed decimal again after an addition or subtraction that left the flags `f`: Z, and
C as the carry out of the upper digit. -/
def decimalAdjust (a : UInt8) (f : Flags) : UInt8 × Flags :=
  let correction := decimalCorrection a f
  let result := if f.n then a - correction else a + correction
  (result, { z := result == 0, c := correction &&& 0x60 != 0 })

/-- The lower twelve bits of two words added: sixteen bits hold the sum. -/
def sum12 (base value : UInt16) : UInt16 :=
  (base &&& 0x0FFF) + (value &&& 0x0FFF)

/-- `base + value`: the carries out of bits 11 and 15. -/
def add16 (base value : UInt16) : UInt16 × Flags :=
  (base + value,
    { h := sum12 base value > 0x0FFF
      c := base.toUInt32 + value.toUInt32 > 0xFFFF })

/-- `base` plus a signed byte. The carries are those out of bits 3 and 7 when the byte is added to
the low byte of `base` without a sign. -/
def addSigned (base : UInt16) (offset : UInt8) : UInt16 × Flags :=
  let low := Word.low base
  (base + signExtend offset,
    { h := lowNibble low + lowNibble offset > 0x0F
      c := wideSum low offset false > 0xFF })

@[simp] theorem toNat_carried (value : UInt8) (carry : Bool) :
    (carried value carry).toNat = value.toNat + carry.toNat := by
  have bound := value.toNat_lt
  have bit : carry.toUInt16.toNat = carry.toNat := by cases carry <;> rfl
  have limit := carry.toNat_le
  rw [carried, UInt16.toNat_add, UInt8.toNat_toUInt16, bit]
  omega

@[simp] theorem toNat_wideSum (a value : UInt8) (carry : Bool) :
    (wideSum a value carry).toNat = a.toNat + value.toNat + carry.toNat := by
  have limit := a.toNat_lt
  have bound := value.toNat_lt
  have bit := carry.toNat_le
  rw [wideSum, UInt16.toNat_add, toNat_carried, UInt8.toNat_toUInt16]
  omega

theorem toNat_sum12 (base value : UInt16) :
    (sum12 base value).toNat = base.toNat % 4096 + value.toNat % 4096 := by
  rw [sum12, UInt16.toNat_add, Word.toNat_low12, Word.toNat_low12]
  omega

end Sm83.Arithmetic
