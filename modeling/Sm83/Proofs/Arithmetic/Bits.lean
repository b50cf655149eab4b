import Mathlib.Data.Nat.Init
import Sm83.Arithmetic.Shift
import Sm83.Byte

/-!
# Bytes as rows of bits

A byte is the row of its eight bits (`eq_of_bit`). Positions are counted round, so bit 7 is the one
below bit 0. A shift says of each bit of its result where it comes from: from another position, from
the carry, or from nowhere. The operations on bytes move the bits accordingly (`Shift.apply_eq`), and
masks pick out single ones (`and_mask_eq`, `and_not_mask_eq`, `or_mask_eq`).
-/

namespace Sm83

namespace Byte

/-- The position that is reached by counting round. -/
def position (count : Nat) : Fin 8 :=
  ⟨count % 8, Nat.mod_lt count (by decide)⟩

def bit (b : UInt8) (index : Fin 8) : Bool :=
  b.toNat.testBit index

def ofBits (bits : Fin 8 → Bool) : UInt8 :=
  UInt8.ofNat (Nat.ofBits bits)

/-- The byte with one bit given a value and all others kept. -/
def withBit (b : UInt8) (index : Fin 8) (value : Bool) : UInt8 :=
  ofBits fun i => if i = index then value else bit b i

theorem testBit_eq_false_of_le (b : UInt8) {i : Nat} (outside : 8 ≤ i) :
    b.toNat.testBit i = false := by
  have large : 2 ^ 8 ≤ 2 ^ i := Nat.pow_le_pow_right (by decide) outside
  exact Nat.testBit_lt_two_pow (Nat.lt_of_lt_of_le b.toNat_lt large)

theorem eq_of_bit {b b' : UInt8} (same : ∀ index, bit b index = bit b' index) : b = b' := by
  apply UInt8.toNat_inj.mp
  refine Nat.eq_of_testBit_eq fun i => ?_
  rcases Nat.lt_or_ge i 8 with inside | outside
  · exact same ⟨i, inside⟩
  · rw [testBit_eq_false_of_le b outside, testBit_eq_false_of_le b' outside]

/-! ### Bits of results -/

@[simp] theorem bit_ofBits (bits : Fin 8 → Bool) (index : Fin 8) :
    bit (ofBits bits) index = bits index := by
  have fits : Nat.ofBits bits < 2 ^ 8 := Nat.ofBits_lt_two_pow bits
  rw [bit, ofBits, UInt8.toNat_ofNat', Nat.mod_eq_of_lt fits]
  exact Nat.testBit_ofBits_lt bits index index.isLt

@[simp] theorem bit_zero (index : Fin 8) : bit 0 index = false :=
  Nat.zero_testBit index

@[simp] theorem bit_or (b b' : UInt8) (index : Fin 8) :
    bit (b ||| b') index = (bit b index || bit b' index) := by
  simp [bit]

@[simp] theorem bit_and (b b' : UInt8) (index : Fin 8) :
    bit (b &&& b') index = (bit b index && bit b' index) := by
  simp [bit]

@[simp] theorem bit_not (b : UInt8) (index : Fin 8) : bit (~~~b) index = !bit b index := by
  change (~~~b.toBitVec).getLsbD index = !b.toBitVec.getLsbD index
  simp

@[simp] theorem bit_mask (index i : Fin 8) : bit (mask index) i = decide (i = index) := by
  revert index i
  decide

theorem bit_shiftLeft (b count : UInt8) (index : Fin 8) :
    let places := position count.toNat
    bit (b <<< count) index = (decide (places ≤ index) && bit b (index - places)) := by
  intro places
  have shifted : count.toNat % 8 = places.val := rfl
  rw [bit, UInt8.toNat_shiftLeft, shifted, Nat.testBit_mod_two_pow, Nat.testBit_shiftLeft]
  by_cases reached : places ≤ index
  · have below : (index - places).val = index.val - places.val := Fin.sub_val_of_le reached
    have reached' : places.val ≤ index.val := reached
    simp [reached, reached', bit, below]
  · have short : ¬places.val ≤ index.val := reached
    simp [reached, short]

theorem bit_shiftRight (b count : UInt8) (index : Fin 8) :
    let places := position count.toNat
    bit (b >>> count) index = (decide (index ≤ 7 - places) && bit b (index + places)) := by
  intro places
  have shifted : count.toNat % 8 = places.val := rfl
  have last : (7 - places).val = 7 - places.val := Fin.sub_val_of_le (Fin.le_last places)
  rw [bit, UInt8.toNat_shiftRight, shifted, Nat.testBit_shiftRight]
  by_cases there : index ≤ 7 - places
  · have inside : index.val ≤ 7 - places.val := last ▸ there
    have above : (index + places).val = places.val + index.val := by
      rw [Fin.val_add]
      omega
    simp [there, bit, above]
  · have outside : ¬index.val ≤ 7 - places.val := last ▸ there
    rw [testBit_eq_false_of_le b (by omega)]
    simp [there]

/-! ### Masks -/

theorem and_mask_eq (b : UInt8) (index : Fin 8) : (b &&& mask index == 0) = !bit b index := by
  rw [Bool.eq_iff_iff, beq_iff_eq, Bool.not_eq_true']
  constructor
  · intro none
    simpa using congrArg (bit · index) none
  · intro clear
    refine eq_of_bit fun i => ?_
    by_cases here : i = index
    · simp [here, clear]
    · simp [here]

theorem and_mask_ne_zero_eq (b : UInt8) (index : Fin 8) : (b &&& mask index != 0) = bit b index := by
  rw [bne, and_mask_eq, Bool.not_not]

theorem and_not_mask_eq (b : UInt8) (index : Fin 8) :
    b &&& ~~~mask index = withBit b index false := by
  refine eq_of_bit fun i => ?_
  by_cases here : i = index <;> simp [withBit, here]

theorem or_mask_eq (b : UInt8) (index : Fin 8) : b ||| mask index = withBit b index true := by
  refine eq_of_bit fun i => ?_
  by_cases here : i = index <;> simp [withBit, here]

end Byte

open Byte

namespace Shift

/-- Where the bits of the result come from. -/
def bits (shift : Shift) (value : UInt8) (carry : Bool) (index : Fin 8) : Bool :=
  let below := bit value (position (index + 7))
  let above := bit value (position (index + 1))
  match shift with
  | rotate .leftCircular => below
  | rotate .rightCircular => above
  | rotate .left => if index.val = 0 then carry else below
  | rotate .right => if index.val = 7 then carry else above
  | leftArithmetic => if index.val = 0 then false else below
  | rightArithmetic => if index.val = 7 then bit value index else above
  | swap => bit value (position (index + 4))
  | rightLogical => if index.val = 7 then false else above

/-- The bit that has no place in the result. -/
def lost (shift : Shift) (value : UInt8) : Bool :=
  match shift with
  | rotate .leftCircular | rotate .left | leftArithmetic => bit value (position 7)
  | rotate .rightCircular | rotate .right | rightArithmetic | rightLogical =>
      bit value (position 0)
  | swap => false

theorem bit_apply (shift : Shift) (value : UInt8) (carry : Bool) (index : Fin 8) :
    bit (shift.apply value carry).1 index = shift.bits value carry index := by
  have low : bit carry.toUInt8 index = (decide (index = 0) && carry) := by
    revert index
    cases carry <;> decide
  have high : bit (carry.toUInt8 <<< 7) index = (decide (index = 7) && carry) := by
    revert index
    cases carry <;> decide
  have top : bit 0x80 index = decide (index = 7) := bit_mask 7 index
  -- In every position one of the two parts is empty.
  rcases shift with rotation | _ | _ | _ | _
  case rotate =>
    cases rotation
    all_goals
      simp only [apply, Rotation.apply, bits, bit_or, bit_shiftLeft, bit_shiftRight, low, high]
      match index with
      | 0 | 1 | 2 | 3 | 4 | 5 | 6 | 7 => first | rfl | exact Bool.or_false _
  all_goals
    simp only [apply, bits, bit_or, bit_and, bit_shiftLeft, bit_shiftRight, top,
      Bool.and_comm (bit value index)]
    match index with
    | 0 | 1 | 2 | 3 | 4 | 5 | 6 | 7 => first | rfl | exact Bool.or_false _

theorem lost_eq (shift : Shift) (value : UInt8) (carry : Bool) :
    (shift.apply value carry).2 = shift.lost value := by
  have upper : (value &&& 0x80 != 0) = bit value 7 := and_mask_ne_zero_eq value 7
  have lower : (value &&& 0x01 != 0) = bit value 0 := and_mask_ne_zero_eq value 0
  match shift with
  | .rotate .leftCircular | .rotate .left | .leftArithmetic => exact upper
  | .rotate .rightCircular | .rotate .right | .rightArithmetic | .rightLogical => exact lower
  | .swap => rfl

/-- A shift moves the bits of its operand to where they belong, and the bit it gives beside its
result is the one that is lost. -/
theorem apply_eq (shift : Shift) (value : UInt8) (carry : Bool) :
    shift.apply value carry = (ofBits (shift.bits value carry), shift.lost value) := by
  refine Prod.ext (eq_of_bit fun index => ?_) (shift.lost_eq value carry)
  rw [bit_apply, bit_ofBits]

end Shift

end Sm83
