/-!
# Bytes

The parts of a byte that instructions look at: its low nibble, its single bits, and its value as a
signed offset. A statement about all bytes can be checked byte by byte (`forall_of_lt`).
-/

namespace Sm83.Byte

def lowNibble (b : UInt8) : UInt8 :=
  b &&& 0x0F

/-- The byte in which only the given bit is up. -/
def mask (index : Fin 8) : UInt8 :=
  1 <<< index.val.toUInt8

/-- The word that a byte stands for as a signed offset in two's complement. -/
def signExtend (b : UInt8) : UInt16 :=
  if b < 0x80 then b.toUInt16 else b.toUInt16 + 0xFF00

@[elab_as_elim]
theorem forall_of_lt {motive : UInt8 → Prop} (h : ∀ n < 256, motive (UInt8.ofNat n)) (b : UInt8) :
    motive b := by
  have here := h b.toNat b.toNat_lt
  rwa [UInt8.ofNat_toNat] at here

@[simp] theorem toNat_lowNibble (b : UInt8) : (lowNibble b).toNat = b.toNat % 16 := by
  rw [lowNibble, UInt8.toNat_and]
  exact Nat.and_two_pow_sub_one_eq_mod b.toNat 4

theorem toNat_mask (index : Fin 8) : (mask index).toNat = 1 <<< index.val := by
  revert index
  decide

/-- Bytes from 80 on stand for offsets below zero. -/
theorem toNat_signExtend (b : UInt8) :
    (signExtend b).toNat = if b.toNat < 128 then b.toNat else b.toNat + 0xFF00 := by
  have bound := b.toNat_lt
  unfold signExtend
  by_cases small : b < 0x80
  · have : b.toNat < 128 := UInt8.lt_iff_toNat_lt.mp small
    rw [if_pos small, if_pos this, UInt8.toNat_toUInt16]
  · have : ¬b.toNat < 128 := fun h => small (UInt8.lt_iff_toNat_lt.mpr h)
    rw [if_neg small, if_neg this]
    simp
    omega

end Sm83.Byte
