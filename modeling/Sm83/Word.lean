/-!
# Words and their halves

A 16-bit word is made of a high and a low byte. `join` puts the halves together, `high` and `low`
take them apart, and each undoes the other.
-/

namespace Sm83.Word

def join (high low : UInt8) : UInt16 :=
  high.toUInt16 * 256 + low.toUInt16

def high (w : UInt16) : UInt8 :=
  (w / 256).toUInt8

def low (w : UInt16) : UInt8 :=
  w.toUInt8

@[simp] theorem toNat_join (h l : UInt8) : (join h l).toNat = 256 * h.toNat + l.toNat := by
  have hh := h.toNat_lt
  have hl := l.toNat_lt
  simp [join]
  omega

@[simp] theorem toNat_high (w : UInt16) : (high w).toNat = w.toNat / 256 := by
  have hw := w.toNat_lt
  simp [high]
  omega

@[simp] theorem toNat_low (w : UInt16) : (low w).toNat = w.toNat % 256 := by
  simp [low]

theorem toNat_low12 (w : UInt16) : (w &&& 0x0FFF).toNat = w.toNat % 4096 := by
  rw [UInt16.toNat_and]
  exact Nat.and_two_pow_sub_one_eq_mod w.toNat 12

@[simp] theorem high_join (h l : UInt8) : high (join h l) = h := by
  have hl := l.toNat_lt
  apply UInt8.toNat_inj.mp
  simp
  omega

@[simp] theorem low_join (h l : UInt8) : low (join h l) = l := by
  apply UInt8.toNat_inj.mp
  simp

@[simp] theorem join_high_low (w : UInt16) : join (high w) (low w) = w := by
  apply UInt16.toNat_inj.mp
  simp
  omega

end Sm83.Word
