import Sm83.Proofs.Bus.Block

/-!
# Loading a block

A block that fits into memory can be read back as it was loaded, wherever it begins (`block_load`),
and what lies above it is left alone (`block_load_above`).
-/

namespace Sm83

/-! ### Addresses -/

theorem address_add_ne (address : UInt16) {i j : Nat} (hi : i < 0x10000) (hj : j < 0x10000)
    (h : i ≠ j) : address + i.toUInt16 ≠ address + j.toUInt16 := by
  intro same
  have offsets := congrArg UInt16.toNat ((UInt16.add_right_inj address).mp same)
  simp only [UInt16.toNat_ofNat'] at offsets
  omega

theorem address_sub_sub (address : UInt16) (n k : Nat) :
    address - n.toUInt16 - k.toUInt16 = address - (n + k).toUInt16 := by
  have sum : (n + k).toUInt16 = n.toUInt16 + k.toUInt16 := UInt16.ofNat_add n k
  rw [sum]
  grind

theorem address_sub_add (address : UInt16) (n k : Nat) :
    address - (n + k).toUInt16 + k.toUInt16 = address - n.toUInt16 := by
  rw [← address_sub_sub, UInt16.sub_add_cancel]

/-! ### Blocks -/

namespace Memory

theorem block_add (m : Memory) (address : UInt16) (n k : Nat) :
    m.block address (n + k) = m.block address n ++ m.block (address + n.toUInt16) k := by
  simp only [block, List.range_add, List.map_append, List.map_map, Function.comp_def, address_add]

theorem block_two (m : Memory) (address : UInt16) :
    m.block address 2 = [m.read address, m.read (address + 1)] := by
  rw [block_succ, block_succ, block_zero]

theorem block_words_succ (m : Memory) (address : UInt16) (count : Nat) :
    m.block address (2 * (count + 1)) = m.block address 2 ++ m.block (address + 2) (2 * count) := by
  rw [Nat.mul_add, Nat.add_comm]
  exact m.block_add address 2 (2 * count)

/-- Loading changes no cell outside the block. -/
theorem read_load_of_apart (m : Memory) (address other : UInt16) (bytes : List UInt8)
    (apart : ∀ j < bytes.length, other ≠ address + j.toUInt16) :
    (m.load address bytes).read other = m.read other := by
  induction bytes generalizing m address with
  | nil => rfl
  | cons byte rest ih =>
    have first : other ≠ address := by simpa using apart 0 (by simp)
    rw [load, ih (m.write address byte) (address + 1), read_write_of_ne m byte first]
    intro j h
    have later := apart (1 + j) (by rw [List.length_cons]; omega)
    rwa [address_add address 1 j] at later

theorem block_load (m : Memory) (address : UInt16) (bytes : List UInt8)
    (fits : bytes.length ≤ 0x10000) :
    (m.load address bytes).block address bytes.length = bytes := by
  induction bytes generalizing m address with
  | nil => rfl
  | cons byte rest ih =>
    rw [List.length_cons] at fits ⊢
    -- The rest ends before it would come round to the first cell again.
    have first : ((m.write address byte).load (address + 1) rest).read address = byte := by
      rw [read_load_of_apart, read_write_self]
      intro j h
      have round : 0 ≠ 1 + j := by omega
      have apart := address_add_ne address (by omega) (by omega) round
      rwa [address_add address 1 j, show (0 : Nat).toUInt16 = 0 from rfl, UInt16.add_zero] at apart
    rw [block_succ, load, first, ih (m.write address byte) (address + 1) (by omega)]

theorem block_load_above (m : Memory) (address : UInt16) (bytes : List UInt8) {count : Nat}
    (fits : bytes.length + count ≤ 0x10000) :
    (m.load address bytes).block (address + bytes.length.toUInt16) count =
      m.block (address + bytes.length.toUInt16) count := by
  refine List.map_congr_left fun i inside => ?_
  rw [List.mem_range] at inside
  rw [← address_add]
  refine m.read_load_of_apart address _ bytes fun j there => ?_
  exact address_add_ne address (by omega) (by omega) (by omega)

end Memory

end Sm83
