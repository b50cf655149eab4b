import Mathlib.Data.List.Induction
import Mathlib.Order.Bounds.Basic
import Sm83.Proofs.Memory.Load

/-!
# Loading blocks that overrun memory

A block may be longer than memory and come round to the same cell several times. The last byte that
comes to a cell is the one that stays: it has the greatest of the offsets that reach the cell. Loading
is the same as writing byte after byte over the bus, and a block can be loaded in two parts
(`load_leaves_last`).
-/

namespace Sm83

theorem toNat_address_add (address : UInt16) (offset : Nat) :
    (address + offset.toUInt16).toNat = (address.toNat + offset) % 0x10000 := by
  rw [UInt16.toNat_add, UInt16.toNat_ofNat', Nat.add_mod_mod]

namespace BusM

def writeAt (address : UInt16) : UInt8 × Nat → BusM Unit
  | (byte, offset) => writeByte (address + offset.toUInt16) byte

/-- Writes the bytes one after the other, each at its offset from the address. -/
def writeBlock (address : UInt16) (bytes : List UInt8) : BusM Unit :=
  forM bytes.zipIdx (writeAt address)

end BusM

namespace Memory

/-- The offsets of a block at which it comes to a cell. -/
def offsetsAt (address cell : UInt16) (length : Nat) : Set Nat :=
  {offset | offset < length ∧ (address.toNat + offset) % 0x10000 = cell.toNat}

theorem load_append (m : Memory) (address : UInt16) (bytes rest : List UInt8) :
    m.load address (bytes ++ rest) =
      (m.load address bytes).load (address + bytes.length.toUInt16) rest := by
  induction bytes generalizing m address with
  | nil => exact congrArg (m.load · rest) (UInt16.add_zero address).symm
  | cons byte later ih =>
    rw [List.cons_append, load, ih, List.length_cons, Nat.add_comm later.length 1, address_add]
    rfl

theorem load_concat (m : Memory) (address : UInt16) (bytes : List UInt8) (byte : UInt8) :
    m.load address (bytes ++ [byte]) =
      (m.load address bytes).write (address + bytes.length.toUInt16) byte :=
  m.load_append address bytes [byte]

/-- A byte added at the end of a block does not reach the cells that it is not written to. -/
theorem offsetsAt_succ_of_ne {address cell : UInt16} {length : Nat}
    (other : cell ≠ address + length.toUInt16) :
    offsetsAt address cell (length + 1) = offsetsAt address cell length := by
  ext offset
  constructor
  · rintro ⟨inside, reached⟩
    have earlier : offset ≠ length := by
      rintro rfl
      exact other (UInt16.toNat_inj.mp ((toNat_address_add address offset).trans reached).symm)
    exact ⟨by omega, reached⟩
  · rintro ⟨inside, reached⟩
    exact ⟨by omega, reached⟩

theorem isGreatest_offsetsAt_succ (address : UInt16) (length : Nat) :
    IsGreatest (offsetsAt address (address + length.toUInt16) (length + 1)) length := by
  constructor
  · exact ⟨Nat.lt_succ_self length, (toNat_address_add address length).symm⟩
  · rintro offset ⟨inside, -⟩
    exact Nat.le_of_lt_succ inside

theorem read_load_cases (m : Memory) (address cell : UInt16) (bytes : List UInt8) :
    (offsetsAt address cell bytes.length = ∅ ∧ (m.load address bytes).read cell = m.read cell) ∨
      ∃ last, IsGreatest (offsetsAt address cell bytes.length) last ∧
        bytes[last]? = some ((m.load address bytes).read cell) := by
  -- The byte at the end of a block is written last, so the block grows at its end here.
  induction bytes using List.reverseRecOn with
  | nil => exact .inl ⟨Set.eq_empty_of_forall_notMem fun _ ⟨inside, _⟩ => (nomatch inside), rfl⟩
  | append_singleton bytes byte ih =>
    rw [load_concat, List.length_append, List.length_singleton]
    by_cases here : cell = address + bytes.length.toUInt16
    · subst here
      refine .inr ⟨bytes.length, isGreatest_offsetsAt_succ address bytes.length, ?_⟩
      rw [read_write_self, List.getElem?_concat_length]
    · rw [read_write_of_ne _ byte here, offsetsAt_succ_of_ne here]
      rcases ih with ⟨none, kept⟩ | ⟨last, greatest, value⟩
      · exact .inl ⟨none, kept⟩
      · have inside : last < bytes.length := greatest.1.1
        refine .inr ⟨last, greatest, ?_⟩
        rw [List.getElem?_append_left inside, value]

theorem run_forM_writeAt (m : Memory) (address : UInt16) (bytes : List UInt8) (first : Nat) :
    (forM (bytes.zipIdx first) (BusM.writeAt address)).run m =
      ((), m.load (address + first.toUInt16) bytes) := by
  induction bytes generalizing m first with
  | nil => rfl
  | cons byte rest ih =>
    rw [List.zipIdx_cons, List.forM_cons, BusM.run_bind, ih, address_add]
    rfl

theorem run_writeBlock (m : Memory) (address : UInt16) (bytes : List UInt8) :
    (BusM.writeBlock address bytes).run m = ((), m.load address bytes) := by
  rw [BusM.writeBlock, run_forM_writeAt]
  exact congrArg (fun address => ((), m.load address bytes)) (UInt16.add_zero address)

/-- After loading, a cell that the block does not come to has its old byte, and every other cell has
the byte at the greatest of the offsets at which the block comes to it. The parts of a block can be
loaded one after the other, and its bytes can be written one after the other over the bus instead.
A block that fits into memory can be read back. -/
theorem load_leaves_last (m : Memory) (address : UInt16) (bytes : List UInt8) :
    let loaded := m.load address bytes
    (∀ cell : UInt16,
      let reached := offsetsAt address cell bytes.length
      (reached = ∅ ∧ loaded.read cell = m.read cell) ∨
        ∃ last, IsGreatest reached last ∧ bytes[last]? = some (loaded.read cell)) ∧
    (∀ rest : List UInt8,
      m.load address (bytes ++ rest) = loaded.load (address + bytes.length.toUInt16) rest) ∧
    (BusM.writeBlock address bytes).run m = ((), loaded) ∧
    (bytes.length ≤ 0x10000 → loaded.block address bytes.length = bytes) := by
  intro loaded
  exact ⟨fun cell => m.read_load_cases address cell bytes, m.load_append address bytes,
    m.run_writeBlock address bytes, m.block_load address bytes⟩

/-- The last byte of a block that is one byte longer than memory goes to its first cell. A short block
around the end of memory is read back. -/
theorem load_leaves_last_of_round :
    let long : List UInt8 := List.replicate 0x10000 0x11 ++ [0x22]
    let short : List UInt8 := [0x01, 0x02, 0x03]
    (zero.load 0xFFFE long).read 0xFFFE = 0x22 ∧ short.length ≤ 0x10000 ∧
      (zero.load 0xFFFE short).block 0xFFFE short.length = short := by
  intro long short
  have fits : short.length ≤ 0x10000 := by decide
  obtain ⟨cells, -⟩ := zero.load_leaves_last 0xFFFE long
  obtain ⟨-, -, -, back⟩ := zero.load_leaves_last 0xFFFE short
  refine ⟨?_, fits, back fits⟩
  have length : long.length = 0x10000 + 1 := by
    rw [List.length_append, List.length_replicate, List.length_singleton]
  have round : IsGreatest (offsetsAt 0xFFFE 0xFFFE long.length) 0x10000 := by
    rw [length]
    exact isGreatest_offsetsAt_succ 0xFFFE 0x10000
  have final : long[0x10000]? = some 0x22 := by
    have at_end : long[(List.replicate 0x10000 (0x11 : UInt8)).length]? = some 0x22 :=
      List.getElem?_concat_length
    rwa [List.length_replicate] at at_end
  rcases cells 0xFFFE with ⟨none, -⟩ | ⟨last, greatest, value⟩
  · exact absurd round.1 (Set.eq_empty_iff_forall_notMem.mp none 0x10000)
  · rw [greatest.unique round, final] at value
    exact (Option.some.inj value).symm

end Memory

end Sm83
