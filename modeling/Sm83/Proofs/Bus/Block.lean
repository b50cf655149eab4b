import Sm83.Bus.Recorded
import Sm83.Proofs.Bus.Always

/-!
# Reading a block over the bus

A block is read byte by byte upwards, from the last address on to the first. On a recorded memory
this gives the cells as they are and leaves one read of each in the log (`run_readBlock`).
-/

namespace Sm83

theorem address_add (address : UInt16) (n k : Nat) :
    address + (n + k).toUInt16 = address + n.toUInt16 + k.toUInt16 := by
  simp [UInt16.add_assoc]

namespace Memory

@[simp] theorem block_zero (m : Memory) (address : UInt16) : m.block address 0 = [] := rfl

theorem block_succ (m : Memory) (address : UInt16) (n : Nat) :
    m.block address (n + 1) = m.read address :: m.block (address + 1) n := by
  have next (i : Nat) : m.read (address + (i + 1).toUInt16) = m.read (address + 1 + i.toUInt16) := by
    rw [Nat.add_comm i 1]
    exact congrArg m.read (address_add address 1 i)
  simp only [block, List.range_succ_eq_map, List.map_cons, List.map_map, Function.comp_def, next]
  simp

@[simp] theorem length_block (m : Memory) (address : UInt16) (n : Nat) :
    (m.block address n).length = n := by
  simp [block]

def reads (m : Memory) (address : UInt16) (count : Nat) : List Access :=
  (List.range count).map fun i => .read (address + i.toUInt16) (m.read (address + i.toUInt16))

theorem reads_add (m : Memory) (address : UInt16) (n k : Nat) :
    m.reads address (n + k) = m.reads address n ++ m.reads (address + n.toUInt16) k := by
  simp only [reads, List.range_add, List.map_append, List.map_map, Function.comp_def, address_add]

theorem reads_one (m : Memory) (address : UInt16) :
    m.reads address 1 = [.read address (m.read address)] := by
  simp [reads]

end Memory

/-- The recorded memory once a block of it has been read. -/
def Recorded.afterReads (s : Recorded Memory) (address : UInt16) (count : Nat) : Recorded Memory :=
  { s with log := s.log ++ s.bus.reads address count }

theorem Recorded.afterReads_add (s : Recorded Memory) (address : UInt16) (n k : Nat) :
    s.afterReads address (n + k) = (s.afterReads address n).afterReads (address + n.toUInt16) k :=
  congrArg (Recorded.mk s.bus) (Array.ext' (by simp [afterReads, Memory.reads_add]))

namespace BusM

def readBlock (address : UInt16) : Nat → BusM (List UInt8)
  | 0 => return []
  | n + 1 => do
      let first ← readByte address
      let rest ← readBlock (address + 1) n
      return first :: rest

theorem readBlock_add (address : UInt16) (n k : Nat) :
    readBlock address (n + k) = do
      let first ← readBlock address n
      let rest ← readBlock (address + n.toUInt16) k
      return first ++ rest := by
  induction n generalizing address with
  | zero => simp [readBlock]
  | succ n ih =>
    have next : address + 1 + n.toUInt16 = address + (n + 1).toUInt16 := by
      rw [Nat.add_comm n 1]
      exact (address_add address 1 n).symm
    rw [show n + 1 + k = (n + k) + 1 by omega, readBlock, readBlock, ih, next]
    simp

theorem length_readBlock (address : UInt16) (n : Nat) :
    (readBlock address n).Always fun bytes => bytes.length = n := by
  induction n generalizing address with
  | zero => exact rfl
  | succ n ih =>
    rw [readBlock, always_bind]
    intro first
    change (readBlock (address + 1) n >>= fun rest => Pure.pure (first :: rest)).Always _
    rw [always_bind]
    exact (ih (address + 1)).mono fun rest h => congrArg Nat.succ h

theorem run_readByte_recorded (address : UInt16) (s : Recorded Memory) :
    (readByte address).run s = (s.bus.read address, s.afterReads address 1) := by
  simp [Bus.read, Recorded.afterReads, Memory.reads_one]

theorem run_readBlock (address : UInt16) (n : Nat) (s : Recorded Memory) :
    (readBlock address n).run s = (s.bus.block address n, s.afterReads address n) := by
  induction n generalizing address s with
  | zero => simp [readBlock, Memory.block, Recorded.afterReads, Memory.reads]
  | succ n ih =>
    rw [readBlock, run_bind, run_readByte_recorded, run_bind, ih, run_pure, Memory.block_succ, Nat.add_comm n 1,
      Recorded.afterReads_add]
    rfl

end BusM

end Sm83
