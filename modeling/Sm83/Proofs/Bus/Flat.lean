import Sm83.Bus.WriteProtected
import Sm83.Proofs.Bus.Block
import Sm83.Proofs.Bus.Logged

/-!
# Flat buses

Behind a flat bus lies one memory. A read gives a cell of it and changes nothing; a write changes
the cell it names or is dropped. Memory itself is one, and so is memory that is partly
write-protected. A cell that a program does not write is left alone (`read_run_of_unwritten`).
-/

namespace Sm83

class FlatBus (σ : Type) [Bus σ] where
  memory : σ → Memory
  read_eq : ∀ address bus, Bus.read address bus = ((memory bus).read address, bus)
  memory_write : ∀ address value bus,
    memory (Bus.write address value bus) = (memory bus).write address value ∨
      memory (Bus.write address value bus) = memory bus

instance : FlatBus Memory where
  memory := id
  read_eq _ _ := rfl
  memory_write _ _ _ := .inl rfl

instance : FlatBus WriteProtected where
  memory := WriteProtected.memory
  read_eq _ _ := rfl
  memory_write address value bus := by
    rcases Nat.lt_or_ge address.toNat bus.limit with below | above
    · exact .inr (congrArg WriteProtected.memory (WriteProtected.write_of_lt value below))
    · exact .inl (WriteProtected.memory_write_of_le value above)

variable {α σ : Type} [Bus σ] [FlatBus σ]

open FlatBus (memory)

theorem FlatBus.read_write_of_ne (bus : σ) {address other : UInt16} (value : UInt8)
    (h : other ≠ address) :
    (memory (Bus.write address value bus)).read other = (memory bus).read other := by
  rcases memory_write address value bus with written | dropped
  · rw [written, Memory.read_write_of_ne _ _ h]
  · rw [dropped]

namespace BusM

theorem run_logged_readByte (address : UInt16) (bus : σ) :
    (readByte address).logged.run bus =
      let value := (memory bus).read address
      ((value, [.read address value]), bus) := by
  simp [FlatBus.read_eq]

theorem run_logged_readBlock (address : UInt16) (count : Nat) (bus : σ) :
    (readBlock address count).logged.run bus =
      (((memory bus).block address count, (memory bus).reads address count), bus) := by
  induction count generalizing address with
  | zero => simp [readBlock, Memory.block, Memory.reads]
  | succ count ih =>
    have reads := (memory bus).reads_add address 1 count
    rw [Memory.reads_one, Nat.add_comm 1 count] at reads
    simp only [readBlock, logged_bind, run_bind, run_map, run_logged_readByte, ih, logged_pure,
      run_pure, Memory.block_succ, reads]
    simp

theorem read_run_of_unwritten (program : BusM α) (bus : σ) {address : UInt16}
    (h : ∀ value, .write address value ∉ (program.logged.run bus).1.2) :
    (memory (program.logged.run bus).2).read address = (memory bus).read address := by
  induction program generalizing bus with
  | pure value => rfl
  | read other next ih =>
    simp only [logged, run, FlatBus.read_eq, run_map] at h ⊢
    exact ih _ bus fun value inside => h value (List.mem_cons_of_mem _ inside)
  | write other value next ih =>
    simp only [logged, run, run_map] at h ⊢
    -- Had this cell been written, the write would stand first in the log.
    have apart : address ≠ other := by
      rintro rfl
      exact h value List.mem_cons_self
    rw [ih _ fun value inside => h value (List.mem_cons_of_mem _ inside),
      FlatBus.read_write_of_ne bus value apart]

end BusM

end Sm83
