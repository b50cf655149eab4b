import Sm83.Bus

/-!
# Recorded buses

A recorded bus answers as the bus inside it does (`run_recorded`) and keeps the list of all
accesses in the order in which they were made.
-/

namespace Sm83

/-- One access: the address and the byte read from it or offered to it. -/
inductive Access where
  | read (address : UInt16) (value : UInt8)
  | write (address : UInt16) (value : UInt8)
  deriving DecidableEq

/-- A bus together with the accesses made to it so far, the oldest first. -/
structure Recorded (σ : Type) where
  bus : σ
  log : Array Access := #[]

variable {α σ : Type} [Bus σ]

instance : Bus (Recorded σ) where
  read address s :=
    let (value, bus) := Bus.read address s.bus
    (value, { bus, log := s.log.push (.read address value) })
  write address value s :=
    { bus := Bus.write address value s.bus, log := s.log.push (.write address value) }

/-- Recording changes neither the value of a computation nor what happens to the bus. -/
theorem BusM.run_recorded (program : BusM α) (s : Recorded σ) :
    (program.run s).1 = (program.run s.bus).1 ∧
      (program.run s).2.bus = (program.run s.bus).2 := by
  induction program generalizing s with
  | pure => exact ⟨rfl, rfl⟩
  | read address next ih => exact ih _ _
  | write address value next ih => exact ih _

end Sm83
