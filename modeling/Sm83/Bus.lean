import Sm83.Memory
import Sm83.Word

/-!
# The bus

The core reaches memory and devices only by reading and writing single bytes. `BusM` describes a
computation by the accesses it makes: what it does after a read may depend on the byte read, and
nothing else about the other side of the bus is visible to it. Any type with an instance of `Bus`
can answer the accesses. Running a sequence is running its parts in turn (`run_bind`).
-/

namespace Sm83

/-- A computation that reads and writes bytes on a bus before it gives its value. -/
inductive BusM (α : Type) where
  | pure (value : α)
  | read (address : UInt16) (next : UInt8 → BusM α)
  | write (address : UInt16) (value : UInt8) (next : BusM α)

/-- Something that answers bus accesses. A read may change it too. -/
class Bus (σ : Type) where
  read : UInt16 → σ → UInt8 × σ
  write : UInt16 → UInt8 → σ → σ

instance : Bus Memory where
  read address m := (m.read address, m)
  write address value m := m.write address value

namespace BusM

variable {α β σ : Type}

def bind : BusM α → (α → BusM β) → BusM β
  | .pure value, next => next value
  | .read address rest, next => .read address fun value => (rest value).bind next
  | .write address value rest, next => .write address value (rest.bind next)

instance : Monad BusM where
  pure := .pure
  bind := .bind

def run [Bus σ] : BusM α → σ → α × σ
  | .pure value, bus => (value, bus)
  | .read address next, bus =>
      let (value, bus) := Bus.read address bus
      (next value).run bus
  | .write address value next, bus => next.run (Bus.write address value bus)

def readByte (address : UInt16) : BusM UInt8 :=
  .read address .pure

def writeByte (address : UInt16) (value : UInt8) : BusM Unit :=
  .write address value (.pure ())

/-- Reads the low byte and then, at the next address, the high byte. -/
def readWord (address : UInt16) : BusM UInt16 := do
  let low ← readByte address
  let high ← readByte (address + 1)
  return Word.join high low

/-- Writes the low byte and then, at the next address, the high byte. -/
def writeWord (address value : UInt16) : BusM Unit := do
  writeByte address (Word.low value)
  writeByte (address + 1) (Word.high value)

theorem bind_pure_right (program : BusM α) : program.bind .pure = program := by
  induction program with
  | pure => rfl
  | read address next ih => simp only [bind, ih]
  | write address value next ih => simp only [bind, ih]

theorem bind_assoc (program : BusM α) {γ : Type} (first : α → BusM β) (second : β → BusM γ) :
    (program.bind first).bind second = program.bind fun value => (first value).bind second := by
  induction program with
  | pure => rfl
  | read address next ih => simp only [bind, ih]
  | write address value next ih => simp only [bind, ih]

instance : LawfulMonad BusM :=
  LawfulMonad.mk' BusM bind_pure_right (fun _ _ => rfl) (fun program => program.bind_assoc)

variable [Bus σ]

@[simp] theorem run_pure (value : α) (bus : σ) : (Pure.pure value : BusM α).run bus = (value, bus) :=
  rfl

@[simp] theorem run_bind (program : BusM α) (next : α → BusM β) (bus : σ) :
    (program >>= next).run bus = (next (program.run bus).1).run (program.run bus).2 := by
  change (program.bind next).run bus = _
  induction program generalizing bus with
  | pure => rfl
  | read address rest ih => exact ih _ _
  | write address value rest ih => exact ih _

@[simp] theorem run_map (f : α → β) (program : BusM α) (bus : σ) :
    (f <$> program).run bus = (f (program.run bus).1, (program.run bus).2) := by
  rw [map_eq_pure_bind, run_bind, run_pure]

@[simp] theorem run_readByte (address : UInt16) (bus : σ) :
    (readByte address).run bus = Bus.read address bus := rfl

@[simp] theorem run_writeByte (address : UInt16) (value : UInt8) (bus : σ) :
    (writeByte address value).run bus = ((), Bus.write address value bus) := rfl

end BusM

end Sm83
