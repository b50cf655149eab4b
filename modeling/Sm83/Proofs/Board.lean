import Sm83.Proofs.Decode

/-!
# A core on its board

A board has a core and a bus on it, and a host that drives them: it steps the core, or has it decode
and execute, and in between does as it likes with registers, bus and control state. A run is any
list of such events. Its history is the list of the instructions executed in it, the first one
first.
-/

namespace Sm83

structure Board (σ : Type) where
  cpu : Cpu
  bus : σ

/-- What a host can do. It may execute an instruction long after it was decoded, and more than
once. -/
inductive Event (σ : Type) where
  | step
  | decode
  | execute (decoded : Decoded) (genuine : decoded.Genuine)
  | wake
  | setRegisters (regs : Registers)
  | setBus (bus : σ)
  | setParked (halted stopped : Bool)
  | setEnabled (enabled : Bool)

def Event.Assigns {σ : Type} : Event σ → Prop
  | .setEnabled _ => True
  | _ => False

def Outcome.executed? : Outcome → Option Entry
  | .executed entry => some entry
  | .halted | .stopped | .fault _ => none

namespace Board

variable {σ : Type} [Bus σ]

/-- One event, with the instruction that was executed in it. -/
def next (board : Board σ) : Event σ → Option Entry × Board σ
  | .step =>
      let ((outcome, cpu), bus) := board.cpu.step.run board.bus
      (outcome.executed?, { cpu, bus })
  | .decode =>
      let ((_, cpu), bus) := board.cpu.decode.run board.bus
      (none, { cpu, bus })
  | .execute decoded _ =>
      let (cpu, bus) := (decoded.operation.execute board.cpu).run board.bus
      (some decoded.entry, { cpu, bus })
  | .wake => (none, { board with cpu := board.cpu.wake })
  | .setRegisters regs => (none, { board with cpu := { board.cpu with regs } })
  | .setBus bus => (none, { board with bus })
  | .setParked halted stopped =>
      (none, { board with cpu := { board.cpu with halted, stopped } })
  | .setEnabled enabled =>
      let interrupts := { board.cpu.interrupts with enabled }
      (none, { board with cpu := { board.cpu with interrupts } })

/-- A run and its history. -/
def run (board : Board σ) : List (Event σ) → List Entry × Board σ
  | [] => ([], board)
  | event :: rest =>
      let (executed, middle) := board.next event
      let (later, last) := middle.run rest
      (executed.toList ++ later, last)

end Board

end Sm83
