import Sm83.Decoded
import Sm83.Operation

/-!
# Steps and runs

A step decodes one instruction and runs it. A parked core does nothing in a step, and neither does
a core in front of a hole: it makes no progress and reports the fault again in every step.
-/

namespace Sm83

inductive Outcome where
  | executed (entry : Entry)
  | halted
  | stopped
  | fault (fault : Fault)
  deriving DecidableEq

inductive RunEnd where
  | limit
  | breakpoint
  | halted
  | stopped
  | fault (fault : Fault)
  deriving DecidableEq

namespace Cpu

/-- One step. A core that is both stopped and halted counts as stopped. -/
def step (cpu : Cpu) : BusM (Outcome × Cpu) := do
  if cpu.stopped then
    return (.stopped, cpu)
  else if cpu.halted then
    return (.halted, cpu)
  else
    let (result, cpu) ← cpu.decode
    match result with
    | .error fault => return (.fault fault, cpu)
    | .ok decoded => return (.executed decoded.entry, ← decoded.operation.execute cpu)

/-- Continues a run in which `executed` instructions have run already. -/
def runFrom (executed : Nat) (breakpoint : Option UInt16) (cpu : Cpu) :
    (limit : Nat) → BusM (Nat × RunEnd × Cpu)
  | 0 => return (executed, .limit, cpu)
  | limit + 1 => do
      let (outcome, cpu) ← cpu.step
      match outcome with
      | .executed _ =>
          if breakpoint = some cpu.regs.pc then return (executed + 1, .breakpoint, cpu)
          else runFrom (executed + 1) breakpoint cpu limit
      | .halted => return (executed, .halted, cpu)
      | .stopped => return (executed, .stopped, cpu)
      | .fault fault => return (executed, .fault fault, cpu)

/-- Steps until `limit` instructions have run, an instruction leaves PC at the breakpoint, or a step
runs no instruction. Gives the number of instructions run. -/
def run (cpu : Cpu) (breakpoint : Option UInt16) (limit : Nat) : BusM (Nat × RunEnd × Cpu) :=
  runFrom 0 breakpoint cpu limit

/-- The core after `count` steps, those of a parked core included, unless one of them faults. -/
def steps (cpu : Cpu) : (count : Nat) → BusM (Except Fault Cpu)
  | 0 => return .ok cpu
  | count + 1 => do
      let (outcome, cpu) ← cpu.step
      match outcome with
      | .fault fault => return .error fault
      | .executed _ | .halted | .stopped => cpu.steps count

end Cpu

end Sm83
