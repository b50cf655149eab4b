import Sm83.Decoded
import Sm83.Proofs.Guarded.Table

/-!
# The guarded core

A step of the guarded core fetches through PC, looks the opcode up in the tables, collects the
arguments one by one, checks that PC has moved by the declared size and hands the arguments to the
routine. Operands are settled from the registers as they are when their turn comes, not from those
before the fetch.
-/

namespace Sm83.Guarded


structure Fetched where
  descriptor : Descriptor
  args : Args
  pc : UInt16
  deriving DecidableEq

inductive Outcome where
  | executed (descriptor : Descriptor)
  | halted
  | stopped
  | fault (fault : Fault)
  deriving DecidableEq

def fetchByte : StateT Cpu GuardedM UInt8 := do
  let cpu ← get
  let value ← BusM.readByte cpu.regs.pc
  set { cpu with regs := { cpu.regs with pc := cpu.regs.pc + 1 } }
  return value

def fetchWord : StateT Cpu GuardedM UInt16 := do
  let low ← fetchByte
  let high ← fetchByte
  return Word.join high low

def fetchOpcode : StateT Cpu GuardedM Opcode := do
  let first ← fetchByte
  if first = Opcode.prefixByte then
    return .prefixed (← fetchByte)
  else
    return .plain first

def resolve : OperandKind → StateT Cpu GuardedM Argument
  | .reg8 r => return .reg8 r
  | .reg16 r => return .reg16 r
  | .byte () => return .byte (← fetchByte)
  | .word () => return .word (← fetchWord)
  | .memory (.pair r) => return .memory ((← get).regs.get16 r)
  | .memory .absolute => return .memory (← fetchWord)
  | .memory .high => return .memory (Addressing.highPage (← fetchByte))
  | .memory .highC => return .memory (Addressing.highPage (← get).regs.c)
  | .condition cc => return .condition cc
  | .bit index => return .bit index
  | .vector address => return .vector address

def resolveAll (args : Args) : List OperandKind → StateT Cpu GuardedM Args
  | [] => return args
  | kind :: rest => do
      let argument ← resolve kind
      resolveAll (← args.push argument) rest

/-- Fetches the instruction at PC and moves PC past it; in front of a hole PC is put back. -/
def decode : StateT Cpu GuardedM (Except Fault Fetched) := do
  let pc := (← get).regs.pc
  let opcode ← fetchOpcode
  match ← lookUp opcode with
  | none =>
      modify fun cpu => { cpu with regs := { cpu.regs with pc } }
      return .error { opcode, pc }
  | some descriptor =>
      let args ← resolveAll [] descriptor.operands
      if (← get).regs.pc - pc = descriptor.size.toUInt16 then
        return .ok { descriptor, args, pc }
      else throw .wrongSize

def control : Routine → Cpu → Cpu
  | .stop, cpu => { cpu with stopped := true }
  | .halt, cpu => { cpu with halted := true }
  | .di, cpu => { cpu with interrupts := cpu.interrupts.disable }
  | .ei, cpu => { cpu with interrupts := cpu.interrupts.schedule }
  | .reti, cpu => { cpu with interrupts := cpu.interrupts.enable }
  | _, cpu => cpu

def execute (fetched : Fetched) (cpu : Cpu) : GuardedM Cpu := do
  let regs ← act fetched.descriptor.routine cpu.regs fetched.args
  let cpu' := control fetched.descriptor.routine { cpu with regs }
  let f := fetched.descriptor.flags.apply cpu.regs.f cpu'.regs.f
  return { cpu' with regs := { cpu'.regs with f }, interrupts := cpu'.interrupts.advance }

def decodeExecute (cpu : Cpu) : GuardedM (Except Fault Fetched × Cpu) := do
  let (result, cpu) ← decode.run cpu
  match result with
  | .error fault => return (.error fault, cpu)
  | .ok fetched => return (.ok fetched, ← execute fetched cpu)

def step (cpu : Cpu) : GuardedM (Outcome × Cpu) := do
  if cpu.stopped then
    return (.stopped, cpu)
  else if cpu.halted then
    return (.halted, cpu)
  else
    let (result, cpu) ← decodeExecute cpu
    match result with
    | .error fault => return (.fault fault, cpu)
    | .ok fetched => return (.executed fetched.descriptor, cpu)

end Sm83.Guarded
