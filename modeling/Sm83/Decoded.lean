import Sm83.Bus
import Sm83.Cpu
import Sm83.OpcodeMap

/-!
# Decoding

An instruction is fetched byte by byte from PC on: the opcode, then the literals of its operands in
their order, words with the low byte first. Addresses of memory operands are settled here, from the
registers as they are now, so an instruction that changes half of the pair it goes through still
uses the address it began with. Decoding moves PC past the instruction and changes nothing else; on
a hole it changes nothing at all.
-/

namespace Sm83

/-- A fetched instruction, ready to run. -/
structure Decoded where
  entry : Entry
  operation : Operation
  pc : UInt16
  deriving DecidableEq

/-- No instruction has the opcode found at `pc`. -/
structure Fault where
  opcode : Opcode
  pc : UInt16
  deriving DecidableEq

def Fault.message (fault : Fault) : String :=
  "unimplemented opcode " ++ fault.opcode.text ++ " at PC=0x" ++ Hex.word fault.pc

/-- A computation that fetches bytes and keeps the address of the next one. -/
abbrev FetchM := StateT UInt16 BusM

namespace FetchM

def byte : FetchM UInt8 := do
  let address ← get
  set (address + 1)
  BusM.readByte address

def word : FetchM UInt16 := do
  let low ← byte
  let high ← byte
  return Word.join high low

def opcode : FetchM Opcode := do
  let first ← byte
  if first = Opcode.prefixByte then
    return .prefixed (← byte)
  else
    return .plain first

def address (regs : Registers) : Addressing → FetchM UInt16
  | .pair r => return regs.get16 r
  | .absolute => word
  | .high => return Addressing.highPage (← byte)
  | .highC => return Addressing.highPage regs.c

def operation (regs : Registers) (form : Form) : FetchM Operation :=
  form.mapM (address regs) (fun _ => byte) (fun _ => word)

end FetchM

/-- Fetches the instruction at PC and moves PC past it. -/
def Cpu.decode (cpu : Cpu) : BusM (Except Fault Decoded × Cpu) := do
  let pc := cpu.regs.pc
  let (opcode, next) ← FetchM.opcode.run pc
  match Entry.ofOpcode? opcode with
  | none => return (.error { opcode, pc }, cpu)
  | some entry =>
      let (operation, next) ← (FetchM.operation cpu.regs entry.form).run next
      return (.ok { entry, operation, pc }, { cpu with regs := { cpu.regs with pc := next } })

end Sm83
