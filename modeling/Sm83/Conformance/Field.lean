import Sm83.Cpu
import Sm83.Memory
import Sm83.Text.Hex

/-!
# Pieces of machine state

A field names a piece of the state of the core and its memory together with a value. It can be
put into a machine or looked for in one. Looking for a field that is not there gives the mismatch:
what was expected and what was found.
-/

namespace Sm83.Conformance

structure Machine where
  cpu : Cpu := {}
  memory : Memory := .zero

/-- A piece of state and its value. -/
inductive Field where
  | reg8 (r : Reg8) (value : UInt8)
  | reg16 (r : Reg16) (value : UInt16)
  /-- A set of flags that have the same value. -/
  | flag (set : Flags) (value : Bool)
  /-- Consecutive bytes from an address on. -/
  | memory (address : UInt16) (bytes : List UInt8)
  deriving DecidableEq

inductive Mismatch where
  | reg8 (r : Reg8) (expected actual : UInt8)
  | reg16 (r : Reg16) (expected actual : UInt16)
  | flag (set : Flags) (expected actual : Bool)
  | memory (address : UInt16) (expected actual : List UInt8)
  deriving DecidableEq

namespace Mismatch

def comparison (expected actual : String) : String :=
  ": expected " ++ expected ++ ", got " ++ actual

def text : Mismatch → String
  | reg8 r expected actual =>
      r.name ++ comparison ("0x" ++ Hex.byte expected) ("0x" ++ Hex.byte actual)
  | reg16 r expected actual =>
      r.name ++ comparison ("0x" ++ Hex.word expected) ("0x" ++ Hex.word actual)
  | flag set expected actual => set.text ++ comparison (toString expected) (toString actual)
  | memory address expected actual =>
      "mem[0x" ++ Hex.word address ++ "]" ++ comparison (Hex.bytes expected) (Hex.bytes actual)

end Mismatch

namespace Field

def text : Field → String
  | reg8 r value => r.name ++ " = 0x" ++ Hex.byte value
  | reg16 r value => r.name ++ " = 0x" ++ Hex.word value
  | flag set value => set.text ++ " = " ++ toString value
  | memory address bytes => "mem[0x" ++ Hex.word address ++ "] = " ++ Hex.bytes bytes

/-- The fields that give each flag the value it has in `f`. -/
def flags (f : Flags) : List Field :=
  [flag { z := true } f.z, flag { n := true } f.n, flag { h := true } f.h, flag { c := true } f.c]

def apply (field : Field) (machine : Machine) : Machine :=
  let cpu := machine.cpu
  match field with
  | reg8 r value => { machine with cpu := { cpu with regs := cpu.regs.set8 r value } }
  | reg16 r value => { machine with cpu := { cpu with regs := cpu.regs.set16 r value } }
  | flag set value =>
      { machine with cpu := { cpu with regs.f := cpu.regs.f.assign set value } }
  | memory address bytes => { machine with memory := machine.memory.load address bytes }

/-- Looks for the value of a field in a machine. A flag set is taken for up if all of its flags
are. -/
def check (field : Field) (machine : Machine) : Option Mismatch :=
  let regs := machine.cpu.regs
  match field with
  | reg8 r expected =>
      let actual := regs.get8 r
      if actual = expected then none else some (.reg8 r expected actual)
  | reg16 r expected =>
      let actual := regs.get16 r
      if actual = expected then none else some (.reg16 r expected actual)
  | flag set expected =>
      let actual := regs.f.contains set
      if actual = expected then none else some (.flag set expected actual)
  | memory address expected =>
      let actual := machine.memory.block address expected.length
      if actual = expected then none else some (.memory address expected actual)

def namesPc : Field → Bool
  | reg16 .pc _ => true
  | _ => false

end Field

end Sm83.Conformance
