import Sm83.Interrupts
import Sm83.Registers

/-!
# The core

The state of the core is its registers, its interrupt latch and two bits that say whether it is
parked. Memory is not part of it.
-/

namespace Sm83

/-- The state of the core; by default everything is zero and nothing is parked. -/
structure Cpu where
  regs : Registers := {}
  interrupts : Interrupts := {}
  halted : Bool := false
  stopped : Bool := false
  deriving DecidableEq

namespace Cpu

/-- The core as the boot ROM of the DMG leaves it. -/
def boot : Cpu where
  regs :=
    { a := 0x01, f := { z := true, h := true, c := true }, c := 0x13, e := 0xD8, h := 0x01,
      l := 0x4D, sp := 0xFFFE, pc := 0x0100 }

def wake (cpu : Cpu) : Cpu :=
  { cpu with halted := false, stopped := false }

end Cpu

end Sm83
