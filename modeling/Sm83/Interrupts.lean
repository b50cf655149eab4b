/-!
# The interrupt latch

Interrupts are enabled or not. Disabling them takes effect at once, and so does the return from an
interrupt; enabling them by EI takes effect only when the instruction after EI has run. The latch
keeps track of such an enabling on its way, which passes through two stages.
-/

namespace Sm83

/-- Whether interrupts are enabled, and how far an enabling has come. -/
structure Interrupts where
  enabled : Bool := false
  /-- EI is running. -/
  pending : Bool := false
  /-- The instruction after EI is next or running. -/
  delayed : Bool := false
  deriving DecidableEq

namespace Interrupts

def schedule (latch : Interrupts) : Interrupts :=
  { latch with pending := true }

def enable (latch : Interrupts) : Interrupts :=
  { latch with enabled := true }

/-- Disables interrupts at once and calls off an enabling on its way. -/
def disable (_ : Interrupts) : Interrupts := {}

/-- Moves an enabling on by one stage at the end of an instruction. Of two on their way only the
one further on is moved. -/
def advance (latch : Interrupts) : Interrupts :=
  if latch.delayed then { latch with enabled := true, delayed := false }
  else if latch.pending then { latch with pending := false, delayed := true }
  else latch

end Interrupts

end Sm83
