import Sm83.Conformance.Case
import Sm83.Proofs.Location

/-!
# The start of a case

The machine of a case begins with zero everywhere. The program is put over that, its address into
PC, and the presets over both, one after the other. So before the step a location has the content
that was put into it last, and zero if none was (`content_start`).
-/

namespace Sm83

/-- The content of the location in a machine in which everything is zero. -/
def Location.zero : Location → Content
  | reg _ | cell _ => .byte 0
  | flag _ => .bit false
  | sp | pc => .word 0

theorem Location.content_zero (location : Location) : location.content {} .zero = location.zero := by
  cases location with
  | reg r => cases r <;> rfl
  | flag which => cases which <;> rfl
  | cell address => exact congrArg Content.byte (Memory.read_zero address)
  | sp | pc => rfl

namespace Conformance

namespace Field

def stores : Field → List (Location × Content)
  | reg8 r value => [(.reg r, .byte value)]
  | reg16 r value => r.parts value
  | flag set value => (Flag.all.filter (·.get set)).map fun which => (.flag which, .bit value)
  | memory address bytes => cellsOf address bytes

/-- The locations that the field writes. -/
def locations (field : Field) : List Location :=
  field.stores.map Prod.fst

theorem stored_apply (field : Field) (machine : Machine) :
    Stored field.stores (machine.cpu.regs, machine.memory)
      ((field.apply machine).cpu.regs, (field.apply machine).memory) := by
  cases field with
  | reg8 r value => exact stored_set8 _ _ r value
  | reg16 r value => exact stored_set16 _ _ r value
  | flag set value => exact stored_assign _ _ set value
  | memory address bytes => exact stored_load _ _ address bytes

/-- Of fields put in place one after the other the last one for a location counts. -/
theorem stored_foldl_apply (fields : List Field) (machine : Machine) :
    let last := fields.foldl (fun machine field => field.apply machine) machine
    Stored (fields.reverse.flatMap stores) (machine.cpu.regs, machine.memory)
      (last.cpu.regs, last.memory) := by
  induction fields generalizing machine with
  | nil => exact stored_nil _
  | cons field rest ih =>
    rw [List.reverse_cons, List.flatMap_append, List.flatMap_singleton]
    exact (field.stored_apply machine).trans (ih (field.apply machine))

theorem cpu_apply (field : Field) (machine : Machine) :
    (field.apply machine).cpu = { machine.cpu with regs := (field.apply machine).cpu.regs } := by
  cases field <;> rfl

theorem cpu_foldl_apply (fields : List Field) (machine : Machine) :
    let last := fields.foldl (fun machine field => field.apply machine) machine
    last.cpu = { machine.cpu with regs := last.cpu.regs } := by
  induction fields generalizing machine with
  | nil => rfl
  | cons field rest ih =>
    have later := ih (field.apply machine)
    rwa [cpu_apply field machine] at later

end Field

namespace Case

theorem content_start (case : Case) (location : Location) :
    let program := cellsOf case.origin (case.opcode ++ case.extra)
    let stores := case.presets.reverse.flatMap Field.stores ++
      (program ++ [(.pc, .word case.origin)])
    location.content case.start.cpu.regs case.start.memory =
      (stores.lookup location).getD location.zero := by
  intro program stores
  let loaded : Machine :=
    { cpu := { regs := { pc := case.origin } }
      memory := Memory.zero.load case.origin (case.opcode ++ case.extra) }
  have origin := stored_pc {} .zero case.origin
  have whole := stored_load { pc := case.origin } .zero case.origin (case.opcode ++ case.extra)
  have presets := Field.stored_foldl_apply case.presets loaded
  have all : Stored stores ({}, .zero) (case.start.cpu.regs, case.start.memory) :=
    (origin.trans whole).trans presets
  rw [all location, location.content_zero]

/-- Outside the registers nothing is set, and so no preset parks the core. -/
theorem cpu_start (case : Case) : case.start.cpu = { regs := case.start.cpu.regs } :=
  Field.cpu_foldl_apply case.presets _

theorem start_running (case : Case) :
    case.start.cpu.stopped = false ∧ case.start.cpu.halted = false := by
  rw [cpu_start]
  exact ⟨rfl, rfl⟩

end Case

end Conformance

end Sm83
