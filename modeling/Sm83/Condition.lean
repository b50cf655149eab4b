import Sm83.Flags

/-!
# Branch conditions

Conditional jumps, calls and returns test either Z or C, for one value or the other.
-/

namespace Sm83

/-- The test a conditional jump, call or return makes. -/
inductive Condition where
  | nz | z | nc | c
  deriving DecidableEq

namespace Condition

def all : List Condition := [nz, z, nc, c]

def name : Condition → String
  | nz => "NZ"
  | z => "Z"
  | nc => "NC"
  | c => "C"

/-- The condition a two-bit opcode field selects; higher bits of `index` are ignored. -/
def ofIndex (index : Nat) : Condition :=
  match index % 4 with
  | 0 => nz
  | 1 => z
  | 2 => nc
  | _ => c

def holds : Condition → Flags → Bool
  | nz, f => !f.z
  | z, f => f.z
  | nc, f => !f.c
  | c, f => f.c

end Condition

end Sm83
