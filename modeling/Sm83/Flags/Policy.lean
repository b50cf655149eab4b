import Sm83.Flags

/-!
# Flag policies

Each instruction has a policy that says for every flag whether it is left alone, forced to a value
or computed. The policy has the last word: a flag it leaves alone keeps its value whatever the
instruction computed.
-/

namespace Sm83

inductive FlagEffect where
  | unaffected | reset | set | computed
  deriving DecidableEq

namespace FlagEffect

/-- Reads one column of an opcode reference: `-` for unaffected, `0` and `1` for a forced value,
and any other character for a computed one. -/
def ofChar : Char → FlagEffect
  | '-' => unaffected
  | '0' => reset
  | '1' => set
  | _ => computed

def apply : FlagEffect → (before computed : Bool) → Bool
  | unaffected, before, _ => before
  | reset, _, _ => false
  | set, _, _ => true
  | computed, _, value => value

end FlagEffect

structure FlagPolicy where
  z : FlagEffect := .unaffected
  n : FlagEffect := .unaffected
  h : FlagEffect := .unaffected
  c : FlagEffect := .unaffected
  deriving DecidableEq

namespace FlagPolicy

/-- The policy written as four characters, in the order Z N H C. -/
def ofChars (z n h c : Char) : FlagPolicy :=
  ⟨.ofChar z, .ofChar n, .ofChar h, .ofChar c⟩

/-- The flags after an instruction, from those before it and those it computed. -/
def apply (policy : FlagPolicy) (before computed : Flags) : Flags where
  z := policy.z.apply before.z computed.z
  n := policy.n.apply before.n computed.n
  h := policy.h.apply before.h computed.h
  c := policy.c.apply before.c computed.c

@[simp] theorem apply_unaffected (before computed : Flags) :
    ({} : FlagPolicy).apply before computed = before := rfl

end FlagPolicy

end Sm83
