import Sm83.Byte

/-!
# The flag register

The flags Z (zero), N (subtract), H (half carry) and C (carry) live in the high nibble of F. The
low nibble does not exist: it reads as zero and what is written to it is lost
(`toByte_ofByte`, `ofByte_toByte`). A value of `Flags` also serves as a set of flags.
-/

namespace Sm83

/-- The four flags of F, or a set of them. -/
structure Flags where
  z : Bool := false
  n : Bool := false
  h : Bool := false
  c : Bool := false
  deriving DecidableEq

namespace Flags

/-- The flags as the byte F, from bit 7 down to bit 4. -/
def toByte (f : Flags) : UInt8 :=
  (if f.z then 0x80 else 0) + (if f.n then 0x40 else 0) +
    (if f.h then 0x20 else 0) + (if f.c then 0x10 else 0)

/-- The flags held by a byte written to F, its low nibble dropped. -/
def ofByte (b : UInt8) : Flags where
  z := b &&& 0x80 != 0
  n := b &&& 0x40 != 0
  h := b &&& 0x20 != 0
  c := b &&& 0x10 != 0

/-- Whether every flag of `set` is up in `f`; always so for the empty set. -/
def contains (f set : Flags) : Bool :=
  (!set.z || f.z) && (!set.n || f.n) && (!set.h || f.h) && (!set.c || f.c)

/-- Gives every flag of `set` the same value and leaves the others alone. -/
def assign (f set : Flags) (value : Bool) : Flags where
  z := if set.z then value else f.z
  n := if set.n then value else f.n
  h := if set.h then value else f.h
  c := if set.c then value else f.c

def letters (f : Flags) : List String :=
  (if f.z then ["Z"] else []) ++ (if f.n then ["N"] else []) ++
    (if f.h then ["H"] else []) ++ (if f.c then ["C"] else [])

/-- A flag set as conformance messages write it. -/
def text (f : Flags) : String :=
  if f.letters.isEmpty then "Flags(0x0)" else "Flags(" ++ " | ".intercalate f.letters ++ ")"

@[simp] theorem ofByte_toByte (f : Flags) : ofByte f.toByte = f := by
  rcases f with ⟨_ | _, _ | _, _ | _, _ | _⟩ <;> rfl

theorem toByte_ofByte (b : UInt8) : (ofByte b).toByte = b &&& 0xF0 :=
  Byte.forall_of_lt (by decide +kernel) b

@[simp] theorem contains_empty (f : Flags) : f.contains {} = true := rfl

@[simp] theorem assign_empty (f : Flags) (value : Bool) : f.assign {} value = f := rfl

end Flags

end Sm83
