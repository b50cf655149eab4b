import Mathlib.Data.Nat.Digits.Defs
import Mathlib.Tactic.LinearCombination
import Sm83.Proofs.Straight

/-!
# Numbers added and subtracted column by column

A number of any length is a list of bytes, the least significant first, that are its digits in some
base. Where the code for each column leaves a digit in A and a carry for the next column in C, and both
are right for that column alone, the digits noted along the way and the last carry are right for the
whole numbers (`milestones_total`). A sum and a difference differ in a sign.
-/

namespace Sm83

/-- What the code for a column does: it adds the right byte and the incoming carry to the left byte, or
subtracts them from it, and leaves a digit in A and the outgoing carry in C. -/
def Cpu.Adds (base : Nat) (sign : Int) (digit : UInt8 → Nat) (column : UInt8 × UInt8)
    (code : List AccumulatorCode) : Prop :=
  ∀ before : Cpu,
    let after := before.afterAll code
    (digit after.regs.a : Int) + sign * (base * after.regs.f.c.toNat) =
      digit column.1 + sign * (digit column.2 + before.regs.f.c.toNat)

namespace Cpu

theorem milestones_total {α : Type} {base : Nat} {sign : Int} {digit : UInt8 → Nat}
    {operands : α → UInt8 × UInt8} {code : α → List AccumulatorCode} (columns : List α)
    (right : ∀ column ∈ columns, Adds base sign digit (operands column) (code column)) (cpu : Cpu) :
    let cores := cpu.milestones (columns.map code)
    let number (bytes : List UInt8) : Int := (Nat.ofDigits base (bytes.map digit) : Nat)
    number (cores.map (·.regs.a)) +
        sign * ((cores.getLastD cpu).regs.f.c.toNat * base ^ columns.length : Nat) =
      number (columns.map fun column => (operands column).1) +
        sign * (number (columns.map fun column => (operands column).2) + cpu.regs.f.c.toNat) := by
  induction columns generalizing cpu with
  | nil => simp [milestones]
  | cons first rest ih =>
    obtain ⟨here, later⟩ := List.forall_mem_cons.mp right
    have digits := ih later (cpu.afterAll (code first))
    have units := here cpu
    simp only [List.map_cons, milestones, Nat.ofDigits_cons, List.length_cons, List.getLastD_cons,
      Nat.cast_add, Nat.cast_mul, Nat.cast_pow, pow_succ] at digits units ⊢
    linear_combination units + base * digits

/-- The columns themselves may be the pairs of bytes. -/
theorem milestones_number {base : Nat} {sign : Int} {digit : UInt8 → Nat}
    {code : UInt8 × UInt8 → List AccumulatorCode} (columns : List (UInt8 × UInt8))
    (right : ∀ column ∈ columns, Adds base sign digit column (code column)) (cpu : Cpu) :
    let cores := cpu.milestones (columns.map code)
    let number (bytes : List UInt8) : Int := (Nat.ofDigits base (bytes.map digit) : Nat)
    number (cores.map (·.regs.a)) +
        sign * ((cores.getLastD cpu).regs.f.c.toNat * base ^ columns.length : Nat) =
      number (columns.map Prod.fst) +
        sign * (number (columns.map Prod.snd) + cpu.regs.f.c.toNat) :=
  milestones_total columns right cpu

end Cpu

end Sm83
