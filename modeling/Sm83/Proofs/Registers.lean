import Sm83.Proofs.Arithmetic.Bits
import Sm83.Proofs.Location

/-!
# Two views of the register file

Registers can be written one byte at a time, a word at a time, and flag by flag, in any order. A write
gives values to some of the locations that the register file is made of and leaves the others alone.
So after any writes each of these locations has the value that was given to it last, and the words are
read from them (`writes_leave_last`).
-/

namespace Sm83

namespace Flag

/-- The bit of F that holds the flag. -/
def position : Flag → Nat
  | z => 7
  | n => 6
  | h => 5
  | c => 4

theorem get_ofByte (which : Flag) (b : UInt8) :
    which.get (.ofByte b) = b.toNat.testBit which.position := by
  cases which with
  | z => exact Byte.and_mask_ne_zero_eq b 7
  | n => exact Byte.and_mask_ne_zero_eq b 6
  | h => exact Byte.and_mask_ne_zero_eq b 5
  | c => exact Byte.and_mask_ne_zero_eq b 4

theorem get_assign (which : Flag) (f set : Flags) (value : Bool) :
    which.get (f.assign set value) = if which.get set then value else which.get f := by
  cases which <;> rfl

end Flag

/-- The registers that hold the high and the low byte of a pair. The low byte of AF is the flags. -/
def Reg16.high? : Reg16 → Option Reg8
  | af => some .a
  | bc => some .b
  | de => some .d
  | hl => some .h
  | sp | pc => none

def Reg16.low? : Reg16 → Option Reg8
  | bc => some .c
  | de => some .e
  | hl => some .l
  | af | sp | pc => none

namespace Registers

inductive Write where
  | byte (r : Reg8) (value : UInt8)
  | word (r : Reg16) (value : UInt16)
  | flags (set : Flags) (value : Bool)
  | clearFlags
  deriving DecidableEq

def apply (regs : Registers) : Write → Registers
  | .byte r value => regs.set8 r value
  | .word r value => regs.set16 r value
  | .flags set value => { regs with f := regs.f.assign set value }
  | .clearFlags => { regs with f := {} }

def applyAll (regs : Registers) (writes : List Write) : Registers :=
  writes.foldl apply regs

namespace Write

/-- The value that the write gives to a byte register, directly or as half of a pair. -/
def toReg8 (r : Reg8) : Write → Option UInt8
  | byte written value => if written = r then some value else none
  | word pair value =>
      if pair.high? = some r then some (Word.high value)
      else if pair.low? = some r then some (Word.low value)
      else none
  | flags _ _ | clearFlags => none

/-- The value that the write gives to a flag. A word written to AF has the flags in its low byte. -/
def toFlag (which : Flag) : Write → Option Bool
  | byte _ _ => none
  | word pair value =>
      if pair = .af then some ((Word.low value).toNat.testBit which.position) else none
  | flags set value => if which.get set then some value else none
  | clearFlags => some false

/-- The value that the write gives to a word register as a whole. -/
def toReg16 (r : Reg16) : Write → Option UInt16
  | word written value => if written = r then some value else none
  | byte _ _ | flags _ _ | clearFlags => none

/-- The locations that the write names. -/
def locations : Write → List Location
  | byte r _ => [.reg r]
  | word r value => (r.parts value).map Prod.fst
  | flags set _ => (Flag.all.filter (·.get set)).map .flag
  | clearFlags => Flag.all.map .flag

end Write

variable (regs : Registers)

/-! ### One write -/

theorem get8_apply (r : Reg8) (write : Write) :
    (regs.apply write).get8 r = (write.toReg8 r).getD (regs.get8 r) := by
  cases write with
  | byte written value =>
    rw [apply, get8_set8, Write.toReg8]
    by_cases same : r = written <;> simp [same, eq_comm]
  | word pair value => cases pair <;> cases r <;> rfl
  | flags set value => rfl
  | clearFlags => rfl

theorem get_f_apply (which : Flag) (write : Write) :
    which.get (regs.apply write).f = (write.toFlag which).getD (which.get regs.f) := by
  cases write with
  | byte written value => cases written <;> rfl
  | word pair value =>
    cases pair with
    | af => exact which.get_ofByte (Word.low value)
    | _ => rfl
  | flags set value =>
    rw [apply, Flag.get_assign, Write.toFlag]
    cases which.get set <;> rfl
  | clearFlags => cases which <;> rfl

theorem sp_apply (write : Write) :
    (regs.apply write).sp = (write.toReg16 .sp).getD regs.sp := by
  cases write with
  | byte written value => cases written <;> rfl
  | word written value => cases written <;> rfl
  | _ => rfl

theorem pc_apply (write : Write) :
    (regs.apply write).pc = (write.toReg16 .pc).getD regs.pc := by
  cases write with
  | byte written value => cases written <;> rfl
  | word written value => cases written <;> rfl
  | _ => rfl

theorem content_apply (m : Memory) {write : Write} {location : Location}
    (unnamed : location ∉ write.locations) :
    location.content (regs.apply write) m = location.content regs m := by
  cases write with
  | byte r value => exact (stored_set8 regs m r value).content_eq unnamed
  | word r value => exact (stored_set16 regs m r value).content_eq unnamed
  | flags set value =>
    refine (stored_assign regs m set value).content_eq ?_
    rwa [List.map_map]
  | clearFlags =>
    have cleared : regs.f.assign { z := true, n := true, h := true, c := true } false = {} := rfl
    have stored := stored_assign regs m { z := true, n := true, h := true, c := true } false
    rw [cleared] at stored
    exact stored.content_eq unnamed

/-! ### Writes one after the other -/

/-- Where every write gives a value or none, the last value given is the one that is read. -/
theorem view_applyAll {α : Type} (view : Registers → α) {given : Write → Option α}
    (step : ∀ (regs : Registers) (write : Write),
      view (regs.apply write) = (given write).getD (view regs)) (writes : List Write) :
    view (regs.applyAll writes) = (writes.filterMap given).getLastD (view regs) := by
  induction writes generalizing regs with
  | nil => rfl
  | cons write rest ih =>
    change view ((regs.apply write).applyAll rest) = _
    rw [ih, step, List.filterMap_cons]
    cases given write with
    | none => rfl
    | some value => exact List.getLastD_cons.symm

theorem content_applyAll (m : Memory) {writes : List Write} {location : Location}
    (unnamed : ∀ write ∈ writes, location ∉ write.locations) :
    location.content (regs.applyAll writes) m = location.content regs m := by
  induction writes generalizing regs with
  | nil => rfl
  | cons write rest ih =>
    obtain ⟨first, others⟩ := List.forall_mem_cons.mp unnamed
    exact (ih (regs.apply write) others).trans (regs.content_apply m first)

/-! ### Words read from their parts -/

theorem toNat_toByte (f : Flags) :
    f.toByte.toNat = 128 * f.z.toNat + 64 * f.n.toNat + 32 * f.h.toNat + 16 * f.c.toNat := by
  rcases f with ⟨_ | _, _ | _, _ | _, _ | _⟩ <;> rfl

theorem toNat_get16_of_halves {pair : Reg16} {high low : Reg8} (upper : pair.high? = some high)
    (lower : pair.low? = some low) :
    (regs.get16 pair).toNat = 256 * (regs.get8 high).toNat + (regs.get8 low).toNat := by
  cases pair <;> cases upper <;> cases lower <;> exact Word.toNat_join _ _

theorem toNat_get16_af :
    (regs.get16 .af).toNat = 256 * regs.a.toNat +
      (128 * regs.f.z.toNat + 64 * regs.f.n.toNat + 32 * regs.f.h.toNat + 16 * regs.f.c.toNat) := by
  rw [get16, Word.toNat_join, toNat_toByte]

/-- After any writes, each byte register, each flag, SP and PC have the value that was given to them
last, be it directly, as half of a pair or in a set of flags, and what they had before if none was.
The pairs are read from their halves, and AF from A and the flags, with a low nibble of zero. What no
write names stays as it was. -/
theorem writes_leave_last (writes : List Write) :
    let after := regs.applyAll writes
    (∀ r : Reg8, after.get8 r = (writes.filterMap (Write.toReg8 r)).getLastD (regs.get8 r)) ∧
    (∀ which : Flag,
      which.get after.f = (writes.filterMap (Write.toFlag which)).getLastD (which.get regs.f)) ∧
    after.get16 .sp = (writes.filterMap (Write.toReg16 .sp)).getLastD (regs.get16 .sp) ∧
    after.get16 .pc = (writes.filterMap (Write.toReg16 .pc)).getLastD (regs.get16 .pc) ∧
    (after.get16 .bc).toNat = 256 * (after.get8 .b).toNat + (after.get8 .c).toNat ∧
    (after.get16 .de).toNat = 256 * (after.get8 .d).toNat + (after.get8 .e).toNat ∧
    (after.get16 .hl).toNat = 256 * (after.get8 .h).toNat + (after.get8 .l).toNat ∧
    (after.get16 .af).toNat = 256 * (after.get8 .a).toNat +
      (128 * after.f.z.toNat + 64 * after.f.n.toNat + 32 * after.f.h.toNat + 16 * after.f.c.toNat) ∧
    (after.get16 .af).toNat % 16 = 0 ∧
    ∀ (location : Location) (m : Memory), (∀ write ∈ writes, location ∉ write.locations) →
      location.content after m = location.content regs m := by
  intro after
  have af := after.toNat_get16_af
  refine ⟨fun r => regs.view_applyAll (·.get8 r) (fun regs => regs.get8_apply r) writes,
    fun which => regs.view_applyAll (which.get ·.f) (fun regs => regs.get_f_apply which) writes,
    regs.view_applyAll sp sp_apply writes, regs.view_applyAll pc pc_apply writes,
    after.toNat_get16_of_halves rfl rfl, after.toNat_get16_of_halves rfl rfl,
    after.toNat_get16_of_halves rfl rfl, af, by omega,
    fun location m unnamed => regs.content_applyAll m unnamed⟩

/-- A pair and its halves are written over one another, and so are AF and single flags. -/
theorem writes_leave_last_of_overlaps :
    let regs : Registers := { c := 0x11, d := 0x77 }
    let writes : List Write :=
      [.byte .b 0x34, .word .af 0x12FF, .word .bc 0x5678, .flags { z := true, c := true } false,
        .byte .c 0x9A]
    let after := regs.applyAll writes
    after.get8 .b = 0x56 ∧ after.get8 .c = 0x9A ∧ after.f = { n := true, h := true } ∧
    (after.get16 .bc).toNat = 0x569A ∧ (after.get16 .af).toNat = 0x1260 ∧
    (∀ write ∈ writes, .reg .d ∉ write.locations) ∧ after.d = 0x77 := by
  intro regs writes after
  obtain ⟨bytes, flags, -, -, bc, -, -, af, -, others⟩ := regs.writes_leave_last writes
  have a : after.get8 .a = 0x12 := bytes .a
  have b : after.get8 .b = 0x56 := bytes .b
  have c : after.get8 .c = 0x9A := bytes .c
  have f : after.f = { n := true, h := true } :=
    Flag.eq_of_get fun which => (flags which).trans (by cases which <;> rfl)
  have unnamed : ∀ write ∈ writes, .reg .d ∉ write.locations := by decide
  refine ⟨b, c, f, bc.trans ?_, af.trans ?_, unnamed, ?_⟩
  · rw [show regs.applyAll writes = after from rfl, b, c]
    rfl
  · rw [show regs.applyAll writes = after from rfl, a, f]
    rfl
  · exact Content.byte.inj (others (.reg .d) .zero unnamed)

end Registers

end Sm83
