import Sm83.Proofs.Decode.Filled
import Sm83.Proofs.Location

/-!
# The flags that an instruction reads

Few instructions look at the flags that they find, and most of those at the carry alone
(`Instruction.flagsRead`). Two cores that differ in flags that an instruction does not read run it
alike: the accesses, the registers and the control state are the same, and so are the flags, but for
those that the instruction does not affect (`execute_withFlags`, `execute_flags_alike`).
-/

namespace Sm83

open BusM

/-- The flag that a branch tests; none without a condition. -/
def Condition.flagsRead : Option Condition → Flags
  | none => {}
  | some .nz | some .z => { z := true }
  | some .nc | some .c => { c := true }

/-- The flags that an instruction reads before it writes any. -/
def Instruction.flagsRead {α β ω : Type} : Instruction α β ω → Flags
  | .alu .adc _ | .alu .sbc _ | .ccf => { c := true }
  | .rotateA .left | .rotateA .right => { c := true }
  | .shift (.rotate .left) _ | .shift (.rotate .right) _ => { c := true }
  | .jump condition _ | .jumpRelative condition _ | .call condition _ | .ret condition =>
      Condition.flagsRead condition
  | .daa => { n := true, h := true, c := true }
  | .push .af => { z := true, n := true, h := true, c := true }
  | _ => {}

/-- The values of all flags in the set are the same. -/
def Flags.Agree (set f f' : Flags) : Prop :=
  ∀ which : Flag, which.get set = true → which.get f' = which.get f

def FlagPolicy.effect (policy : FlagPolicy) : Flag → FlagEffect
  | .z => policy.z
  | .n => policy.n
  | .h => policy.h
  | .c => policy.c

def FlagEffect.refresh (effect : FlagEffect) (before after : Bool) : Bool :=
  match effect with
  | unaffected => before
  | reset | set | computed => after

/-- The flags after an instruction, had those that it does not affect been others before it. -/
def FlagPolicy.refresh (policy : FlagPolicy) (before after : Flags) : Flags where
  z := policy.z.refresh before.z after.z
  n := policy.n.refresh before.n after.n
  h := policy.h.refresh before.h after.h
  c := policy.c.refresh before.c after.c

theorem FlagPolicy.get_refresh_of_affected {policy : FlagPolicy} {which : Flag}
    (affected : policy.effect which ≠ .unaffected) (before after : Flags) :
    which.get (policy.refresh before after) = which.get after := by
  have single : which.get (policy.refresh before after) =
      (policy.effect which).refresh (which.get before) (which.get after) := by
    cases which <;> rfl
  rw [single]
  cases effect : policy.effect which with
  | unaffected => exact (affected effect).elim
  | _ => rfl

theorem FlagPolicy.get_apply (policy : FlagPolicy) (before computed : Flags) (which : Flag) :
    which.get (policy.apply before computed) =
      (policy.effect which).apply (which.get before) (which.get computed) := by
  cases which <;> rfl

def Registers.withFlags (regs : Registers) (f : Flags) : Registers :=
  { regs with f }

def Cpu.withFlags (cpu : Cpu) (f : Flags) : Cpu :=
  { cpu with regs := cpu.regs.withFlags f }

def WordPlace.sparesFlags {α : Type} : WordPlace α → Bool
  | .reg r => r != .af
  | .memory _ => true

def WordSource.sparesFlags {ω : Type} : WordSource ω → Bool
  | .reg r => r != .af
  | .literal _ => true

/-- AF is named only to be pushed or popped. -/
def Instruction.sparesFlags {α β ω : Type} : Instruction α β ω → Bool
  | .load16 dst src => dst.sparesFlags && src.sparesFlags
  | .addHl src => src != .af
  | .adjust16 _ target => target != .af
  | .jump _ target => target.sparesFlags
  | _ => true

/-! ### Where the flags play no part -/

section

variable (regs : Registers) (f : Flags)

theorem Registers.get8_withFlags (r : Reg8) : (regs.withFlags f).get8 r = regs.get8 r := by
  cases r <;> rfl

theorem Registers.set8_withFlags (r : Reg8) (value : UInt8) :
    (regs.withFlags f).set8 r value = (regs.set8 r value).withFlags f := by
  cases r <;> rfl

theorem Registers.get16_withFlags {r : Reg16} (other : r ≠ .af) :
    (regs.withFlags f).get16 r = regs.get16 r := by
  cases r with
  | af => exact (other rfl).elim
  | _ => rfl

theorem Registers.set16_withFlags {r : Reg16} (other : r ≠ .af) (value : UInt16) :
    (regs.withFlags f).set16 r value = (regs.set16 r value).withFlags f := by
  cases r with
  | af => exact (other rfl).elim
  | _ => rfl

theorem Place.read_withFlags (p : Place UInt16) : p.read (regs.withFlags f) = p.read regs := by
  cases p with
  | reg r => exact congrArg Pure.pure (regs.get8_withFlags f r)
  | memory address => rfl

theorem Place.write_withFlags (p : Place UInt16) (value : UInt8) :
    p.write (regs.withFlags f) value = (·.withFlags f) <$> p.write regs value := by
  cases p with
  | reg r => exact congrArg Pure.pure (regs.set8_withFlags f r value)
  | memory address => rfl

theorem WordPlace.write_withFlags {dst : WordPlace UInt16} (spared : dst.sparesFlags = true)
    (value : UInt16) :
    dst.write (regs.withFlags f) value = (·.withFlags f) <$> dst.write regs value := by
  cases dst with
  | reg r => exact congrArg Pure.pure (regs.set16_withFlags f (bne_iff_ne.mp spared) value)
  | memory address => rfl

theorem WordSource.value_withFlags {src : WordSource UInt16} (spared : src.sparesFlags = true) :
    src.value (regs.withFlags f) = src.value regs := by
  cases src with
  | reg r => exact regs.get16_withFlags f (bne_iff_ne.mp spared)
  | literal value => rfl

theorem Registers.takes_withFlags {condition : Option Condition}
    (agree : (Condition.flagsRead condition).Agree regs.f f) :
    (regs.withFlags f).takes condition = regs.takes condition := by
  have carry (reads : (Condition.flagsRead condition).c = true) : f.c = regs.f.c := agree .c reads
  have zero (reads : (Condition.flagsRead condition).z = true) : f.z = regs.f.z := agree .z reads
  rcases condition with _ | _ | _ | _ | _
  case none => rfl
  case some.nz => exact congrArg not (zero rfl)
  case some.z => exact zero rfl
  case some.nc => exact congrArg not (carry rfl)
  case some.c => exact carry rfl

theorem Source.read_withFlags (src : Source UInt16 UInt8) :
    src.read (regs.withFlags f) = src.read regs := by
  cases src with
  | place p => exact p.read_withFlags regs f
  | literal value => rfl

end

/-! ### One operation -/

namespace Operation

/-- The registers that the operation leaves, its flag policy applied. -/
def leave (operation : Operation) (regs : Registers) : BusM Registers :=
  (fun after => after.withFlags (operation.policy.apply regs.f after.f)) <$> operation.act regs

/-- The core with these registers once the operation has changed the control state. -/
def finish (operation : Operation) (cpu : Cpu) (regs : Registers) : Cpu :=
  let cpu := operation.control { cpu with regs }
  { cpu with interrupts := cpu.interrupts.advance }

theorem execute_eq (operation : Operation) (cpu : Cpu) :
    operation.execute cpu = operation.finish cpu <$> operation.leave cpu.regs := by
  rw [execute, leave, Functor.map_map]
  rfl

theorem finish_withFlags (operation : Operation) (cpu : Cpu) (regs : Registers) (f : Flags) :
    operation.finish cpu (regs.withFlags f) = (operation.finish cpu regs).withFlags f := by
  cases operation <;> rfl

theorem regs_finish (operation : Operation) (cpu : Cpu) (regs : Registers) :
    (operation.finish cpu regs).regs = regs :=
  operation.regs_control _

theorem leave_withFlags {operation : Operation} (spared : operation.sparesFlags = true)
    {regs : Registers} {f : Flags} (agree : operation.flagsRead.Agree regs.f f) :
    operation.leave (regs.withFlags f) =
      (fun after => after.withFlags (operation.policy.refresh f after.f)) <$>
        operation.leave regs := by
  cases operation
  case load dst src =>
    simp only [leave, act, Source.read_withFlags, Place.write_withFlags, map_bind, Functor.map_map]
    rfl
  case loadAdjust adjustment dst src =>
    simp only [leave, act, Source.read_withFlags, Place.write_withFlags, map_bind, bind_map_left,
      Functor.map_map]
    rfl
  case load16 dst src =>
    obtain ⟨dst_spared, src_spared⟩ := Bool.and_eq_true_iff.mp spared
    simp only [leave, act, WordSource.value_withFlags regs f src_spared,
      WordPlace.write_withFlags regs f dst_spared, Functor.map_map]
    rfl
  case push pair =>
    cases pair with
    | af =>
      obtain rfl : f = regs.f := Flag.eq_of_get fun which => agree which (by cases which <;> rfl)
      rfl
    | _ => rfl
  case pop pair =>
    cases pair <;> rfl
  case alu op src =>
    simp only [leave, act, Source.read_withFlags, map_bind, Functor.map_map]
    cases op
    case adc | sbc =>
      have carry : f.c = regs.f.c := agree .c rfl
      simp only [Registers.withFlags, carry]
      rfl
    all_goals rfl
  case addHl src =>
    simp only [leave, act, regs.get16_withFlags f (bne_iff_ne.mp spared)]
    rfl
  case adjust adjustment target =>
    simp only [leave, act, Place.read_withFlags, Place.write_withFlags, map_bind, bind_map_left,
      Functor.map_map]
    cases adjustment <;> rfl
  case adjust16 adjustment target =>
    have other := bne_iff_ne.mp spared
    simp only [leave, act, regs.get16_withFlags f other, regs.set16_withFlags f other]
    rfl
  case daa =>
    have rest : f = { regs.f with z := f.z } := by
      refine Flag.eq_of_get fun which => ?_
      cases which with
      | z => rfl
      | n => exact agree .n rfl
      | h => exact agree .h rfl
      | c => exact agree .c rfl
    rw [rest]
    rfl
  case ccf =>
    have carry : f.c = regs.f.c := agree .c rfl
    simp only [leave, act, Registers.withFlags, carry]
    rfl
  case rotateA rotation =>
    cases rotation
    case left | right =>
      have carry : f.c = regs.f.c := agree .c rfl
      simp only [leave, act, Registers.withFlags, carry]
      rfl
    all_goals rfl
  case shift op target =>
    simp only [leave, act, Place.read_withFlags, Place.write_withFlags, map_bind, bind_map_left,
      Functor.map_map]
    rcases op with rotation | _ | _ | _ | _
    case rotate =>
      cases rotation
      case left | right =>
        have carry : f.c = regs.f.c := agree .c rfl
        simp only [Registers.withFlags, carry]
        rfl
      all_goals rfl
    all_goals rfl
  case testBit index target =>
    simp only [leave, act, Place.read_withFlags, map_bind, Functor.map_map]
    rfl
  case resetBit index target | setBit index target =>
    simp only [leave, act, Place.read_withFlags, Place.write_withFlags, map_bind, Functor.map_map]
    rfl
  case jump condition target =>
    simp only [leave, act, regs.takes_withFlags f agree, WordSource.value_withFlags regs f spared]
    split <;> rfl
  case jumpRelative condition offset =>
    simp only [leave, act, regs.takes_withFlags f agree]
    split <;> rfl
  case call condition target =>
    simp only [leave, act, regs.takes_withFlags f agree]
    split <;> rfl
  case ret condition =>
    simp only [leave, act, regs.takes_withFlags f agree]
    split <;> rfl
  all_goals rfl

/-- Where the flags that are read agree, an operation makes the same accesses and leaves the same core,
but for the flags that it does not affect. -/
theorem execute_withFlags {operation : Operation} (spared : operation.sparesFlags = true) {cpu : Cpu}
    {f : Flags} (agree : operation.flagsRead.Agree cpu.regs.f f) :
    operation.execute (cpu.withFlags f) =
      (fun after => after.withFlags (operation.policy.refresh f after.regs.f)) <$>
        operation.execute cpu := by
  have left : operation.leave (cpu.withFlags f).regs = _ := leave_withFlags spared agree
  rw [execute_eq, execute_eq, left, Functor.map_map, Functor.map_map]
  refine congrArg (· <$> operation.leave cpu.regs) (funext fun after => ?_)
  rw [finish_withFlags, regs_finish]
  rfl

/-- Where no flag is read and every flag is affected, it is no matter which flags were there. -/
theorem execute_withFlags_of_deaf {operation : Operation} (spared : operation.sparesFlags = true)
    (deaf : operation.flagsRead = {})
    (affected : ∀ which : Flag, operation.policy.effect which ≠ .unaffected) (cpu : Cpu) (f : Flags) :
    operation.execute (cpu.withFlags f) = operation.execute cpu := by
  have agree : operation.flagsRead.Agree cpu.regs.f f := by
    rw [deaf]
    exact fun which reads => by cases which <;> cases reads
  have same (after : Flags) : operation.policy.refresh f after = after :=
    Flag.eq_of_get fun which => FlagPolicy.get_refresh_of_affected (affected which) f after
  rw [execute_withFlags spared agree]
  simp only [same]
  exact id_map _

/-- A flag that the operation does not affect is what it was. -/
theorem get_execute_of_unaffected {σ : Type} [Bus σ] (operation : Operation) (cpu : Cpu) (bus : σ)
    {which : Flag} (spared : operation.policy.effect which = .unaffected) :
    which.get ((operation.execute cpu).run bus).1.regs.f = which.get cpu.regs.f := by
  rw [execute, run_map]
  dsimp only
  rw [regs_settle, FlagPolicy.get_apply, spared]
  rfl

end Operation

/-! ### What is decoded -/

namespace Form

theorem sparesFlags_fill (regs : Registers) (literals : List UInt8) (form : Form) :
    (form.fill regs literals).sparesFlags = form.sparesFlags := by
  cases form
  case load16 dst src => cases dst <;> cases src <;> rfl
  case jump condition target => cases target <;> rfl
  all_goals rfl

theorem flagsRead_fill (regs : Registers) (literals : List UInt8) (form : Form) :
    (form.fill regs literals).flagsRead = form.flagsRead := by
  cases form
  case push pair => cases pair <;> rfl
  case alu op src => cases op <;> rfl
  case rotateA rotation => cases rotation <;> rfl
  case shift op target =>
    rcases op with rotation | _ | _ | _ | _
    case rotate => cases rotation <;> rfl
    all_goals rfl
  all_goals rfl

theorem policy_fill (regs : Registers) (literals : List UInt8) (form : Form) :
    (form.fill regs literals).policy = form.policy := by
  cases form
  case pop pair => cases pair <;> rfl
  case shift op target => cases op <;> rfl
  all_goals rfl

end Form

theorem Entry.sparesFlags_of_mem {opcode : Opcode} {entry : Entry} (h : entry ∈ ofOpcode? opcode) :
    entry.form.sparesFlags = true :=
  forall_of_all (by decide +kernel) (by decide +kernel) h

/-- Two cores that differ in flags only execute what was decoded alike if the flags agree that the
instruction reads. The bus is left the same, and so are the registers, the control state and each
flag that the instruction affects, while a flag that it does not affect keeps its own value. -/
theorem Decoded.execute_flags_alike {σ : Type} [Bus σ] {decoded : Decoded}
    (arises : decoded.Arises) (cpu : Cpu) (bus : σ) {f : Flags}
    (agree : decoded.entry.form.flagsRead.Agree cpu.regs.f f) :
    let r := (decoded.operation.execute cpu).run bus
    let r' := (decoded.operation.execute (cpu.withFlags f)).run bus
    r'.2 = r.2 ∧ (∃ left, r'.1 = r.1.withFlags left) ∧
    ∀ which : Flag,
      (decoded.entry.form.policy.effect which ≠ .unaffected →
        which.get r'.1.regs.f = which.get r.1.regs.f) ∧
      (decoded.entry.form.policy.effect which = .unaffected →
        which.get r.1.regs.f = which.get cpu.regs.f ∧ which.get r'.1.regs.f = which.get f) := by
  intro r r'
  obtain ⟨listed, regs, literals, filled⟩ := arises.filled
  have spared : decoded.operation.sparesFlags = true := by
    rw [filled, Form.sparesFlags_fill]
    exact Entry.sparesFlags_of_mem listed
  have policy : decoded.entry.form.policy = decoded.operation.policy := by
    rw [filled, Form.policy_fill]
  rw [← Form.flagsRead_fill regs literals, ← filled] at agree
  have second : r' = (r.1.withFlags (decoded.operation.policy.refresh f r.1.regs.f), r.2) := by
    rw [show r' = _ from congrArg (run · bus) (Operation.execute_withFlags spared agree), run_map]
  obtain ⟨core, behind⟩ := Prod.mk.inj second
  refine ⟨behind, ⟨_, core⟩, fun which => ?_⟩
  rw [policy]
  constructor
  · intro affected
    rw [core]
    exact FlagPolicy.get_refresh_of_affected affected _ _
  · intro unaffected
    exact ⟨decoded.operation.get_execute_of_unaffected cpu bus unaffected,
      decoded.operation.get_execute_of_unaffected (cpu.withFlags f) bus unaffected⟩

/-- `CCF` reads the carry, clears N and H whatever they were, and hands Z through. -/
theorem Decoded.execute_flags_alike_of_ccf :
    let decoded : Decoded := { entry := ⟨.plain 0x3F, .ccf⟩, operation := .ccf, pc := 0x0100 }
    let cpu : Cpu := { regs := { f := { n := true, c := true }, pc := 0x0101 } }
    let f : Flags := { z := true, h := true, c := true }
    let r := (decoded.operation.execute cpu).run Memory.zero
    let r' := (decoded.operation.execute (cpu.withFlags f)).run Memory.zero
    decoded.Arises ∧ decoded.entry.form.flagsRead.Agree cpu.regs.f f ∧
    r'.2 = r.2 ∧ r'.1.regs.f.n = r.1.regs.f.n ∧ r'.1.regs.f.h = r.1.regs.f.h ∧
    r'.1.regs.f.c = r.1.regs.f.c ∧ r.1.regs.f.z = false ∧ r'.1.regs.f.z = true := by
  intro decoded cpu f r r'
  let encoded : Encoded :=
    { entry := ⟨.plain 0x3F, .ccf⟩, literals := []
      listed := (Entry.mem_all_iff _).mpr rfl, complete := rfl }
  have arises : decoded.Arises := encoded.arises { pc := 0x0100 }
  have agree : decoded.entry.form.flagsRead.Agree cpu.regs.f f := by
    intro which reads
    cases which with
    | c => rfl
    | _ => cases reads
  obtain ⟨bus, -, flags⟩ := decoded.execute_flags_alike arises cpu Memory.zero agree
  obtain ⟨zero, zero'⟩ := (flags .z).2 rfl
  exact ⟨arises, agree, bus, (flags .n).1 nofun, (flags .h).1 nofun, (flags .c).1 nofun, zero, zero'⟩

end Sm83
