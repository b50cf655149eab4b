import Sm83.Proofs.Conformance.Verdict

/-!
# Presets that can be observed

Presets may write over one another, as a pair does over its halves and one block of memory over
another. What is left of them shows in a case that executes `NOP`: a preset whose locations no later
one writes holds after the step, unless it says what no machine can have (`surviving_presets_hold`).
-/

namespace Sm83

theorem cell_mem_cellsOf {address : UInt16} {bytes : List UInt8} {i : Nat} (h : i < bytes.length) :
    .cell (address + i.toUInt16) ∈ (cellsOf address bytes).map Prod.fst := by
  induction bytes generalizing address i with
  | nil => cases h
  | cons byte rest ih =>
    rw [cellsOf, List.map_append, List.mem_append]
    cases i with
    | zero => exact .inr (by simp)
    | succ i =>
      have later : .cell (address + 1 + i.toUInt16) ∈ (cellsOf (address + 1) rest).map Prod.fst :=
        ih (Nat.lt_of_succ_lt_succ h)
      rw [Nat.add_comm i 1, address_add address 1 i]
      exact .inl later

namespace Conformance

namespace Field

/-- Whether a field holds is seen in its locations. -/
theorem holds_congr {field : Field} {machine machine' : Machine}
    (same : ∀ location ∈ field.locations,
      location.content machine.cpu.regs machine.memory =
        location.content machine'.cpu.regs machine'.memory) :
    field.Holds machine ↔ field.Holds machine' := by
  cases field with
  | reg8 r value =>
    have equal := same (.reg r) (by simp [locations, stores])
    rw [Holds, Holds, Content.byte.inj equal]
  | reg16 r value => rw [Holds, Holds, Registers.get16_congr same]
  | flag set value =>
    have equal (which : Flag) (inside : which.get set = true) :
        which.get machine.cpu.regs.f = which.get machine'.cpu.regs.f := by
      have there : .flag which ∈ (flag set value).locations := by
        simp [locations, stores, Flag.all, inside]
        cases which <;> simp
      exact Content.bit.inj (same _ there)
    have z := equal .z
    have n := equal .n
    have h := equal .h
    have c := equal .c
    simp only [Flag.get] at z n h c
    simp +contextual only [Holds, Flags.Includes, z, n, h, c]
  | memory address bytes =>
    have equal (i : Nat) (h : i < bytes.length) :
        machine.memory.read (address + i.toUInt16) = machine'.memory.read (address + i.toUInt16) :=
      Content.byte.inj (same _ (cell_mem_cellsOf h))
    simp +contextual only [Holds, equal]

theorem content_foldl_apply (fields : List Field) (machine : Machine) {location : Location}
    (apart : ∀ field ∈ fields, location ∉ field.locations) :
    let last := fields.foldl (fun machine field => field.apply machine) machine
    location.content last.cpu.regs last.memory =
      location.content machine.cpu.regs machine.memory := by
  refine (stored_foldl_apply fields machine).content_eq ?_
  rw [List.map_flatMap, List.mem_flatMap]
  rintro ⟨field, there, inside⟩
  exact apart field (List.mem_reverse.mp there) inside

/-- The low nibble of AF is always zero, and the flags of the empty set are always up. -/
def Attainable (field : Field) : Prop :=
  (∀ value, field = reg16 .af value → value.toNat % 16 = 0) ∧ field ≠ flag {} false

/-- The field is put in place, and nothing after it writes where it does. -/
def SurvivesIn (field : Field) (presets : List Field) : Prop :=
  ∃ earlier later, presets = earlier ++ field :: later ∧
    ∀ other ∈ later, ∀ location ∈ field.locations, location ∉ other.locations

theorem length_le_of_apart {address origin : UInt16} {bytes : List UInt8}
    (apart : .cell origin ∉ (memory address bytes).locations) : bytes.length ≤ 0x10000 := by
  refine Nat.le_of_not_lt fun long => ?_
  have inside : (origin - address).toNat < bytes.length := by
    have bound := (origin - address).toNat_lt
    omega
  have there : .cell _ ∈ (memory address bytes).locations := cell_mem_cellsOf inside
  rw [show (origin - address).toNat.toUInt16 = origin - address from UInt16.ofNat_toNat,
    UInt16.add_comm, UInt16.sub_add_cancel] at there
  exact apart there

theorem get16_set16_af_eq_iff (regs : Registers) (value : UInt16) :
    (regs.set16 .af value).get16 .af = value ↔ value.toNat % 16 = 0 := by
  have upper : ∀ b : UInt8, b &&& 0xF0 = b ↔ b.toNat % 16 = 0 :=
    Byte.forall_of_lt (by decide +kernel)
  have low : value.toNat % 16 = (Word.low value).toNat % 16 := by
    rw [Word.toNat_low]
    omega
  rw [Registers.get16_set16_af, low, ← upper]
  constructor
  · intro same
    have halves := congrArg Word.low same
    rwa [Word.low_join] at halves
  · intro same
    rw [same, Word.join_high_low]

theorem includes_assign_iff (f set : Flags) (value : Bool) :
    ((f.assign set value).Includes set ↔ value = true) ↔ ¬(set = {} ∧ value = false) := by
  rcases set with ⟨_ | _, _ | _, _ | _, _ | _⟩ <;>
    cases value <;> simp [Flags.Includes, Flags.assign]

theorem holds_apply_iff {field : Field} (machine : Machine)
    (fits : ∀ address bytes, field = memory address bytes → bytes.length ≤ 0x10000) :
    field.Holds (field.apply machine) ↔ field.Attainable := by
  cases field with
  | reg8 r value => simp [Holds, apply, Attainable]
  | reg16 r value =>
    by_cases af : r = .af
    · subst af
      simp [Holds, apply, Attainable, get16_set16_af_eq_iff]
    · simp [Holds, apply, Attainable, Registers.get16_set16_self _ value af, af]
  | flag set value =>
    have attainable : (flag set value).Attainable ↔ ¬(set = {} ∧ value = false) := by
      simp [Attainable]
    rw [attainable]
    exact includes_assign_iff machine.cpu.regs.f set value
  | memory address bytes =>
    have laid := machine.memory.block_load address bytes (fits address bytes rfl)
    rw [Memory.block_eq_iff] at laid
    exact iff_of_true laid (by simp [Attainable])

end Field

/-! ### A case that does nothing -/

def nopCase (name : String) (origin : UInt16) (presets expectations : List Field) : Case :=
  { name, opcode := [0x00], presets, expectations, origin }

/-- The presets leave the instruction and PC alone. -/
def Spared (origin : UInt16) (presets : List Field) : Prop :=
  ∀ field ∈ presets, .pc ∉ field.locations ∧ .cell origin ∉ field.locations

variable (name : String) {origin : UInt16} {presets : List Field} (expectations : List Field)

theorem start_nopCase (spared : Spared origin presets) :
    let start := (nopCase name origin presets expectations).start
    start.cpu.regs.pc = origin ∧ start.memory.read origin = 0x00 := by
  intro start
  have pc := Field.content_foldl_apply presets
    { cpu.regs.pc := origin, memory := Memory.zero.load origin [0x00] }
    fun field there => (spared field there).1
  have opcode := Field.content_foldl_apply presets
    { cpu.regs.pc := origin, memory := Memory.zero.load origin [0x00] }
    fun field there => (spared field there).2
  exact ⟨Content.word.inj pc,
    (Content.byte.inj opcode).trans (Memory.zero.read_write_self origin 0x00)⟩

theorem run_step_nopCase (spared : Spared origin presets) :
    let case := nopCase name origin presets expectations
    let nop : Entry := ⟨.plain 0x00, .nop⟩
    (case.start.cpu.step.run case.start.memory).1.1 = .executed nop ∧
      case.after.cpu.regs = { case.start.cpu.regs with pc := origin + 1 } ∧
      case.after.memory = case.start.memory := by
  intro case nop
  obtain ⟨pc, opcode⟩ := start_nopCase name expectations spared
  have found : Entry.ofOpcode? (case.start.memory.opcodeAt case.start.cpu.regs.pc) = some nop := by
    rw [show case.start.cpu.regs.pc = origin from pc]
    exact Memory.found_of_read opcode rfl
  have step := case.start.cpu.run_step case.start.memory case.start_running found
  rw [Case.after, step]
  refine ⟨rfl, ?_, rfl⟩
  rw [← pc]
  rfl

theorem content_after_nopCase (spared : Spared origin presets) {location : Location}
    (other : location ≠ .pc) :
    let case := nopCase name origin presets expectations
    location.content case.after.cpu.regs case.after.memory =
      location.content case.start.cpu.regs case.start.memory := by
  intro case
  obtain ⟨-, regs, memory⟩ := run_step_nopCase name expectations spared
  have moved := stored_pc case.start.cpu.regs case.start.memory (origin + 1)
  rw [regs, memory]
  exact moved.content_eq (by simpa using other)

theorem holds_after_nopCase_iff (spared : Spared origin presets) {field : Field}
    (survives : field.SurvivesIn presets) :
    field.Holds (nopCase name origin presets expectations).after ↔ field.Attainable := by
  let case := nopCase name origin presets expectations
  obtain ⟨earlier, later, split, undisturbed⟩ := survives
  have there : field ∈ presets := by simp [split]
  obtain ⟨pc, cell⟩ := spared field there
  let before := earlier.foldl (fun machine field => Field.apply field machine)
    { cpu.regs.pc := origin, memory := Memory.zero.load origin [0x00] }
  have start : case.start = later.foldl (fun machine field => Field.apply field machine)
      (field.apply before) := by
    change presets.foldl _ _ = _
    rw [split, List.foldl_append, List.foldl_cons]
    rfl
  have stepped : field.Holds case.after ↔ field.Holds case.start :=
    Field.holds_congr fun location inside =>
      content_after_nopCase name expectations spared fun same => pc (same ▸ inside)
  have kept : field.Holds case.start ↔ field.Holds (field.apply before) := by
    rw [start]
    exact Field.holds_congr fun location inside =>
      Field.content_foldl_apply later _ fun other member => undisturbed other member location inside
  rw [show (nopCase name origin presets expectations).after = case.after from rfl, stepped, kept]
  refine Field.holds_apply_iff before ?_
  rintro address bytes rfl
  exact Field.length_le_of_apart cell

/-- A case that executes `NOP`, with presets that leave PC and the instruction alone, finds a preset
that no later one writes over, unless the preset gives AF a low nibble or has the empty set of flags
down. With any expectations of this kind it passes. -/
theorem surviving_presets_hold (spared : Spared origin presets) :
    (∀ field : Field, field.SurvivesIn presets → ∀ expectations,
      (field.check (nopCase name origin presets expectations).after = none ↔
        field.Attainable)) ∧
    ∀ expectations : List Field, (∀ field ∈ expectations, field.SurvivesIn presets) →
      ((nopCase name origin presets expectations).run = .ok () ↔
        ∀ field ∈ expectations, field.Attainable) := by
  constructor
  · intro field survives expectations
    rw [Field.check_eq_none_iff]
    exact holds_after_nopCase_iff name expectations spared survives
  · intro expectations survive
    let case := nopCase name origin presets expectations
    obtain ⟨executed, regs, -⟩ := run_step_nopCase name expectations spared
    have onward : case.PcHolds 1 case.after := .inr (by rw [regs]; rfl)
    rw [Case.run_eq_ok_iff executed]
    refine (and_iff_left onward).trans ?_
    exact forall₂_congr fun field there =>
      holds_after_nopCase_iff name expectations spared (survive field there)

/-- L, the carry and the cell at address 0 are each set twice. -/
theorem surviving_presets_hold_of_overlaps :
    let presets : List Field :=
      [.reg16 .hl 0xC0DE, .memory 0xFFFE [0x01, 0x02, 0x03], .reg8 .l 0x42,
        .flag { z := true, c := true } true, .memory 0x0000 [0x09], .flag { c := true } false]
    let expectations : List Field :=
      [.memory 0x0000 [0x09], .reg8 .l 0x42, .flag { c := true } false, .reg8 .l 0x42]
    Spared 0x0100 presets ∧ (∀ field ∈ expectations, field.SurvivesIn presets) ∧
      (nopCase "overlaps" 0x0100 presets expectations).run = .ok () := by
  intro presets expectations
  have spared : Spared 0x0100 presets := by
    unfold Spared
    decide
  have survive : ∀ field ∈ expectations, field.SurvivesIn presets := by
    have cell : (Field.memory 0x0000 [0x09]).SurvivesIn presets :=
      ⟨presets.take 4, presets.drop 5, rfl, by decide⟩
    have low : (Field.reg8 .l 0x42).SurvivesIn presets :=
      ⟨presets.take 2, presets.drop 3, rfl, by decide⟩
    have carry : (Field.flag { c := true } false).SurvivesIn presets :=
      ⟨presets.take 5, presets.drop 6, rfl, by decide⟩
    simp [expectations, cell, low, carry]
  have passed := (surviving_presets_hold "overlaps" spared).2 expectations survive
  refine ⟨spared, survive, passed.mpr ?_⟩
  simp [expectations, Field.Attainable]

end Conformance

end Sm83
