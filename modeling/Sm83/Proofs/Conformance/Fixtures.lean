import Sm83.Conformance.Corpus.Alu
import Sm83.Proofs.Accumulator
import Sm83.Proofs.Conformance.Verdict

/-!
# Fixtures for operations on the accumulator

The cases made from a list of fixtures pass if and only if every fixture gives what the operation
leaves in A and in the flags (`aluCases_pass_iff_right`): no source hides a wrong fixture, and none
spoils a right one.
-/

namespace Sm83.Conformance

theorem Field.holds_flags_iff (f : Flags) (machine : Machine) :
    (∀ field ∈ Field.flags f, field.Holds machine) ↔ machine.cpu.regs.f = f := by
  rcases f with ⟨z, n, h, c⟩
  simp only [flags, List.forall_mem_cons, Holds, Flags.Includes]
  rcases machine.cpu.regs.f with ⟨z', n', h', c'⟩
  simp

namespace Corpus

/-- The fixture gives what the operation leaves. -/
def AluFixture.Right (fixture : AluFixture) (op : AluOp) : Prop :=
  (fixture.result, fixture.flags) = op.widened fixture.a fixture.value fixture.carry

/-! ### One case -/

namespace AluSource

theorem mem_all (source : AluSource) : source ∈ all := by
  cases source with
  | reg r => cases r <;> decide
  | indirect => decide
  | literal => decide

def operand : AluSource → Source Addressing Unit
  | reg r => .place (.reg r)
  | indirect => .place (.memory (.pair .hl))
  | literal => .literal ()

/-- The line of the opcode map for an operation with this source. -/
def entry (source : AluSource) (op : AluOp) (base immediate : UInt8) : Entry where
  opcode := .plain (source.opcode base immediate)
  form := .alu op source.operand

end AluSource

/-- The two opcodes are those of the operation. -/
def Encodes (op : AluOp) (base immediate : UInt8) : Prop :=
  ∀ source ∈ AluSource.all,
    Entry.ofOpcode? (source.entry op base immediate).opcode = some (source.entry op base immediate)

instance (op : AluOp) (base immediate : UInt8) : Decidable (Encodes op base immediate) :=
  inferInstanceAs (Decidable (∀ _ ∈ _, _))

variable {op : AluOp} {mnemonic : String} {base immediate : UInt8} {source : AluSource}
  {fixture : AluFixture}

theorem start_aluCase :
    (aluCase mnemonic base immediate source fixture).start =
      (source.presets fixture.value).foldl (fun machine field => field.apply machine)
        { cpu.regs := { a := fixture.a, f := { c := fixture.carry }, pc := defaultOrigin }
          memory := Memory.zero.load defaultOrigin
            (source.opcode base immediate :: source.extra fixture.value) } := by
  rw [Case.start, aluCase]
  dsimp only
  rw [List.singleton_append]
  generalize Memory.zero.load defaultOrigin _ = loaded
  cases fixture.carry <;> rfl

/-- The instruction and its operands are in place. -/
structure Prepared (machine : Machine) (entry : Entry) (source : AluSource) (fixture : AluFixture) :
    Prop where
  pc_eq : machine.cpu.regs.pc = defaultOrigin
  a_eq : machine.cpu.regs.a = fixture.a
  f_eq : machine.cpu.regs.f = { c := fixture.carry }
  opcode_eq : machine.memory.opcodeAt defaultOrigin = entry.opcode
  value_eq : (machine.cpu.sourceOf machine.memory entry source.operand).value machine.cpu.regs
    machine.memory = fixture.value

theorem opcodeAt_of_read (encodes : Encodes op base immediate) (source : AluSource) {m : Memory}
    (byte : m.read defaultOrigin = source.opcode base immediate) :
    m.opcodeAt defaultOrigin = (source.entry op base immediate).opcode :=
  Memory.opcodeAt_of_read byte (Option.ne_none_iff_exists'.mpr ⟨_, encodes source source.mem_all⟩)

theorem prepared_start (mnemonic : String) (encodes : Encodes op base immediate)
    (admitted : source.admits fixture) :
    Prepared (aluCase mnemonic base immediate source fixture).start
      (source.entry op base immediate) source fixture := by
  have opcode {m : Memory} := opcodeAt_of_read (m := m) encodes source
  rw [start_aluCase]
  cases source with
  | reg r =>
    have byte := Memory.zero.read_write_self defaultOrigin ((AluSource.reg r).opcode base immediate)
    refine ⟨?_, ?_, ?_, opcode byte, Registers.get8_set8_self _ r fixture.value⟩
    · cases r <;> rfl
    · -- A is set before the source is, which is A itself for one register.
      cases r
      case a =>
        have same : fixture.a = fixture.value := by simpa [AluSource.admits] using admitted
        exact same.symm
      all_goals rfl
    · cases r <;> rfl
  | indirect =>
    let loaded := Memory.zero.write defaultOrigin (AluSource.indirect.opcode base immediate)
    have apart := loaded.read_write_of_ne fixture.value (show defaultOrigin ≠ 0xCAFE by decide)
    have byte := apart.trans (Memory.zero.read_write_self defaultOrigin _)
    refine ⟨rfl, rfl, rfl, opcode byte, ?_⟩
    change (loaded.write 0xCAFE fixture.value).read
      (Word.join (Word.high 0xCAFE) (Word.low 0xCAFE)) = fixture.value
    rw [Word.join_high_low, Memory.read_write_self]
  | literal =>
    let loaded := Memory.zero.write defaultOrigin (AluSource.literal.opcode base immediate)
    let behind := defaultOrigin + 1
    have apart := loaded.read_write_of_ne fixture.value (show defaultOrigin ≠ behind by decide)
    have byte := apart.trans (Memory.zero.read_write_self defaultOrigin _)
    refine ⟨rfl, rfl, rfl, opcode byte, ?_⟩
    exact (Cpu.value_sourceOf_literal _ _ _ op).trans (loaded.read_write_self behind fixture.value)

/-- What the step leaves does not depend on where the operands have come from. -/
theorem Prepared.run_step {machine : Machine} {entry : Entry}
    (h : Prepared machine entry source fixture)
    (running : machine.cpu.stopped = false ∧ machine.cpu.halted = false)
    (listed : Entry.ofOpcode? entry.opcode = some entry)
    (form : entry.form = .alu op source.operand) : ∃ cpu,
      machine.cpu.step.run machine.memory = ((.executed entry, cpu), machine.memory) ∧
      (cpu.regs.a, cpu.regs.f) = op.widened fixture.a fixture.value fixture.carry ∧
      cpu.regs.pc = defaultOrigin + entry.size.toUInt16 := by
  have found : Entry.ofOpcode? (machine.memory.opcodeAt machine.cpu.regs.pc) = some entry := by
    rw [h.pc_eq, h.opcode_eq, listed]
  have step := machine.cpu.run_step_alu machine.memory running found form
  refine ⟨_, step, ?_, ?_⟩
  · have carry : machine.cpu.regs.f.c = fixture.carry := congrArg Flags.c h.f_eq
    rw [← h.value_eq, ← h.a_eq, ← carry]
    rfl
  · exact congrArg (· + entry.size.toUInt16) h.pc_eq

/-- A case passes if and only if its fixture is right. -/
theorem run_aluCase_eq_ok_iff (encodes : Encodes op base immediate)
    (admitted : source.admits fixture) :
    (aluCase mnemonic base immediate source fixture).run = .ok () ↔ fixture.Right op := by
  let case := aluCase mnemonic base immediate source fixture
  have listed := encodes source source.mem_all
  have prepared := prepared_start mnemonic encodes admitted
  obtain ⟨cpu, step, left, pc⟩ := prepared.run_step case.start_running listed rfl
  have executed := congrArg (fun r => r.1.1) step
  have after : case.after = { cpu, memory := case.start.memory } := by
    rw [Case.after, step]
  have onward : case.PcHolds (source.entry op base immediate).size case.after := .inr (after ▸ pc)
  have expected : case.expectations = .reg8 .a fixture.result :: Field.flags fixture.flags := rfl
  rw [Case.run_eq_ok_iff executed, and_iff_left onward, expected, List.forall_mem_cons,
    Field.holds_flags_iff, after, AluFixture.Right, ← left, Prod.ext_iff]
  exact and_congr eq_comm eq_comm

/-! ### All cases -/

theorem run_aluCases_eq_ok_iff (encodes : Encodes op base immediate) (fixtures : List AluFixture) :
    (∀ case ∈ aluCases mnemonic base immediate fixtures, case.run = .ok ()) ↔
      ∀ fixture ∈ fixtures, fixture.Right op := by
  simp only [aluCases, List.mem_flatMap, List.mem_map, List.mem_filter]
  constructor
  · -- B can be the source of every fixture.
    intro passed fixture there
    have case := passed _ ⟨.reg .b, AluSource.mem_all _, fixture, ⟨there, rfl⟩, rfl⟩
    exact (run_aluCase_eq_ok_iff encodes rfl).mp case
  · rintro right _ ⟨source, -, fixture, ⟨there, admitted⟩, rfl⟩
    exact (run_aluCase_eq_ok_iff encodes admitted).mpr (right fixture there)

theorem countP_admits (fixtures : List AluFixture) :
    fixtures.countP source.admits =
      if source = .reg .a then fixtures.countP fun fixture => fixture.a == fixture.value
      else fixtures.length := by
  by_cases same : source = .reg .a
  · subst same
    rfl
  · rw [if_neg same, List.countP_eq_length]
    simp [AluSource.admits, same]

/-- Each fixture makes a case for every source, except for A where the operands differ. -/
theorem length_aluCases (mnemonic : String) (base immediate : UInt8)
    (fixtures : List AluFixture) :
    (aluCases mnemonic base immediate fixtures).length +
      fixtures.countP (fun fixture => fixture.a ≠ fixture.value) = 9 * fixtures.length := by
  have lengths : (aluCases mnemonic base immediate fixtures).length =
      (AluSource.all.map fun source => fixtures.countP source.admits).sum := by
    simp only [aluCases, List.length_flatMap, List.length_map, List.countP_eq_length_filter]
  have sources : (AluSource.all.map fun source => fixtures.countP source.admits).sum =
      fixtures.countP (fun fixture => fixture.a == fixture.value) + 8 * fixtures.length := by
    simp only [AluSource.all, Reg8.all, countP_admits, List.map_cons, List.map_nil,
      List.cons_append, List.nil_append, List.sum_cons, List.sum_nil, AluSource.reg.injEq,
      reduceCtorEq, if_true, if_false]
    omega
  have split := List.length_eq_countP_add_countP (fun fixture : AluFixture =>
    fixture.a == fixture.value) (l := fixtures)
  simp only [beq_iff_eq] at split
  simp only [ne_eq]
  omega

theorem runAll_aluCases_eq_ok_iff (encodes : Encodes op base immediate)
    (fixtures : List AluFixture) (passed : Nat) :
    runAll (aluCases mnemonic base immediate fixtures) = .ok passed ↔
      (∀ fixture ∈ fixtures, fixture.Right op) ∧
        passed =
          9 * fixtures.length - fixtures.countP fun fixture => fixture.a ≠ fixture.value := by
  have length := length_aluCases mnemonic base immediate fixtures
  rw [runAll_eq_ok_iff, run_aluCases_eq_ok_iff encodes, and_comm, ← length, Nat.add_sub_cancel]

/-- The cases of a group pass if every fixture is right about the operation of the group, and one
wrong fixture is enough to make them fail. Each fixture counts nine times, once for each source, and
one time less where its operands differ. -/
theorem aluCases_pass_iff_right (fixtures : List AluFixture) (passed : Nat) :
    let count := 9 * fixtures.length - fixtures.countP fun fixture => fixture.a ≠ fixture.value
    (runAll (aluCases "ADD" 0x80 0xC6 fixtures) = .ok passed ↔
      (∀ fixture ∈ fixtures, fixture.Right .add) ∧ passed = count) ∧
    (runAll (aluCases "ADC" 0x88 0xCE fixtures) = .ok passed ↔
      (∀ fixture ∈ fixtures, fixture.Right .adc) ∧ passed = count) ∧
    (runAll (aluCases "SUB" 0x90 0xD6 fixtures) = .ok passed ↔
      (∀ fixture ∈ fixtures, fixture.Right .sub) ∧ passed = count) := by
  have add : Encodes .add 0x80 0xC6 := by decide +kernel
  have adc : Encodes .adc 0x88 0xCE := by decide +kernel
  have sub : Encodes .sub 0x90 0xD6 := by decide +kernel
  exact ⟨runAll_aluCases_eq_ok_iff add fixtures passed,
    runAll_aluCases_eq_ok_iff adc fixtures passed, runAll_aluCases_eq_ok_iff sub fixtures passed⟩

end Corpus

end Sm83.Conformance
