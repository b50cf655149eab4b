import Sm83.Proofs.Accumulator
import Sm83.Proofs.Dependence

/-!
# Straight code on the accumulator

Some instructions only move the core on and change A and the flags, in a way that depends on nothing
but these. Code made of them runs from its first byte to its last and leaves the bus as it is
(`run_trace_codes`). Where it consists of parts with equally many instructions, stepping through part
after part shows the cores that the parts leave behind (`run_rounds`).
-/

namespace Sm83

open FlatBus (memory)

variable {σ : Type} [Bus σ] [FlatBus σ]

/-- An instruction that, apart from moving the core on, only changes A and the flags. -/
structure AccumulatorCode extends Encoded where
  effect : UInt8 → Flags → UInt8 × Flags
  execute_eq : ∀ (regs : Registers) (cpu : Cpu),
    (entry.form.fill regs literals).execute cpu =
      pure { cpu with
        regs := cpu.regs.accumulate (effect cpu.regs.a cpu.regs.f)
        interrupts := cpu.interrupts.advance }

namespace AccumulatorCode

/-- `LD A, n` -/
def load (value : UInt8) : AccumulatorCode where
  entry := ⟨.plain 0x3E, .load (.reg .a) (.literal ())⟩
  literals := [value]
  listed := (Entry.mem_all_iff _).mpr rfl
  complete := rfl
  effect _ f := (value, f)
  execute_eq _ _ := rfl

/-- The operation on A and the byte behind the opcode. -/
def alu (op : AluOp) (value : UInt8) : AccumulatorCode where
  entry := AluOperand.immediate.entry op
  literals := [value]
  listed := (Entry.mem_all_iff _).mpr (AluOperand.immediate.ofOpcode?_entry op)
  complete := rfl
  effect a f := op.widened a value f.c
  execute_eq _ cpu := by
    rw [← op.apply_policy_eq cpu.regs.a value cpu.regs.f]
    rfl

def daa : AccumulatorCode where
  entry := ⟨.plain 0x27, .daa⟩
  literals := []
  listed := (Entry.mem_all_iff _).mpr rfl
  complete := rfl
  effect a f :=
    let (result, computed) := Arithmetic.decimalAdjust a f
    (result, { computed with n := f.n, h := false })
  execute_eq _ _ := rfl

def program (codes : List AccumulatorCode) : List UInt8 :=
  codes.flatMap fun code => code.bytes

theorem program_cons (code : AccumulatorCode) (rest : List AccumulatorCode) :
    program (code :: rest) = code.bytes ++ program rest :=
  List.flatMap_cons

/-- Where the code of each column has the same size. -/
theorem length_program_columns {α : Type} (columns : List α) {code : α → List AccumulatorCode}
    {size : Nat} (even : ∀ column, (program (code column)).length = size) :
    (columns.flatMap fun column => program (code column)).length = size * columns.length := by
  simp [List.length_flatMap, even, List.map_const', Nat.mul_comm]

end AccumulatorCode

namespace Cpu

open AccumulatorCode (program program_cons)

def after (cpu : Cpu) (code : AccumulatorCode) : Cpu :=
  let regs := cpu.regs.accumulate (code.effect cpu.regs.a cpu.regs.f)
  { cpu with
    regs := { regs with pc := cpu.regs.pc + code.bytes.length.toUInt16 }
    interrupts := cpu.interrupts.advance }

def afterAll (cpu : Cpu) (codes : List AccumulatorCode) : Cpu :=
  codes.foldl after cpu

theorem run_step_code (cpu : Cpu) (bus : σ) (code : AccumulatorCode)
    (running : cpu.stopped = false ∧ cpu.halted = false)
    (laid : (memory bus).block cpu.regs.pc code.bytes.length = code.bytes) :
    cpu.step.run bus = ((.executed code.entry, cpu.after code), bus) := by
  obtain ⟨found, literals⟩ := code.ofOpcode?_of_block laid
  let next := cpu.withPc (cpu.regs.pc + code.entry.size.toUInt16)
  have executed := congrArg (BusM.run · bus) (code.execute_eq cpu.regs next)
  simp only [Operation.execute, BusM.run_map, BusM.run_pure, Prod.mk.injEq] at executed
  obtain ⟨settled, untouched⟩ := executed
  rw [cpu.run_step bus running found, decodedAs, literals]
  dsimp only
  rw [settled, untouched, after, code.length_bytes]
  rfl

theorem afterAll_parked (cpu : Cpu) (codes : List AccumulatorCode) :
    (cpu.afterAll codes).stopped = cpu.stopped ∧ (cpu.afterAll codes).halted = cpu.halted := by
  induction codes generalizing cpu with
  | nil => exact ⟨rfl, rfl⟩
  | cons code rest ih => exact ih (cpu.after code)

theorem pc_afterAll (cpu : Cpu) (codes : List AccumulatorCode) :
    (cpu.afterAll codes).regs.pc = cpu.regs.pc + (program codes).length.toUInt16 := by
  induction codes generalizing cpu with
  | nil => exact (UInt16.add_zero _).symm
  | cons code rest ih =>
    change ((cpu.after code).afterAll rest).regs.pc = _
    rw [ih, program_cons, List.length_append, address_add]
    rfl

/-- Code that is laid at PC runs in as many steps as it has instructions. -/
theorem run_trace_codes (cpu : Cpu) (bus : σ) (codes : List AccumulatorCode)
    (running : cpu.stopped = false ∧ cpu.halted = false)
    (laid : (memory bus).block cpu.regs.pc (program codes).length = program codes) :
    (cpu.afterTrace <$> cpu.trace codes.length).run bus = (cpu.afterAll codes, bus) := by
  induction codes generalizing cpu with
  | nil => rfl
  | cons code rest ih =>
    rw [program_cons, List.length_append, Memory.block_add] at laid
    obtain ⟨head, tail⟩ := List.append_inj laid (by simp)
    have later := ih (cpu.after code) running tail
    rw [List.length_cons, trace]
    simp only [BusM.run_map, BusM.run_bind, BusM.run_pure, afterTrace_cons,
      cpu.run_step_code bus code running head] at later ⊢
    exact later

/-! ### Part after part -/

/-- Takes `stride` steps again and again and lists the core that is left each time. -/
def rounds (cpu : Cpu) (stride : Nat) : (count : Nat) → BusM (List Cpu)
  | 0 => return []
  | count + 1 => do
      let next := cpu.afterTrace (← cpu.trace stride)
      let later ← next.rounds stride count
      return next :: later

/-- The cores that the parts of some code leave behind. -/
def milestones (cpu : Cpu) : (parts : List (List AccumulatorCode)) → List Cpu
  | [] => []
  | part :: rest =>
      let next := cpu.afterAll part
      next :: next.milestones rest

theorem length_milestones (cpu : Cpu) (parts : List (List AccumulatorCode)) :
    (cpu.milestones parts).length = parts.length := by
  induction parts generalizing cpu with
  | nil => rfl
  | cons part rest ih => exact congrArg Nat.succ (ih _)

theorem run_rounds (cpu : Cpu) (bus : σ) (parts : List (List AccumulatorCode)) {stride : Nat}
    (even : ∀ part ∈ parts, part.length = stride)
    (running : cpu.stopped = false ∧ cpu.halted = false)
    (laid : (memory bus).block cpu.regs.pc (parts.flatMap program).length =
      parts.flatMap program) :
    (cpu.rounds stride parts.length).run bus = (cpu.milestones parts, bus) := by
  induction parts generalizing cpu with
  | nil => rfl
  | cons part rest ih =>
    obtain ⟨first, others⟩ := List.forall_mem_cons.mp even
    rw [List.flatMap_cons, List.length_append, Memory.block_add] at laid
    obtain ⟨head, tail⟩ := List.append_inj laid (by simp)
    obtain ⟨stopped, halted⟩ := cpu.afterAll_parked part
    rw [← pc_afterAll] at tail
    have later := ih (cpu.afterAll part) others (by rwa [stopped, halted]) tail
    have run := cpu.run_trace_codes bus part running head
    rw [first, BusM.run_map, Prod.mk.injEq] at run
    rw [List.length_cons, rounds, BusM.run_bind, run.1, run.2, BusM.run_bind, later]
    rfl

/-- Loaded at PC, code that has one part for each column runs round by round. -/
theorem run_rounds_columns {α : Type} (cpu : Cpu) (m : Memory) (columns : List α)
    {code : α → List AccumulatorCode} {stride : Nat}
    (even : ∀ column, (code column).length = stride)
    (running : cpu.stopped = false ∧ cpu.halted = false)
    (fits : (columns.flatMap fun column => program (code column)).length ≤ 0x10000) :
    let loaded := m.load cpu.regs.pc (columns.flatMap fun column => program (code column))
    (cpu.rounds stride columns.length).run loaded = (cpu.milestones (columns.map code), loaded) := by
  intro loaded
  have strides : ∀ part ∈ columns.map code, part.length = stride := by
    simp [even]
  have run := cpu.run_rounds loaded (columns.map code) strides running
  rw [List.flatMap_map, List.length_map] at run
  exact run (m.block_load cpu.regs.pc _ fits)

/-- Every core on the way has just run the code of one of the columns. -/
theorem exists_of_mem_milestones {α : Type} {cpu core : Cpu} {columns : List α}
    {code : α → List AccumulatorCode} (passed : core ∈ cpu.milestones (columns.map code)) :
    ∃ column ∈ columns, ∃ before : Cpu, core = before.afterAll (code column) := by
  induction columns generalizing cpu with
  | nil => cases passed
  | cons column rest ih =>
    rcases List.mem_cons.mp passed with rfl | later
    · exact ⟨column, List.mem_cons_self, cpu, rfl⟩
    · obtain ⟨column', inside, ran⟩ := ih later
      exact ⟨column', List.mem_cons_of_mem _ inside, ran⟩

theorem forall_mem_noted {α : Type} {cpu : Cpu} {columns : List α}
    {code : α → List AccumulatorCode} {P : UInt8 → Prop}
    (each : ∀ column ∈ columns, ∀ before : Cpu, P (before.afterAll (code column)).regs.a) :
    ∀ noted ∈ (cpu.milestones (columns.map code)).map fun core => core.regs.a, P noted := by
  intro noted inside
  obtain ⟨core, passed, rfl⟩ := List.mem_map.mp inside
  obtain ⟨column, given, before, rfl⟩ := exists_of_mem_milestones passed
  exact each column given before

end Cpu

end Sm83
