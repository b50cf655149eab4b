import Sm83.Proofs.Decode.Filled

/-!
# A step on a flat bus

On a flat bus a step that executes an instruction makes the reads of its bytes, then what the
operation does, and settles the core (`run_logged_step`). Which instruction it executes is a matter
of the opcode at PC (`executed_iff`).
-/

namespace Sm83

open FlatBus (memory)

variable {σ : Type} [Bus σ] [FlatBus σ]

/-- An operation that has no flag policy and has kept the flags settles without changing them. -/
theorem Operation.settle_of_kept {operation : Operation} {cpu : Cpu} {after : Registers}
    (free : operation.policy = {}) (kept : after.f = cpu.regs.f) :
    operation.settle cpu after =
      let left := operation.control { cpu with regs := after }
      { left with interrupts := left.interrupts.advance } := by
  rw [settle, free, FlagPolicy.apply_unaffected, ← kept]

namespace Cpu

theorem run_logged_step (cpu : Cpu) (bus : σ) {entry : Entry}
    (running : cpu.stopped = false ∧ cpu.halted = false)
    (h : Entry.ofOpcode? ((memory bus).opcodeAt cpu.regs.pc) = some entry) :
    let operation := (cpu.decodedAs (memory bus) entry).operation
    let next := cpu.withPc (cpu.regs.pc + entry.size.toUInt16)
    let r := (operation.act next.regs).logged.run bus
    cpu.step.logged.run bus =
      (((.executed entry, operation.settle next r.1.1),
        (memory bus).reads cpu.regs.pc entry.size ++ r.1.2), r.2) := by
  intro operation next r
  rw [step_of_running running, decodeExecute]
  simp only [BusM.logged_map, BusM.run_map, BusM.logged_bind, BusM.run_bind,
    cpu.run_logged_decode bus h, Operation.execute, BusM.logged_pure, BusM.run_pure]
  simp [Outcome.ofDecoded, decodedAs, operation, next, r]

theorem run_step (cpu : Cpu) (bus : σ) {entry : Entry}
    (running : cpu.stopped = false ∧ cpu.halted = false)
    (h : Entry.ofOpcode? ((memory bus).opcodeAt cpu.regs.pc) = some entry) :
    let operation := (cpu.decodedAs (memory bus) entry).operation
    let next := cpu.withPc (cpu.regs.pc + entry.size.toUInt16)
    let r := (operation.act next.regs).run bus
    cpu.step.run bus = ((.executed entry, operation.settle next r.1), r.2) := by
  intro operation next r
  have unlogged := (operation.act next.regs).run_logged_fst bus
  rw [← cpu.step.run_logged_fst, cpu.run_logged_step bus running h]
  simp only [r, ← unlogged, operation, next]

/-- The operation is the form with the bytes behind the one at PC filled in. -/
theorem run_step_filled (cpu : Cpu) (bus : σ) {entry : Entry}
    (running : cpu.stopped = false ∧ cpu.halted = false)
    (h : Entry.ofOpcode? ((memory bus).opcodeAt cpu.regs.pc) = some entry) :
    let operation := entry.form.fill cpu.regs ((memory bus).block (cpu.regs.pc + 1) 2)
    let next := cpu.withPc (cpu.regs.pc + entry.size.toUInt16)
    let r := (operation.act next.regs).run bus
    cpu.step.run bus = ((.executed entry, operation.settle next r.1), r.2) := by
  have step := cpu.run_step bus running h
  rwa [cpu.operation_decodedAs (memory bus) h] at step

theorem executed_iff (cpu : Cpu) (bus : σ) (entry : Entry) :
    (cpu.step.run bus).1.1 = .executed entry ↔
      (cpu.stopped = false ∧ cpu.halted = false) ∧
        Entry.ofOpcode? ((memory bus).opcodeAt cpu.regs.pc) = some entry := by
  rcases cpu.step_cases with ⟨stopped, parked⟩ | ⟨-, halted, parked⟩ | ⟨running, -⟩
  · simp [parked, stopped]
  · simp [parked, halted]
  simp only [← cpu.step.run_logged_fst bus, running, and_self, true_and]
  cases found : Entry.ofOpcode? ((memory bus).opcodeAt cpu.regs.pc) with
  | some other => simp [cpu.run_logged_step bus running found]
  | none =>
    have fault := cpu.run_logged_decode_of_none bus found
    rw [step_of_running running, decodeExecute]
    simp [fault, Outcome.ofDecoded]

end Cpu

end Sm83
