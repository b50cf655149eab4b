import Sm83.Proofs.Dependence

/-!
# Parked cores

A core is parked by HALT and by STOP and by nothing else, and no instruction wakes it
(`always_execute_parks`). The steps of a parked core change nothing and make no access
(`trace_of_parked`). So a parked core, woken after any number of steps, goes on as if it had never
been parked (`parked_until_woken`).
-/

namespace Sm83

/-! ### While a core is parked -/

namespace Cpu

variable {cpu : Cpu}

theorem trace_of_parked (parked : cpu.halted = true ∨ cpu.stopped = true) (count : Nat) :
    cpu.trace count = pure (List.replicate count (cpu.parkedOutcome, cpu)) := by
  induction count with
  | zero => rfl
  | succ count ih =>
    rw [trace, step_of_parked parked]
    simp [ih, List.replicate_succ]

theorem afterTrace_replicate (cpu : Cpu) (count : Nat) (outcome : Outcome) :
    cpu.afterTrace (List.replicate count (outcome, cpu)) = cpu := by
  cases count <;> simp [afterTrace, List.getLast?_replicate]

end Cpu

/-! ### What parks a core -/

theorem Operation.halted_settle (operation : Operation) (cpu : Cpu) (regs : Registers) :
    (operation.settle cpu regs).halted = true ↔
      cpu.halted = true ∨ operation.routine = .halt := by
  cases operation
  case halt => exact iff_of_true rfl (.inr rfl)
  all_goals exact (or_iff_left nofun).symm

theorem Operation.stopped_settle (operation : Operation) (cpu : Cpu) (regs : Registers) :
    (operation.settle cpu regs).stopped = true ↔
      cpu.stopped = true ∨ operation.routine = .stop := by
  cases operation
  case stop => exact iff_of_true rfl (.inr rfl)
  all_goals exact (or_iff_left nofun).symm

/-- HALT and STOP have one opcode each, and neither has the prefix. -/
theorem Entry.parks_iff {opcode : Opcode} {entry : Entry} (h : entry ∈ ofOpcode? opcode) :
    (entry.form.routine = .halt ↔ entry.opcode = .plain 0x76) ∧
      (entry.form.routine = .stop ↔ entry.opcode = .plain 0x10) :=
  forall_of_all (by decide +kernel) (by decide +kernel) h

theorem Decoded.Genuine.always_execute_parks {decoded : Decoded} (h : decoded.Genuine)
    (cpu : Cpu) :
    (decoded.operation.execute cpu).Always fun next =>
      (next.halted = true ↔ cpu.halted = true ∨ decoded.entry.opcode = .plain 0x76) ∧
      (next.stopped = true ↔ cpu.stopped = true ∨ decoded.entry.opcode = .plain 0x10) := by
  obtain ⟨halts, stops⟩ := Entry.parks_iff h.listed
  rw [Operation.execute, BusM.always_map]
  refine BusM.always_of_forall fun regs => ?_
  rw [Operation.halted_settle, Operation.stopped_settle, h.routine_eq, halts, stops]
  exact ⟨Iff.rfl, Iff.rfl⟩

namespace Cpu

theorem always_step_parks (cpu : Cpu) :
    cpu.step.Always fun r => ∀ entry, r.1 = .executed entry →
      (r.2.halted = true ↔ entry.opcode = .plain 0x76) ∧
      (r.2.stopped = true ↔ entry.opcode = .plain 0x10) := by
  rcases cpu.parked_or_running with parked | running
  · rw [step_of_parked parked, BusM.always_pure]
    intro entry executed
    exact absurd executed (cpu.parkedOutcome_ne_executed entry)
  rw [step_of_running running, BusM.always_map, decodeExecute, BusM.always_bind]
  refine cpu.always_decode.mono ?_
  rintro ⟨result, _⟩ ⟨genuine, pc, rfl⟩
  cases result with
  | error fault =>
    intro entry executed
    cases executed
  | ok decoded =>
    simp only [BusM.always_bind, BusM.always_pure]
    refine ((genuine decoded rfl).always_execute_parks (cpu.withPc pc)).mono ?_
    rintro next ⟨halts, stops⟩ _ ⟨⟩
    -- Fetching has not parked the core, so only the instruction can have.
    rw [halts, stops, show (cpu.withPc pc).halted = false from running.2,
      show (cpu.withPc pc).stopped = false from running.1]
    simp

/-- The steps of a parked core all report the same, make no access and leave the core as it is, its
interrupt latch included. Waking clears the two bits, and a core that is woken after any number of
such steps goes on as the same core with both bits clear. A step that executes an instruction parks
the core if that is HALT or STOP and leaves it running otherwise; an instruction executed by a
parked core can park it once more, but does not wake it. -/
theorem parked_until_woken {σ : Type} [Bus σ] (cpu : Cpu) (bus : σ) :
    let parked := cpu.halted = true ∨ cpu.stopped = true
    let cleared := { cpu with halted := false, stopped := false }
    (parked → ∀ count,
      cpu.trace count =
        pure (List.replicate count (if cpu.stopped then .stopped else .halted, cpu))) ∧
    (cpu.wake.halted = false ∧ cpu.wake.stopped = false ∧ cpu.wake.regs = cpu.regs ∧
      cpu.wake.interrupts = cpu.interrupts) ∧
    (parked → ∀ naps count,
      (do let slept ← cpu.trace naps
          (cpu.afterTrace slept).wake.trace count) = cleared.trace count) ∧
    (∀ entry, (cpu.step.run bus).1.1 = .executed entry →
      let next := (cpu.step.run bus).1.2
      (next.halted = true ↔ entry.opcode = .plain 0x76) ∧
      (next.stopped = true ↔ entry.opcode = .plain 0x10)) ∧
    (∀ decoded : Decoded, decoded.Genuine →
      let next := ((decoded.operation.execute cpu).run bus).1
      (next.halted = true ↔ cpu.halted = true ∨ decoded.entry.opcode = .plain 0x76) ∧
      (next.stopped = true ↔ cpu.stopped = true ∨ decoded.entry.opcode = .plain 0x10)) := by
  intro parked cleared
  refine ⟨trace_of_parked, ⟨rfl, rfl, rfl, rfl⟩, ?_, ?_, ?_⟩
  · intro asleep naps count
    rw [trace_of_parked asleep, pure_bind, afterTrace_replicate]
    rfl
  · exact cpu.always_step_parks.run bus
  · intro decoded genuine
    exact (genuine.always_execute_parks cpu).run bus

end Cpu

end Sm83
