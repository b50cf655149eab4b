import Mathlib.Data.List.Forall2
import Sm83.Proofs.Decode.Acceptance

/-!
# What the interrupt latch does not reach

The latch decides nothing but itself. Two cores that differ in their latches only fetch the same
bytes, act alike and park alike (`step_alike`). So in runs of any length on buses that start out
the same, each step has the same outcome and leaves cores that still differ in their latches only,
and the buses stay the same (`trace_alike`).
-/

namespace Sm83

/-- Everything but the interrupt latch is the same. -/
structure Cpu.Alike (cpu cpu' : Cpu) : Prop where
  regs_eq : cpu'.regs = cpu.regs
  halted_eq : cpu'.halted = cpu.halted
  stopped_eq : cpu'.stopped = cpu.stopped

/-- Two runs give the same value beside the core, cores that are alike, and the same bus. -/
structure RunsAlike {α σ : Type} (r r' : (α × Cpu) × σ) : Prop where
  value_eq : r'.1.1 = r.1.1
  alike : r.1.2.Alike r'.1.2
  bus_eq : r'.2 = r.2

variable {σ : Type} [Bus σ] {cpu cpu' : Cpu}

namespace Operation

theorem control_alike (operation : Operation) (alike : cpu.Alike cpu') :
    (operation.control cpu).Alike (operation.control cpu') := by
  obtain ⟨regs, halted, stopped⟩ := alike
  cases operation
  case halt => exact ⟨regs, rfl, stopped⟩
  case stop => exact ⟨regs, halted, rfl⟩
  all_goals exact ⟨regs, halted, stopped⟩

theorem settle_alike (operation : Operation) (alike : cpu.Alike cpu') (regs : Registers) :
    (operation.settle cpu regs).Alike (operation.settle cpu' regs) := by
  let settled := { regs with f := operation.policy.apply cpu.regs.f regs.f }
  have before : Cpu.Alike { cpu with regs := settled } { cpu' with regs := settled } :=
    ⟨rfl, alike.halted_eq, alike.stopped_eq⟩
  have same := operation.control_alike before
  rw [settle, settle, alike.regs_eq]
  -- Moving the latch on is the last thing to happen, and it touches nothing else.
  exact ⟨same.regs_eq, same.halted_eq, same.stopped_eq⟩

end Operation

namespace Cpu

theorem decode_alike (alike : cpu.Alike cpu') (bus : σ) :
    RunsAlike (cpu.decode.run bus) (cpu'.decode.run bus) := by
  rw [decode, decode, alike.regs_eq, BusM.run_bind, BusM.run_bind]
  generalize (FetchM.opcode.run cpu.regs.pc).run bus = fetched
  dsimp only
  split
  next => exact ⟨rfl, alike, rfl⟩
  next entry found =>
    rw [BusM.run_bind, BusM.run_bind]
    exact ⟨rfl, ⟨rfl, alike.halted_eq, alike.stopped_eq⟩, rfl⟩

theorem decodeExecute_alike (alike : cpu.Alike cpu') (bus : σ) :
    RunsAlike (cpu.decodeExecute.run bus) (cpu'.decodeExecute.run bus) := by
  have decoded := decode_alike alike bus
  rw [decodeExecute, decodeExecute, BusM.run_bind, BusM.run_bind]
  generalize cpu.decode.run bus = r at decoded ⊢
  generalize cpu'.decode.run bus = r' at decoded ⊢
  obtain ⟨⟨_, next⟩, _⟩ := r
  obtain ⟨⟨result, next'⟩, behind⟩ := r'
  obtain ⟨rfl, alike, rfl⟩ := decoded
  have regs : next'.regs = next.regs := alike.regs_eq
  cases result with
  | error fault => exact ⟨rfl, alike, rfl⟩
  | ok decoded =>
    simp only [BusM.run_bind, BusM.run_pure, Operation.execute, BusM.run_map, regs]
    exact ⟨rfl, decoded.operation.settle_alike alike _, rfl⟩

theorem step_alike (alike : cpu.Alike cpu') (bus : σ) :
    RunsAlike (cpu.step.run bus) (cpu'.step.run bus) := by
  have halted : cpu'.halted = cpu.halted := alike.halted_eq
  have stopped : cpu'.stopped = cpu.stopped := alike.stopped_eq
  rcases cpu.parked_or_running with parked | running
  · have parked' : cpu'.halted = true ∨ cpu'.stopped = true := by rwa [halted, stopped]
    have outcome : cpu'.parkedOutcome = cpu.parkedOutcome := by
      rw [parkedOutcome, parkedOutcome, stopped]
    rw [step_of_parked parked, step_of_parked parked']
    exact ⟨outcome, alike, rfl⟩
  · have running' : cpu'.stopped = false ∧ cpu'.halted = false := by rwa [stopped, halted]
    obtain ⟨value, alike, behind⟩ := decodeExecute_alike alike bus
    rw [step_of_running running, step_of_running running', BusM.run_map, BusM.run_map]
    exact ⟨congrArg Outcome.ofDecoded value, alike, behind⟩

/-- Cores that differ in their interrupt latches only take steps with the same outcomes, differ in
nothing else after each of them, and do the same to the bus. -/
theorem trace_alike (alike : cpu.Alike cpu') (bus : σ) (count : Nat) :
    let r := (cpu.trace count).run bus
    let r' := (cpu'.trace count).run bus
    List.Forall₂ (fun step step' => step'.1 = step.1 ∧ step.2.Alike step'.2) r.1 r'.1 ∧
      r'.2 = r.2 := by
  induction count generalizing cpu cpu' bus with
  | zero => exact ⟨.nil, rfl⟩
  | succ count ih =>
    obtain ⟨outcome, next, behind⟩ := step_alike alike bus
    obtain ⟨later, last⟩ := ih next (cpu.step.run bus).2
    simp only [trace, BusM.run_bind, BusM.run_pure, behind]
    exact ⟨.cons ⟨outcome, next⟩ later, last⟩

/-- `EI` and `HALT`, run by a core with nothing on its way and by one with everything on its way. -/
theorem trace_alike_of_ei_halt :
    let cpu : Cpu := {}
    let cpu' : Cpu := { interrupts := { enabled := true, pending := true, delayed := true } }
    let m := Memory.zero.load 0 [0xFB, 0x76]
    let r := (cpu.trace 3).run m
    let r' := (cpu'.trace 3).run m
    cpu.interrupts ≠ cpu'.interrupts ∧ cpu.Alike cpu' ∧
    List.Forall₂ (fun step step' => step'.1 = step.1 ∧ step.2.Alike step'.2) r.1 r'.1 ∧
      r'.2 = r.2 := by
  intro cpu cpu' m r r'
  have alike : cpu.Alike cpu' := ⟨rfl, rfl, rfl⟩
  exact ⟨by decide, alike, trace_alike alike m 3⟩

end Cpu

end Sm83
