import Sm83.Run
import Sm83.Proofs.Fetch
import Sm83.Proofs.OpcodeMap

/-!
# Decoding on every bus

A decoded instruction belongs to the entry it was found by: the entry is in the opcode map, and the
operation runs the same routine under the same flag policy (`always_decode`).
-/

namespace Sm83

/-- The operation belongs to the entry, and the entry to the opcode map. -/
structure Decoded.Genuine (decoded : Decoded) : Prop where
  listed : Entry.ofOpcode? decoded.entry.opcode = some decoded.entry
  routine_eq : decoded.operation.routine = decoded.entry.form.routine
  policy_eq : decoded.operation.policy = decoded.entry.form.policy

/-- What comes of a step of a core that is not parked. -/
def Outcome.ofDecoded : Except Fault Decoded → Outcome
  | .error cause => .fault cause
  | .ok decoded => .executed decoded.entry

namespace Cpu

def withPc (cpu : Cpu) (pc : UInt16) : Cpu :=
  { cpu with regs := { cpu.regs with pc } }

theorem get16_withPc (cpu : Cpu) (pc : UInt16) {r : Reg16} (h : r ≠ .pc) :
    (cpu.withPc pc).regs.get16 r = cpu.regs.get16 r := by
  cases r with
  | pc => exact (h rfl).elim
  | _ => rfl

/-- Decodes and, unless that faults, executes, whether the core is parked or not. -/
def decodeExecute (cpu : Cpu) : BusM (Except Fault Decoded × Cpu) := do
  let (result, cpu) ← cpu.decode
  match result with
  | .error fault => return (.error fault, cpu)
  | .ok decoded => return (.ok decoded, ← decoded.operation.execute cpu)

theorem always_decode (cpu : Cpu) :
    cpu.decode.Always fun r =>
      (∀ decoded, r.1 = .ok decoded → decoded.Genuine) ∧ ∃ pc, r.2 = cpu.withPc pc := by
  rw [decode, BusM.always_bind]
  refine BusM.always_of_forall ?_
  rintro ⟨opcode, next⟩
  dsimp only
  split
  case h_1 => exact ⟨by simp, cpu.regs.pc, rfl⟩
  case h_2 entry found =>
    have opcode_eq := Entry.opcode_of_mem found
    rw [BusM.always_bind]
    refine (FetchM.always_operation cpu.regs entry.form next).mono ?_
    rintro ⟨operation, last⟩ same
    refine ⟨?_, last, rfl⟩
    rintro decoded h
    cases h
    exact ⟨opcode_eq ▸ found, same.1, same.2⟩

theorem step_of_running {cpu : Cpu} (running : cpu.stopped = false ∧ cpu.halted = false) :
    cpu.step = (fun r => (Outcome.ofDecoded r.1, r.2)) <$> cpu.decodeExecute := by
  simp only [step, decodeExecute, running, Bool.false_eq_true, if_false, map_bind]
  refine bind_congr ?_
  rintro ⟨result, cpu⟩
  cases result <;> simp [Outcome.ofDecoded]

/-- What a step of a parked core reports; STOP goes before HALT. -/
def parkedOutcome (cpu : Cpu) : Outcome :=
  if cpu.stopped then .stopped else .halted

theorem step_of_parked {cpu : Cpu} (parked : cpu.halted = true ∨ cpu.stopped = true) :
    cpu.step = pure (cpu.parkedOutcome, cpu) := by
  by_cases stopped : cpu.stopped = true
  · simp [step, parkedOutcome, stopped]
  · have halted := parked.resolve_right stopped
    simp [step, parkedOutcome, stopped, halted]

theorem parkedOutcome_ne_executed (cpu : Cpu) (entry : Entry) :
    cpu.parkedOutcome ≠ .executed entry := by
  unfold parkedOutcome
  split <;> exact nofun

theorem parked_or_running (cpu : Cpu) :
    (cpu.halted = true ∨ cpu.stopped = true) ∨ (cpu.stopped = false ∧ cpu.halted = false) := by
  cases cpu.halted <;> cases cpu.stopped <;> simp

theorem step_cases (cpu : Cpu) :
    (cpu.stopped = true ∧ cpu.step = pure (.stopped, cpu)) ∨
    (cpu.stopped = false ∧ cpu.halted = true ∧ cpu.step = pure (.halted, cpu)) ∨
    ((cpu.stopped = false ∧ cpu.halted = false) ∧
      cpu.step = (fun r => (Outcome.ofDecoded r.1, r.2)) <$> cpu.decodeExecute) := by
  by_cases stopped : cpu.stopped
  · exact .inl ⟨stopped, by simp [step, stopped]⟩
  by_cases halted : cpu.halted
  · exact .inr (.inl ⟨by simp [stopped], halted, by simp [step, stopped, halted]⟩)
  have running : cpu.stopped = false ∧ cpu.halted = false := by simp [stopped, halted]
  exact .inr (.inr ⟨running, step_of_running running⟩)

theorem step_fault_iff {σ : Type} [Bus σ] (cpu : Cpu) (bus : σ) (fault : Fault) :
    (cpu.step.run bus).1.1 = .fault fault ↔
      (cpu.stopped = false ∧ cpu.halted = false) ∧ (cpu.decode.run bus).1.1 = .error fault := by
  rcases cpu.step_cases with ⟨stopped, parked⟩ | ⟨-, halted, parked⟩ | ⟨running, working⟩
  · simp [parked, stopped]
  · simp [parked, halted]
  · rw [working, BusM.run_map, decodeExecute, BusM.run_bind]
    rcases (cpu.decode.run bus).1 with ⟨_ | decoded, next⟩ <;> simp [running, Outcome.ofDecoded]

end Cpu

end Sm83
