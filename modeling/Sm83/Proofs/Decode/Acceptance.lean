import Sm83.Proofs.Decode

/-!
# Which bytes decode

On flat memory, decoding faults exactly before a hole, and then it has read the hole and changed
nothing. Elsewhere it gives the entry of the opcode at PC, reads every byte of the instruction once,
upwards, and moves PC past it (`decode_faults_or_advances`). A core before a hole cannot get away from
it: each step reads the hole again and reports the same fault.
-/

namespace Sm83

/-- The opcode that begins at an address. -/
def Memory.opcodeAt (m : Memory) (address : UInt16) : Opcode :=
  if m.read address = Opcode.prefixByte then .prefixed (m.read (address + 1))
  else .plain (m.read address)

theorem Memory.ofOpcode?_opcodeAt_eq_none_iff (m : Memory) (address : UInt16) :
    Entry.ofOpcode? (m.opcodeAt address) = none ↔ m.read address ∈ Opcode.holes := by
  rw [Entry.ofOpcode?_eq_none_iff, opcodeAt]
  by_cases found : m.read address = Opcode.prefixByte
  · rw [if_pos found, found]
    simp only [reduceCtorEq, false_and, exists_false, false_iff]
    decide
  · simp [found]

theorem Memory.opcodeAt_of_read {m : Memory} {address : UInt16} {byte : UInt8}
    (there : m.read address = byte) (listed : Entry.ofOpcode? (.plain byte) ≠ none) :
    m.opcodeAt address = .plain byte := by
  have single : byte ≠ Opcode.prefixByte := by
    rintro rfl
    exact listed rfl
  rw [opcodeAt, there, if_neg single]

theorem Memory.found_of_read {m : Memory} {address : UInt16} {byte : UInt8} {entry : Entry}
    (there : m.read address = byte) (listed : Entry.ofOpcode? (.plain byte) = some entry) :
    Entry.ofOpcode? (m.opcodeAt address) = some entry := by
  rw [opcodeAt_of_read there (by simp [listed]), listed]

theorem Memory.read_of_opcodeAt {m : Memory} {address : UInt16} {byte : UInt8}
    (h : m.opcodeAt address = .plain byte) : m.read address = byte := by
  unfold opcodeAt at h
  split at h
  · cases h
  · exact Opcode.plain.inj h

theorem Memory.opcodeAt_of_hole {m : Memory} {address : UInt16}
    (h : m.read address ∈ Opcode.holes) : m.opcodeAt address = .plain (m.read address) := by
  refine if_neg fun found => ?_
  rw [found] at h
  exact absurd h (by decide)

def Memory.faultAt (m : Memory) (pc : UInt16) : Fault :=
  { opcode := .plain (m.read pc), pc }

/-! ### Fetching from recorded memory -/

theorem FetchM.run_opcode_recorded (pc : UInt16) (s : Recorded Memory) :
    (opcode.run pc).run s =
      let found := s.bus.opcodeAt pc
      ((found, pc + found.bytes.length.toUInt16), s.afterReads pc found.bytes.length) := by
  rw [run_opcode, BusM.run_bind, BusM.run_readByte_recorded, Memory.opcodeAt]
  by_cases found : s.bus.read pc = Opcode.prefixByte
  · simp only [if_pos found, BusM.run_bind, BusM.run_readByte_recorded]
    exact congrArg (Prod.mk _) (s.afterReads_add pc 1 1).symm
  · simp only [if_neg found]
    rfl

theorem FetchM.run_operation_recorded (regs : Registers) (form : Form) (pc : UInt16)
    (s : Recorded Memory) : ∃ operation,
      ((FetchM.operation regs form).run pc).run s =
        ((operation, pc + form.extraBytes.toUInt16), s.afterReads pc form.extraBytes) ∧
      some operation.operands =
        OperandKind.arguments? regs form.operands (s.bus.block pc form.extraBytes) ∧
      operation.routine = form.routine ∧ operation.policy = form.policy := by
  have read := congrArg (BusM.run · s) (run_operation regs form pc)
  simp only [BusM.run_map, BusM.run_readBlock, Prod.mk.injEq] at read
  obtain ⟨⟨operands, moved⟩, behind⟩ := read
  have same := (always_operation regs form pc).run s
  exact ⟨_, Prod.ext (Prod.ext rfl moved) behind, operands, same⟩

namespace Cpu

theorem run_decode_of_none {cpu : Cpu} {s : Recorded Memory}
    (h : Entry.ofOpcode? (s.bus.opcodeAt cpu.regs.pc) = none) :
    cpu.decode.run s =
      ((.error { opcode := s.bus.opcodeAt cpu.regs.pc, pc := cpu.regs.pc }, cpu),
        s.afterReads cpu.regs.pc (s.bus.opcodeAt cpu.regs.pc).bytes.length) := by
  rw [decode, BusM.run_bind, FetchM.run_opcode_recorded]
  simp [h]

theorem run_decode_of_some {cpu : Cpu} {s : Recorded Memory} {entry : Entry}
    (h : Entry.ofOpcode? (s.bus.opcodeAt cpu.regs.pc) = some entry) :
    let pc := cpu.regs.pc
    let literals := pc + entry.opcode.bytes.length.toUInt16
    ∃ operation,
      cpu.decode.run s =
        ((.ok { entry, operation, pc }, cpu.withPc (pc + entry.size.toUInt16)),
          s.afterReads pc entry.size) ∧
      some operation.operands = OperandKind.arguments? cpu.regs entry.form.operands
        (s.bus.block literals entry.form.extraBytes) ∧
      operation.routine = entry.form.routine ∧ operation.policy = entry.form.policy := by
  intro pc literals
  have same : entry.opcode = s.bus.opcodeAt pc := Entry.opcode_of_mem h
  have listed : Entry.ofOpcode? entry.opcode = some entry := same ▸ h
  have next : literals + entry.form.extraBytes.toUInt16 = pc + entry.size.toUInt16 :=
    (address_add pc _ _).symm
  obtain ⟨operation, fetched, rest⟩ := FetchM.run_operation_recorded cpu.regs entry.form literals
    (s.afterReads pc entry.opcode.bytes.length)
  rw [next, ← Recorded.afterReads_add] at fetched
  refine ⟨operation, ?_, rest⟩
  rw [decode, BusM.run_bind, FetchM.run_opcode_recorded, ← same]
  simp only [listed, BusM.run_bind]
  rw [fetched]
  rfl

/-! ### Before a hole -/

theorem run_decode_of_hole {cpu : Cpu} {s : Recorded Memory}
    (h : s.bus.read cpu.regs.pc ∈ Opcode.holes) :
    cpu.decode.run s =
      ((.error (s.bus.faultAt cpu.regs.pc), cpu), s.afterReads cpu.regs.pc 1) := by
  have unlisted := (s.bus.ofOpcode?_opcodeAt_eq_none_iff _).mpr h
  have run := run_decode_of_none unlisted
  rw [Memory.opcodeAt_of_hole h] at run
  exact run

theorem run_step_of_hole {cpu : Cpu} {s : Recorded Memory}
    (running : cpu.stopped = false ∧ cpu.halted = false)
    (h : s.bus.read cpu.regs.pc ∈ Opcode.holes) :
    cpu.step.run s = ((.fault (s.bus.faultAt cpu.regs.pc), cpu), s.afterReads cpu.regs.pc 1) := by
  rw [step_of_running running, BusM.run_map, decodeExecute, BusM.run_bind, run_decode_of_hole h]
  rfl

/-- Takes steps one after the other and lists the outcome of each with the core it leaves. -/
def trace (cpu : Cpu) : (count : Nat) → BusM (List (Outcome × Cpu))
  | 0 => return []
  | count + 1 => do
      let (outcome, next) ← cpu.step
      let rest ← next.trace count
      return (outcome, next) :: rest

theorem run_trace_of_hole {cpu : Cpu} {s : Recorded Memory}
    (running : cpu.stopped = false ∧ cpu.halted = false)
    (h : s.bus.read cpu.regs.pc ∈ Opcode.holes) (count : Nat) :
    (cpu.trace count).run s =
      (List.replicate count (.fault (s.bus.faultAt cpu.regs.pc), cpu),
        { s with
          log := s.log ++ List.replicate count (Access.read cpu.regs.pc (s.bus.read cpu.regs.pc)) }) := by
  induction count generalizing s with
  | zero => simp [trace]
  | succ count ih =>
    rw [trace, BusM.run_bind, run_step_of_hole running h]
    dsimp only
    rw [BusM.run_bind, ih (s := s.afterReads cpu.regs.pc 1) h]
    simp [Recorded.afterReads, Memory.reads_one, List.replicate_succ]

/-! ### Anywhere else -/

theorem run_decode_of_not_hole {cpu : Cpu} {s : Recorded Memory}
    (h : s.bus.read cpu.regs.pc ∉ Opcode.holes) : ∃ decoded,
      cpu.decode.run s =
        ((.ok decoded, cpu.withPc (cpu.regs.pc + decoded.entry.size.toUInt16)),
          s.afterReads cpu.regs.pc decoded.entry.size) ∧
      Entry.ofOpcode? (s.bus.opcodeAt cpu.regs.pc) = some decoded.entry ∧
      decoded.pc = cpu.regs.pc ∧ decoded.Genuine ∧ decoded.entry.size ≤ 3 := by
  have filled := mt (s.bus.ofOpcode?_opcodeAt_eq_none_iff cpu.regs.pc).mp h
  obtain ⟨entry, found⟩ := Option.ne_none_iff_exists'.mp filled
  obtain ⟨operation, run, -, same⟩ := run_decode_of_some found
  have listed : Entry.ofOpcode? entry.opcode = some entry := Entry.opcode_of_mem found ▸ found
  exact ⟨_, run, found, rfl, ⟨listed, same.1, same.2⟩, (Entry.size_le_and_ne_pc found).1⟩

theorem decode_error_iff (cpu : Cpu) (m : Memory) (fault : Fault) :
    (cpu.decode.run m).1.1 = .error fault ↔
      m.read cpu.regs.pc ∈ Opcode.holes ∧ fault = m.faultAt cpu.regs.pc := by
  let s : Recorded Memory := { bus := m }
  rw [← (cpu.decode.run_recorded s).1]
  by_cases hole : m.read cpu.regs.pc ∈ Opcode.holes
  · rw [run_decode_of_hole (s := s) hole]
    simp [hole, s, eq_comm]
  · obtain ⟨decoded, run, -⟩ := run_decode_of_not_hole (s := s) hole
    rw [run]
    simp [hole]

/-- Decoding fails before a hole and nowhere else. It has then read the hole and left the core and
memory alone, and a running core does the same in every step from there on. Where decoding succeeds,
it gives the entry of the opcode at PC, moves PC past the instruction and changes nothing else; it
has read each byte of the instruction once, upwards. -/
theorem decode_faults_or_advances (cpu : Cpu) (m : Memory) :
    let pc := cpu.regs.pc
    let byte := m.read pc
    let fault : Fault := { opcode := .plain byte, pc }
    let running := cpu.stopped = false ∧ cpu.halted = false
    let untouched : Recorded Memory := { bus := m }
    ((∃ f, (cpu.decode.run m).1.1 = .error f) ↔ byte ∈ Opcode.holes) ∧
    ((∃ f, (cpu.step.run m).1.1 = .fault f) ↔ running ∧ byte ∈ Opcode.holes) ∧
    (byte ∈ Opcode.holes →
      cpu.decode.run untouched =
        ((.error fault, cpu), { bus := m, log := #[.read pc byte] }) ∧
      (running → ∀ count, (cpu.trace count).run untouched =
        (List.replicate count (.fault fault, cpu),
          { bus := m, log := Array.replicate count (.read pc byte) }))) ∧
    (byte ∉ Opcode.holes → ∃ decoded,
      cpu.decode.run untouched =
        ((.ok decoded, cpu.withPc (pc + decoded.entry.size.toUInt16)),
          { bus := m, log := (m.reads pc decoded.entry.size).toArray }) ∧
      Entry.ofOpcode? (m.opcodeAt pc) = some decoded.entry ∧ decoded.pc = pc ∧
      decoded.Genuine ∧ decoded.entry.size ≤ 3) := by
  intro pc byte fault running untouched
  refine ⟨?_, ?_, ?_, ?_⟩
  · simp [decode_error_iff, byte, pc]
  · simp [step_fault_iff, decode_error_iff, running, byte, pc]
  · intro hole
    refine ⟨(run_decode_of_hole (s := untouched) hole).trans ?_, fun run count =>
      (run_trace_of_hole (s := untouched) run hole count).trans ?_⟩
    · simp [untouched, Recorded.afterReads, Memory.reads_one, pc, byte, fault, Memory.faultAt]
    · simp [untouched, pc, byte, fault, Memory.faultAt]
  · intro solid
    obtain ⟨decoded, run, rest⟩ := run_decode_of_not_hole (s := untouched) solid
    refine ⟨decoded, run.trans ?_, rest⟩
    simp [untouched, Recorded.afterReads, pc]

end Cpu

end Sm83
