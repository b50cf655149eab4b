import Sm83.Proofs.Step

/-!
# What a run depends on

A program learns of a memory only what it reads. Two memories that agree on the cells it reads from
one of them give it the same values, so it makes the same accesses, and they still agree afterwards
(`run_logged_agree`). A run of the core is such a program, and so is each of its beginnings: runs of
any length depend on nothing but the cells they read (`trace_agree`), code they write themselves
included.
-/

namespace Sm83

open BusM
open FlatBus (memory)

/-- The memories have the same bytes in the region. -/
def Memory.Agree (region : UInt16 → Prop) (m m' : Memory) : Prop :=
  ∀ address, region address → m.read address = m'.read address

theorem Memory.Agree.write {region : UInt16 → Prop} {m m' : Memory} (h : m.Agree region m')
    (address : UInt16) (value : UInt8) :
    (m.write address value).Agree region (m'.write address value) := by
  intro other inside
  rw [read_write, read_write, h other inside]

def Access.ReadsIn (region : UInt16 → Prop) : Access → Prop
  | .read address _ => region address
  | .write _ _ => True

theorem BusM.run_logged_agree {α : Type} (program : BusM α) {region : UInt16 → Prop}
    {m m' : Memory} (agree : m.Agree region m')
    (inside : ∀ access ∈ (program.logged.run m).1.2, access.ReadsIn region) :
    (program.logged.run m').1 = (program.logged.run m).1 ∧
      (program.logged.run m).2.Agree region (program.logged.run m').2 := by
  -- A read gives both sides the same byte, and a write goes to both, so they agree all along.
  induction program generalizing m m' with
  | pure value => exact ⟨rfl, agree⟩
  | read address next ih =>
    simp only [logged, run, Bus.read, run_map, List.forall_mem_cons] at inside ⊢
    obtain ⟨here, later⟩ := inside
    have same : m'.read address = m.read address := (agree address here).symm
    rw [same]
    obtain ⟨value, behind⟩ := ih (m.read address) agree later
    rw [value]
    exact ⟨rfl, behind⟩
  | write address value next ih =>
    simp only [logged, run, Bus.write, run_map, List.forall_mem_cons] at inside ⊢
    obtain ⟨-, later⟩ := inside
    obtain ⟨result, behind⟩ := ih (agree.write address value) later
    rw [result]
    exact ⟨rfl, behind⟩

namespace Cpu

/-- Where a core is after the steps that are listed. -/
def afterTrace (cpu : Cpu) (steps : List (Outcome × Cpu)) : Cpu :=
  (steps.getLast?.map Prod.snd).getD cpu

theorem afterTrace_cons (cpu : Cpu) (step : Outcome × Cpu) (rest : List (Outcome × Cpu)) :
    cpu.afterTrace (step :: rest) = step.2.afterTrace rest := by
  cases rest with
  | nil => rfl
  | cons next rest => simp [afterTrace, List.getLast?_cons]

theorem trace_add (cpu : Cpu) (count later : Nat) :
    cpu.trace (count + later) = do
      let first ← cpu.trace count
      let rest ← (cpu.afterTrace first).trace later
      return first ++ rest := by
  induction count generalizing cpu with
  | zero => simp [trace, afterTrace]
  | succ count ih =>
    rw [Nat.add_right_comm, trace, trace]
    simp [ih, afterTrace_cons]

theorem logged_trace_add {σ : Type} [Bus σ] (cpu : Cpu) (count later : Nat) (bus : σ) :
    ((cpu.trace count).logged.run bus).1.2 <+:
      ((cpu.trace (count + later)).logged.run bus).1.2 := by
  rw [trace_add, logged_bind, run_bind, run_map]
  exact List.prefix_append _ _

/-- A run that reads only cells of a region from one memory goes the same way on a memory that
agrees with it there: each step has the same outcome and leaves the same core, the accesses are the
same, and the memories go on agreeing. Cells that are not written keep their values. -/
theorem trace_agree (cpu : Cpu) (count : Nat) {m m' : Memory} {region : UInt16 → Prop}
    (inside : ∀ access ∈ ((cpu.trace count).run { bus := m : Recorded Memory }).2.log,
      access.ReadsIn region)
    (agree : m.Agree region m') :
    ∀ k ≤ count,
      let r := (cpu.trace k).run { bus := m : Recorded Memory }
      let r' := (cpu.trace k).run { bus := m' : Recorded Memory }
      r'.1 = r.1 ∧ r'.2.log = r.2.log ∧ r.2.bus.Agree region r'.2.bus ∧
      ∀ address, (∀ value, .write address value ∉ r.2.log) →
        r.2.bus.read address = m.read address ∧ r'.2.bus.read address = m'.read address := by
  intro k bound r r'
  obtain ⟨later, rfl⟩ := Nat.exists_eq_add_of_le bound
  let program := cpu.trace k
  rw [run_of_unlogged] at inside
  have begun : ∀ access ∈ (program.logged.run m).1.2, access.ReadsIn region := by
    intro access made
    exact inside access (by simpa using (cpu.logged_trace_add k later m).subset made)
  obtain ⟨same, behind⟩ := program.run_logged_agree agree begun
  have first : r = _ := program.run_of_unlogged m
  have second : r' = _ := program.run_of_unlogged m'
  rw [first, second, same]
  refine ⟨rfl, rfl, behind, fun address unwritten => ?_⟩
  have unmade : ∀ value, .write address value ∉ (program.logged.run m).1.2 := by
    simpa using unwritten
  have unmade' : ∀ value, .write address value ∉ (program.logged.run m').1.2 := by
    rwa [same]
  exact ⟨program.read_run_of_unwritten m unmade, program.read_run_of_unwritten m' unmade'⟩

/-- `LD (HL), A` writes the instruction after it, an `EI`, which is then read and run. -/
theorem trace_agree_of_self_written :
    let cpu : Cpu := { regs := { a := 0xFB, l := 1 } }
    let m := Memory.zero.write 0 0x77
    let m' := m.write 0x8000 0xFF
    let region (address : UInt16) := address = 0 ∨ address = 1
    let r := (cpu.trace 2).run { bus := m : Recorded Memory }
    let r' := (cpu.trace 2).run { bus := m' : Recorded Memory }
    (∀ access ∈ r.2.log, access.ReadsIn region) ∧ m.Agree region m' ∧
    r'.1 = r.1 ∧ r'.2.log = r.2.log ∧ r.2.bus.Agree region r'.2.bus := by
  intro cpu m m' region r r'
  let load : Entry := ⟨.plain 0x77, .load (.memory (.pair .hl)) (.place (.reg .a))⟩
  let ei : Entry := ⟨.plain 0xFB, .ei⟩
  let written := m.write 1 0xFB
  let next := cpu.withPc 1
  have first : cpu.step.logged.run m =
      (((.executed load, next), [.read 0 0x77, .write 1 0xFB]), written) := by
    have byte : m.read 0 = 0x77 := Memory.read_write_self _ _ _
    have found : Entry.ofOpcode? (m.opcodeAt 0) = some load := by
      rw [Memory.opcodeAt, byte]
      rfl
    have fetched : (memory m).reads cpu.regs.pc load.size = [.read 0 0x77] :=
      (m.reads_one 0).trans (by rw [byte])
    have address : cpu.regs.get16 .hl = 1 := by decide
    have operation :
        (cpu.decodedAs (memory m) load).operation = .load (.memory 1) (.place (.reg .a)) :=
      congrArg (fun a => Instruction.load (.memory a) (.place (.reg .a))) address
    have step := cpu.run_logged_step m ⟨rfl, rfl⟩ found
    rw [operation, fetched] at step
    exact step
  have second : ∃ last, next.step.logged.run written =
      (((.executed ei, last), [.read 1 0xFB]), written) := by
    have byte : written.read 1 = 0xFB := Memory.read_write_self _ _ _
    have found : Entry.ofOpcode? (written.opcodeAt 1) = some ei := by
      rw [Memory.opcodeAt, byte]
      rfl
    have fetched : (memory written).reads next.regs.pc ei.size = [.read 1 0xFB] :=
      (written.reads_one 1).trans (by rw [byte])
    have step := next.run_logged_step written ⟨rfl, rfl⟩ found
    rw [fetched] at step
    exact ⟨_, step⟩
  have inside : ∀ access ∈ r.2.log, access.ReadsIn region := by
    obtain ⟨last, second⟩ := second
    simp [r, BusM.run_of_unlogged, trace, first, second, Access.ReadsIn, region]
  have agree : m.Agree region m' := by
    intro address there
    exact (Memory.read_write_of_ne m 0xFF (by rcases there with rfl | rfl <;> decide)).symm
  obtain ⟨same, logs, behind, -⟩ := cpu.trace_agree 2 inside agree 2 (Nat.le_refl 2)
  exact ⟨inside, agree, same, logs, behind⟩

end Cpu

end Sm83
