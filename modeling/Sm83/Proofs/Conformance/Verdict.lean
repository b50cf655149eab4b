import Sm83.Proofs.Conformance.Report
import Sm83.Proofs.Conformance.Start
import Sm83.Proofs.Step

/-!
# The verdict on a case

A case is judged by the machine that its step leaves: it passes if every expectation holds there
and PC is where it has to be (`verdict`). Whether an expectation holds is said here in terms of
single flags and single cells, and what is reported is exactly what does not hold, word for word
(`verdict_iff_holds`).
-/

namespace Sm83

/-- Every flag of the set is up. -/
def Flags.Includes (f set : Flags) : Prop :=
  (set.z = true → f.z = true) ∧ (set.n = true → f.n = true) ∧
    (set.h = true → f.h = true) ∧ (set.c = true → f.c = true)

theorem Flags.contains_iff (f set : Flags) : f.contains set = true ↔ f.Includes set := by
  have implies (a b : Bool) : (!a || b) = true ↔ (a = true → b = true) := by
    cases a <;> simp
  simp only [contains, Includes, Bool.and_eq_true, implies, and_assoc]

theorem Memory.block_eq_iff (m : Memory) (address : UInt16) (bytes : List UInt8) :
    m.block address bytes.length = bytes ↔
      ∀ i (h : i < bytes.length), m.read (address + i.toUInt16) = bytes[i] := by
  constructor
  · intro same i h
    have cell := List.getElem_of_eq same (by simpa using h)
    simpa [block] using cell
  · intro cells
    refine List.ext_getElem (m.length_block address _) fun i _ h => ?_
    rw [← cells i h]
    simp [block]

namespace Conformance

/-! ### Expectations -/

namespace Field

/-- The machine has the piece of state with its value. -/
def Holds (field : Field) (machine : Machine) : Prop :=
  match field with
  | reg8 r value => machine.cpu.regs.get8 r = value
  | reg16 r value => machine.cpu.regs.get16 r = value
  | flag set value => machine.cpu.regs.f.Includes set ↔ value = true
  | memory address bytes =>
      ∀ i (h : i < bytes.length), machine.memory.read (address + i.toUInt16) = bytes[i]

/-- What is reported where the field does not hold. -/
def mismatch (field : Field) (machine : Machine) : Mismatch :=
  match field with
  | reg8 r value => .reg8 r value (machine.cpu.regs.get8 r)
  | reg16 r value => .reg16 r value (machine.cpu.regs.get16 r)
  | flag set value => .flag set value (machine.cpu.regs.f.contains set)
  | memory address bytes => .memory address bytes (machine.memory.block address bytes.length)

theorem check_eq_none_iff (field : Field) (machine : Machine) :
    field.check machine = none ↔ field.Holds machine := by
  cases field with
  | reg8 r value => simp [check, Holds]
  | reg16 r value => simp [check, Holds]
  | flag set value =>
    have same : machine.cpu.regs.f.contains set = value ↔ (flag set value).Holds machine := by
      rw [Holds, ← Flags.contains_iff]
      exact Bool.eq_iff_iff
    rw [← same]
    simp [check]
  | memory address bytes => simp [check, Holds, ← Memory.block_eq_iff]

instance (field : Field) (machine : Machine) : Decidable (field.Holds machine) :=
  decidable_of_iff _ (field.check_eq_none_iff machine)

theorem check_eq (field : Field) (machine : Machine) :
    field.check machine =
      if field.Holds machine then none else some (field.mismatch machine) := by
  by_cases holds : field.Holds machine
  · rw [if_pos holds]
    exact (field.check_eq_none_iff machine).mpr holds
  · rw [if_neg holds]
    have found := mt (field.check_eq_none_iff machine).mp holds
    cases field <;> exact if_neg fun same => found (if_pos same)

theorem filterMap_check (fields : List Field) (machine : Machine) :
    fields.filterMap (·.check machine) =
      (fields.filter fun field => ¬field.Holds machine).map (·.mismatch machine) := by
  induction fields with
  | nil => rfl
  | cons field rest ih =>
    rw [List.filterMap_cons, ih, check_eq]
    by_cases holds : field.Holds machine <;> simp [holds]

end Field

namespace Case

/-- PC is right behind the instruction, or an expectation says where it has to be. -/
def PcHolds (case : Case) (size : Nat) (machine : Machine) : Prop :=
  (∃ value, .reg16 .pc value ∈ case.expectations) ∨
    machine.cpu.regs.pc = case.origin + size.toUInt16

theorem any_namesPc_iff (case : Case) :
    case.expectations.any Field.namesPc = true ↔
      ∃ value, .reg16 .pc value ∈ case.expectations := by
  rw [List.any_eq_true]
  constructor
  · rintro ⟨field, there, names⟩
    unfold Field.namesPc at names
    split at names
    next value => exact ⟨value, there⟩
    next => cases names
  · rintro ⟨value, there⟩
    exact ⟨_, there, rfl⟩

instance (case : Case) (size : Nat) (machine : Machine) : Decidable (case.PcHolds size machine) :=
  have : Decidable (∃ value, .reg16 .pc value ∈ case.expectations) :=
    decidable_of_iff _ case.any_namesPc_iff
  inferInstanceAs (Decidable (_ ∨ _))

/-- Everything that does not hold, in the order of the expectations and PC last. -/
def shortcomings (case : Case) (size : Nat) (machine : Machine) : List Mismatch :=
  (case.expectations.filter fun field => ¬field.Holds machine).map (·.mismatch machine) ++
    if case.PcHolds size machine then []
    else [.reg16 .pc (case.origin + size.toUInt16) machine.cpu.regs.pc]

theorem mismatches_eq (case : Case) (size : Nat) (machine : Machine) :
    case.mismatches size machine = case.shortcomings size machine := by
  have pc : case.checkPc size machine = if case.PcHolds size machine then []
      else [.reg16 .pc (case.origin + size.toUInt16) machine.cpu.regs.pc] := by
    refine ite_congr (propext ?_) (fun _ => rfl) (fun _ => rfl)
    rw [Bool.or_eq_true, decide_eq_true_iff, any_namesPc_iff, PcHolds]
  rw [mismatches, Field.filterMap_check, pc, shortcomings]

theorem shortcomings_eq_nil_iff (case : Case) (size : Nat) (machine : Machine) :
    case.shortcomings size machine = [] ↔
      (∀ field ∈ case.expectations, field.Holds machine) ∧ case.PcHolds size machine := by
  rw [shortcomings, List.append_eq_nil_iff, List.map_eq_nil_iff, List.filter_eq_nil_iff]
  simp

/-! ### The step of a case -/

/-- The machine after the step of the case. -/
def after (case : Case) : Machine :=
  let ((_, cpu), memory) := case.start.cpu.step.run case.start.memory
  { cpu, memory }

/-- The case has run into a hole. -/
def AtHole (case : Case) : Prop :=
  case.start.memory.read case.start.cpu.regs.pc ∈ Opcode.holes

theorem run_of_hole {case : Case} (h : case.AtHole) :
    case.run = .error
      { name := case.name
        cause := .fault (case.start.memory.faultAt case.start.cpu.regs.pc) } := by
  have outcome := (Cpu.step_fault_iff case.start.cpu case.start.memory _).mpr
    ⟨case.start_running, (Cpu.decode_error_iff _ _ _).mpr ⟨h, rfl⟩⟩
  rw [run]
  dsimp only
  rw [outcome]

theorem run_of_executed {case : Case} {entry : Entry}
    (h : (case.start.cpu.step.run case.start.memory).1.1 = .executed entry) :
    case.run =
      if case.shortcomings entry.size case.after = [] then .ok ()
      else .error
        { name := case.name
          cause := .mismatches entry (case.shortcomings entry.size case.after) } := by
  let left := case.start.cpu.step.run case.start.memory
  have found : case.mismatches entry.size { cpu := left.1.2, memory := left.2 } =
      case.shortcomings entry.size case.after := case.mismatches_eq entry.size case.after
  rw [run]
  dsimp only
  rw [h]
  dsimp only
  rw [found]
  cases case.shortcomings entry.size case.after <;> rfl

theorem run_eq_ok_iff {case : Case} {entry : Entry}
    (h : (case.start.cpu.step.run case.start.memory).1.1 = .executed entry) :
    case.run = .ok () ↔
      (∀ field ∈ case.expectations, field.Holds case.after) ∧
        case.PcHolds entry.size case.after := by
  rw [run_of_executed h, ← shortcomings_eq_nil_iff]
  by_cases clean : case.shortcomings entry.size case.after = [] <;> simp [clean]

theorem eq_of_run_eq_error {case : Case} {entry : Entry} {failure : Failure}
    (h : (case.start.cpu.step.run case.start.memory).1.1 = .executed entry)
    (fails : case.run = .error failure) :
    failure =
      { name := case.name
        cause := .mismatches entry (case.shortcomings entry.size case.after) } := by
  rw [run_of_executed h] at fails
  split at fails
  · cases fails
  · cases fails
    rfl

theorem executed_of_not_hole {case : Case} (h : ¬case.AtHole) : ∃ entry,
    Entry.ofOpcode? (case.start.memory.opcodeAt case.start.cpu.regs.pc) = some entry ∧
      (case.start.cpu.step.run case.start.memory).1.1 = .executed entry := by
  have filled := mt (Memory.ofOpcode?_opcodeAt_eq_none_iff _ _).mp h
  obtain ⟨entry, found⟩ := Option.ne_none_iff_exists'.mp filled
  exact ⟨entry, found, (Cpu.executed_iff _ _ entry).mpr ⟨case.start_running, found⟩⟩

theorem failure?_eq_none_iff (case : Case) : case.failure? = none ↔ case.run = .ok () := by
  unfold failure?
  cases case.run <;> simp

theorem isSome_failure? (case : Case) : case.failure?.isSome = !case.run.isOk := by
  unfold failure?
  cases case.run <;> rfl

end Case

/-! ### Batches -/

theorem runAll_eq_ok_iff (cases : List Case) (passed : Nat) :
    runAll cases = .ok passed ↔
      passed = cases.length ∧ ∀ case ∈ cases, case.run = .ok () := by
  have clean : cases.filterMap Case.failure? = [] ↔ ∀ case ∈ cases, case.run = .ok () := by
    simp only [List.filterMap_eq_nil_iff, Case.failure?_eq_none_iff]
  rw [← clean, runAll]
  cases cases.filterMap Case.failure? <;> simp [eq_comm]

theorem runAll_of_failing {cases : List Case} (h : ¬∀ case ∈ cases, case.run = .ok ()) :
    runAll cases =
      .error { total := cases.length, failures := cases.filterMap Case.failure? } := by
  rw [runAll]
  split
  next clean =>
    rw [List.filterMap_eq_nil_iff] at clean
    exact absurd (fun case there => (case.failure?_eq_none_iff).mp (clean case there)) h
  next => rfl

/-! ### The verdict -/

theorem Case.cause_ne_parked (case : Case) {failure : Failure} (h : case.run = .error failure) :
    failure.cause ≠ .halted ∧ failure.cause ≠ .stopped := by
  by_cases hole : case.AtHole
  · rw [run_of_hole hole] at h
    cases h
    exact ⟨nofun, nofun⟩
  · obtain ⟨entry, -, executed⟩ := executed_of_not_hole hole
    obtain rfl := eq_of_run_eq_error executed h
    exact ⟨nofun, nofun⟩

theorem Case.fault_iff (case : Case) :
    (∃ failure fault, case.run = .error failure ∧ failure.cause = .fault fault) ↔
      case.AtHole := by
  constructor
  · rintro ⟨failure, fault, fails, cause⟩
    by_cases hole : case.AtHole
    · exact hole
    obtain ⟨entry, -, executed⟩ := executed_of_not_hole hole
    obtain rfl := eq_of_run_eq_error executed fails
    cases cause
  · intro hole
    exact ⟨_, _, run_of_hole hole, rfl⟩

/-- What does not hold, in words. -/
theorem Case.map_text_shortcomings (case : Case) (size : Nat) (machine : Machine)
    {report : Field → String}
    (reported : ∀ field : Field, ¬field.Holds machine →
      (field.mismatch machine).text = report field) :
    (case.shortcomings size machine).map Mismatch.text =
      (case.expectations.filter fun field => ¬field.Holds machine).map report ++
        if case.PcHolds size machine then []
        else ["PC: expected 0x" ++ Hex.padded 4 (case.origin + size.toUInt16).toNat ++ ", got 0x" ++
          Hex.padded 4 machine.cpu.regs.pc.toNat] := by
  rw [shortcomings, List.map_append, List.map_map]
  congr 1
  · refine List.map_congr_left fun field there => reported field ?_
    simpa using (List.mem_filter.mp there).2
  · split
    · rfl
    · rw [List.map_singleton, Mismatch.text_reg16]
      rfl

/-- Before the step of a case everything is zero but for its origin in PC, its program there and
its presets over both, the later ones over the earlier ones. A case fails with a fault if there is a
hole at PC then, and otherwise its step executes an instruction. It then passes if every expectation
holds afterwards and PC is right behind the instruction or named by an expectation. If it fails, the
message lists what does not hold, in the order of the expectations, with PC at the end. A batch
passes if every case in it does, and the message of one that fails counts the cases that fail and
has their messages. -/
theorem verdict_iff_holds :
    (∀ case : Case,
      let start := case.start
      let program := cellsOf case.origin (case.opcode ++ case.extra)
      let stores := case.presets.reverse.flatMap Field.stores ++
        (program ++ [(.pc, .word case.origin)])
      let pc := start.cpu.regs.pc
      let byte := start.memory.read pc
      let hole := byte ∈
        [0xD3, 0xDB, 0xDD, 0xE3, 0xE4, 0xEB, 0xEC, 0xED, 0xF4, 0xFC, (0xFD : UInt8)]
      let step := start.cpu.step.run start.memory
      let after : Machine := { cpu := step.1.2, memory := step.2 }
      let report : Field → String
        | .reg8 r value =>
            r.name ++ ": expected 0x" ++ Hex.padded 2 value.toNat ++ ", got 0x" ++
              Hex.padded 2 (after.cpu.regs.get8 r).toNat
        | .reg16 r value =>
            r.name ++ ": expected 0x" ++ Hex.padded 4 value.toNat ++ ", got 0x" ++
              Hex.padded 4 (after.cpu.regs.get16 r).toNat
        | .flag set value =>
            let letters := [("Z", set.z), ("N", set.n), ("H", set.h), ("C", set.c)].filterMap
              fun (letter, up) => if up then some letter else none
            "Flags(" ++ (if letters = [] then "0x0" else " | ".intercalate letters) ++ ")" ++
              ": expected " ++ toString value ++ ", got " ++ toString (!value)
        | .memory address bytes =>
            let found := (List.range bytes.length).map fun i =>
              after.memory.read (address + i.toUInt16)
            "mem[0x" ++ Hex.padded 4 address.toNat ++ "]: expected " ++ Hex.row bytes ++ ", got " ++
              Hex.row found
      (∀ location : Location, location.content start.cpu.regs start.memory =
        (stores.lookup location).getD location.zero) ∧
      start.cpu =
        { regs := start.cpu.regs
          interrupts := { enabled := false, pending := false, delayed := false }
          halted := false
          stopped := false } ∧
      ((∃ failure fault, case.run = .error failure ∧ failure.cause = .fault fault) ↔ hole) ∧
      (∀ failure, case.run = .error failure →
        failure.cause ≠ .halted ∧ failure.cause ≠ .stopped) ∧
      (hole → ∃ failure, case.run = .error failure ∧
        failure.message = "case `" ++ case.name ++ "`: " ++ "unimplemented opcode 0x" ++
          Hex.padded 2 byte.toNat ++ " at PC=0x" ++ Hex.padded 4 pc.toNat) ∧
      (¬hole → ∃ entry, Entry.ofOpcode? (start.memory.opcodeAt pc) = some entry ∧
        step.1.1 = .executed entry ∧
        let behind := case.origin + entry.size.toUInt16
        (case.run = .ok () ↔
          (∀ field ∈ case.expectations, field.Holds after) ∧ case.PcHolds entry.size after) ∧
        ∀ failure, case.run = .error failure →
          failure.message = "case `" ++ case.name ++ "` (" ++ entry.text ++ "): " ++
            "; ".intercalate (
              (case.expectations.filter fun field => ¬field.Holds after).map report ++
              if case.PcHolds entry.size after then []
              else ["PC: expected 0x" ++ Hex.padded 4 behind.toNat ++ ", got 0x" ++
                Hex.padded 4 after.cpu.regs.pc.toNat]))) ∧
    (∀ cases : List Case,
      (runAll cases = .ok cases.length ↔ ∀ case ∈ cases, case.run = .ok ()) ∧
      ((¬∀ case ∈ cases, case.run = .ok ()) → ∃ batch, runAll cases = .error batch ∧
        batch.message = toString (cases.countP fun case => !case.run.isOk) ++ " of " ++
          toString cases.length ++ " cases failed:\n  " ++
          "\n  ".intercalate (cases.filterMap fun case =>
            match case.run with
            | .ok () => none
            | .error failure => some failure.message))) ∧
    [Reg8.a, .b, .c, .d, .e, .h, .l].map Reg8.name = ["A", "B", "C", "D", "E", "H", "L"] ∧
    [Reg16.af, .bc, .de, .hl, .sp, .pc].map Reg16.name = ["AF", "BC", "DE", "HL", "SP", "PC"] := by
  refine ⟨?_, ?_, rfl, rfl⟩
  · intro case start program stores pc byte hole step after report
    have reported (field : Field) (fails : ¬field.Holds after) :
        (field.mismatch after).text = report field := by
      cases field with
      | reg8 r value => exact Mismatch.text_reg8 r value _
      | reg16 r value => exact Mismatch.text_reg16 r value _
      | flag set value =>
        have other : after.cpu.regs.f.contains set = !value := by
          rw [Field.Holds, ← Flags.contains_iff, ← Bool.eq_iff_iff] at fails
          exact Bool.eq_not.mpr fails
        rw [Field.mismatch, Mismatch.text_flag, Flags.text_eq, other]
      | memory address bytes => exact Mismatch.text_memory address bytes _
    refine ⟨case.content_start, case.cpu_start, case.fault_iff, fun _ => case.cause_ne_parked,
      fun found => ?_, fun solid => ?_⟩
    · refine ⟨_, Case.run_of_hole found, ?_⟩
      rw [Failure.message_fault, Memory.faultAt, Fault.message_plain]
      simp only [String.append_assoc, -String.reduceAppend]
      rfl
    · obtain ⟨entry, found, executed⟩ := Case.executed_of_not_hole solid
      refine ⟨entry, found, executed, Case.run_eq_ok_iff executed, fun failure fails => ?_⟩
      rw [Case.eq_of_run_eq_error executed fails, Failure.message_mismatches,
        Case.map_text_shortcomings case entry.size case.after reported]
      rfl
  · intro cases
    refine ⟨by simp [runAll_eq_ok_iff], fun failing => ⟨_, runAll_of_failing failing, ?_⟩⟩
    have failures (case : Case) : case.failure?.map Failure.message =
        match case.run with
        | .ok () => none
        | .error failure => some failure.message := by
      rw [Case.failure?]
      cases case.run <;> rfl
    rw [BatchFailure.message, List.length_filterMap_eq_countP, List.map_filterMap]
    simp only [Case.isSome_failure?, failures]

end Conformance

end Sm83
