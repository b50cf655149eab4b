import Sm83.Proofs.Board

/-!
# When interrupts are enabled

Whether interrupts are enabled after a run is a matter of the instructions executed in it, whatever
the host has done in between (`enabled_iff_history`). The latch changes with the instructions alone
(`interrupts_run`), and after each of them it tracks all of them so far (`Tracks.after`).
-/

namespace Sm83

/-! ### The latch and one instruction -/

def Routine.latch : Routine → Interrupts → Interrupts
  | .di => Interrupts.disable
  | .ei => Interrupts.schedule
  | .reti => Interrupts.enable
  | _ => id

def Interrupts.after (latch : Interrupts) (mnemonic : String) : Interrupts :=
  (if mnemonic = "DI" then latch.disable
    else if mnemonic = "EI" then latch.schedule
    else if mnemonic = "RETI" then latch.enable
    else latch).advance

theorem Form.after_mnemonic (form : Form) (latch : Interrupts) :
    latch.after form.mnemonic = (form.routine.latch latch).advance := by
  cases form
  case load dst src =>
    have named : mnemonic (.load dst src) = "LDH" ∨ mnemonic (.load dst src) = "LD" := by
      rcases dst with _ | (_ | _) <;> rcases src with (_ | (_ | _)) | _ <;> simp [mnemonic]
    rcases named with named | named <;> rw [named] <;> rfl
  case alu op _ => cases op <;> rfl
  case adjust adjustment _ => cases adjustment <;> rfl
  case adjust16 adjustment _ => cases adjustment <;> rfl
  case loadAdjust adjustment _ _ => cases adjustment <;> rfl
  case rotateA rotation => cases rotation <;> rfl
  case shift op _ =>
    rcases op with rotation | _ | _ | _ | _
    case rotate => cases rotation <;> rfl
    all_goals rfl
  all_goals rfl

namespace Interrupts

theorem enabled_advance (latch : Interrupts) :
    latch.advance.enabled = (latch.enabled || latch.delayed) := by
  rcases latch with ⟨_ | _, _ | _, _ | _⟩ <;> rfl

theorem pending_advance (latch : Interrupts) :
    latch.advance.pending = (latch.delayed && latch.pending) := by
  rcases latch with ⟨_ | _, _ | _, _ | _⟩ <;> rfl

theorem delayed_advance (latch : Interrupts) :
    latch.advance.delayed = (!latch.delayed && latch.pending) := by
  rcases latch with ⟨_ | _, _ | _, _ | _⟩ <;> rfl

end Interrupts

/-! ### The latch and all instructions so far -/

/-- Interrupts were enabled at first and have not been disabled since, or an instruction enabled
them, either by being a RETI or by coming right after an EI, and has not been one that disables them,
nor has any after it. -/
def EnabledAfter (initially : Prop) (names : List String) : Prop :=
  (initially ∧ "DI" ∉ names) ∨
    ∃ before name after, names = before ++ name :: after ∧ "DI" ∉ name :: after ∧
      (name = "RETI" ∨ before.getLast? = some "EI")

theorem enabledAfter_append {initially : Prop} {names : List String} {name : String} :
    EnabledAfter initially (names ++ [name]) ↔
      name ≠ "DI" ∧
        (name = "RETI" ∨ names.getLast? = some "EI" ∨ EnabledAfter initially names) := by
  constructor
  · rintro (⟨h, undisturbed⟩ | ⟨before, cause, after, split, undisturbed, h⟩)
    · rw [List.mem_append, List.mem_singleton, not_or] at undisturbed
      exact ⟨Ne.symm undisturbed.2, .inr (.inr (.inl ⟨h, undisturbed.1⟩))⟩
    rcases List.eq_nil_or_concat after with rfl | ⟨after, last, rfl⟩
    · obtain ⟨rfl, same⟩ := List.append_inj' split rfl
      obtain rfl : name = cause := by simpa using same
      refine ⟨fun di => undisturbed (by simp [di]), ?_⟩
      rcases h with h | h
      · exact .inl h
      · exact .inr (.inl h)
    · rw [List.concat_eq_append, ← List.cons_append, ← List.append_assoc] at split
      obtain ⟨rfl, same⟩ := List.append_inj' split rfl
      obtain rfl : name = last := by simpa using same
      rw [List.concat_eq_append, ← List.cons_append, List.mem_append, List.mem_singleton,
        not_or] at undisturbed
      exact ⟨Ne.symm undisturbed.2, .inr (.inr (.inr ⟨before, cause, after, rfl, undisturbed.1, h⟩))⟩
  · rintro ⟨di, reti | ei | ⟨h, undisturbed⟩ | ⟨before, cause, after, rfl, undisturbed, h⟩⟩
    · exact .inr ⟨names, name, [], rfl, by simpa using Ne.symm di, .inl reti⟩
    · exact .inr ⟨names, name, [], rfl, by simpa using Ne.symm di, .inr ei⟩
    · exact .inl ⟨h, by simpa [undisturbed] using Ne.symm di⟩
    · refine .inr ⟨before, cause, after ++ [name], by simp, ?_, h⟩
      rw [← List.cons_append, List.mem_append, List.mem_singleton, not_or]
      exact ⟨undisturbed, Ne.symm di⟩

/-- How the latch stands to the instructions so far. An enabling that is still on its way either
comes from the last of them or comes too late to make a difference. -/
structure Interrupts.Tracks (initially : Prop) (names : List String) (latch : Interrupts) :
    Prop where
  enabled_iff : latch.enabled = true ↔ EnabledAfter initially names
  of_pending : latch.pending = true → latch.enabled = true
  of_delayed : latch.delayed = true → latch.enabled = true ∨ names.getLast? = some "EI"
  of_ei : names.getLast? = some "EI" → latch.enabled = true ∨ latch.delayed = true

namespace Interrupts

variable {initially : Prop} {names : List String} {latch : Interrupts}

theorem tracks_di : (latch.after "DI").Tracks initially (names ++ ["DI"]) := by
  have off : latch.after "DI" = {} := rfl
  rw [off]
  exact ⟨by simp [enabledAfter_append], by simp, by simp, by simp⟩

theorem tracks_reti : (latch.after "RETI").Tracks initially (names ++ ["RETI"]) := by
  have on : (latch.after "RETI").enabled = true := by
    change latch.enable.advance.enabled = true
    rw [enabled_advance]
    rfl
  exact ⟨by simp [on, enabledAfter_append], fun _ => on, fun _ => .inl on, fun _ => .inl on⟩

theorem Tracks.enabledAfter_iff (h : latch.Tracks initially names) (name : String)
    (di : name ≠ "DI") (reti : name ≠ "RETI") :
    EnabledAfter initially (names ++ [name]) ↔ latch.enabled = true ∨ latch.delayed = true := by
  rw [enabledAfter_append, ← h.enabled_iff]
  constructor
  · rintro ⟨-, reti' | ei | on⟩
    · exact absurd reti' reti
    · exact h.of_ei ei
    · exact .inl on
  · rintro (on | delayed)
    · exact ⟨di, .inr (.inr on)⟩
    · exact ⟨di, .inr (h.of_delayed delayed).symm⟩

theorem Tracks.after_ei (h : latch.Tracks initially names) :
    (latch.after "EI").Tracks initially (names ++ ["EI"]) := by
  have known := h.enabledAfter_iff "EI" (by decide) (by decide)
  have after : latch.after "EI" = latch.schedule.advance := rfl
  have last : (names ++ ["EI"]).getLast? = some "EI" := by simp
  rw [after]
  refine ⟨?_, ?_, fun _ => .inr last, fun _ => ?_⟩
  · rw [known, enabled_advance]
    simp [schedule]
  · rw [pending_advance, enabled_advance]
    simp +contextual [schedule]
  · -- An EI that was on its way takes effect now; with none, this one moves on at once.
    rw [enabled_advance, delayed_advance]
    cases delayed : latch.delayed <;> simp [schedule, delayed]

theorem Tracks.after_other (h : latch.Tracks initially names) {name : String}
    (other : name ≠ "DI" ∧ name ≠ "EI" ∧ name ≠ "RETI") :
    (latch.after name).Tracks initially (names ++ [name]) := by
  obtain ⟨di, ei, reti⟩ := other
  have known := h.enabledAfter_iff name di reti
  have after : latch.after name = latch.advance := by simp [Interrupts.after, di, ei, reti]
  have last : (names ++ [name]).getLast? ≠ some "EI" := by simpa using ei
  rw [after]
  refine ⟨?_, ?_, ?_, fun ei => absurd ei last⟩
  · rw [known, enabled_advance, Bool.or_eq_true]
  · rw [pending_advance, enabled_advance]
    simp +contextual
  · rw [delayed_advance, enabled_advance]
    intro armed
    have on := h.of_pending (by simp_all)
    exact .inl (by simp [on])

theorem Tracks.after (h : latch.Tracks initially names) (name : String) :
    (latch.after name).Tracks initially (names ++ [name]) := by
  by_cases di : name = "DI"
  · exact di ▸ tracks_di
  by_cases ei : name = "EI"
  · exact ei ▸ h.after_ei
  by_cases reti : name = "RETI"
  · exact reti ▸ tracks_reti
  exact h.after_other ⟨di, ei, reti⟩

theorem Tracks.after_all (h : latch.Tracks initially names) (later : List String) :
    (later.foldl Interrupts.after latch).Tracks initially (names ++ later) := by
  induction later generalizing latch names with
  | nil => rwa [List.append_nil]
  | cons name rest ih =>
    rw [List.append_cons]
    exact ih (h.after name)

theorem tracks_of_idle (idle : latch.pending = false ∧ latch.delayed = false) :
    latch.Tracks (latch.enabled = true) [] :=
  ⟨by simp [EnabledAfter], by simp [idle], by simp [idle], by simp⟩

end Interrupts

/-! ### Runs -/

def Interrupts.afterAll (latch : Interrupts) (executed : List Entry) : Interrupts :=
  (executed.map fun entry => entry.form.mnemonic).foldl Interrupts.after latch

theorem Decoded.Genuine.always_execute_interrupts {decoded : Decoded} (h : decoded.Genuine)
    (cpu : Cpu) :
    (decoded.operation.execute cpu).Always fun next =>
      next.interrupts = cpu.interrupts.after decoded.entry.form.mnemonic := by
  have settled (regs : Registers) : (decoded.operation.settle cpu regs).interrupts =
      (decoded.operation.routine.latch cpu.interrupts).advance := by
    cases decoded.operation <;> rfl
  rw [Operation.execute, BusM.always_map]
  refine BusM.always_of_forall fun regs => ?_
  rw [settled, h.routine_eq, Form.after_mnemonic]

theorem Cpu.always_step_interrupts (cpu : Cpu) :
    cpu.step.Always fun r => r.2.interrupts = cpu.interrupts.afterAll r.1.executed?.toList := by
  rcases cpu.step_cases with ⟨-, parked⟩ | ⟨-, -, parked⟩ | ⟨-, working⟩
  · exact parked ▸ rfl
  · exact parked ▸ rfl
  rw [working, BusM.always_map, decodeExecute, BusM.always_bind]
  refine cpu.always_decode.mono ?_
  rintro ⟨result, _⟩ ⟨genuine, pc, rfl⟩
  cases result with
  | error fault => exact rfl
  | ok decoded =>
    simp only [BusM.always_bind, BusM.always_pure]
    exact (genuine decoded rfl).always_execute_interrupts (cpu.withPc pc)

namespace Board

variable {σ : Type} [Bus σ]

/-- Nothing but the instruction executed in it changes the latch in an event. -/
theorem interrupts_next (board : Board σ) {event : Event σ} (h : ¬event.Assigns) :
    (board.next event).2.cpu.interrupts =
      board.cpu.interrupts.afterAll (board.next event).1.toList := by
  cases event with
  | step => exact board.cpu.always_step_interrupts.run board.bus
  | decode =>
    obtain ⟨-, pc, moved⟩ := board.cpu.always_decode.run board.bus
    rw [show (board.next .decode).2.cpu = board.cpu.withPc pc from moved]
    rfl
  | execute decoded genuine =>
    exact (genuine.always_execute_interrupts board.cpu).run board.bus
  | setEnabled enabled => exact absurd trivial h
  | _ => rfl

theorem interrupts_run (board : Board σ) {events : List (Event σ)}
    (h : ∀ event ∈ events, ¬event.Assigns) :
    (board.run events).2.cpu.interrupts =
      board.cpu.interrupts.afterAll (board.run events).1 := by
  induction events generalizing board with
  | nil => rfl
  | cons event rest ih =>
    obtain ⟨first, others⟩ := List.forall_mem_cons.mp h
    have later := ih (board.next event).2 others
    rw [interrupts_next board first] at later
    simpa [run, Interrupts.afterAll] using later

/-- In a run in which the host leaves the interrupt flag alone and which no EI is on its way into,
the instructions executed decide whether interrupts are enabled at the end. -/
theorem enabled_iff_history (board : Board σ) (events : List (Event σ))
    (idle : board.cpu.interrupts.pending = false ∧ board.cpu.interrupts.delayed = false)
    (unassigned : ∀ event ∈ events, ¬event.Assigns) :
    let (executed, last) := board.run events
    last.cpu.interrupts.enabled = true ↔
      EnabledAfter (board.cpu.interrupts.enabled = true)
        (executed.map fun entry => entry.form.mnemonic) := by
  have tracks := (Interrupts.tracks_of_idle idle).after_all
    ((board.run events).1.map fun entry => entry.form.mnemonic)
  have latch := interrupts_run board unassigned
  unfold Interrupts.afterAll at latch
  rw [← latch, List.nil_append] at tracks
  exact tracks.enabled_iff

/-- A core that halts between EI and the instruction after it is woken. -/
theorem enabled_iff_history_of_nap :
    let ei : Decoded := { entry := ⟨.plain 0xFB, .ei⟩, operation := .ei, pc := 0x0100 }
    let nop : Decoded := { entry := ⟨.plain 0x00, .nop⟩, operation := .nop, pc := 0x0101 }
    let board : Board Memory := { cpu := {}, bus := Memory.zero }
    let events : List (Event Memory) :=
      [.execute ei ⟨by decide, rfl, rfl⟩, .setParked true false, .step, .wake,
        .execute nop ⟨by decide, rfl, rfl⟩]
    (board.cpu.interrupts.pending = false ∧ board.cpu.interrupts.delayed = false) ∧
    (∀ event ∈ events, ¬event.Assigns) ∧
    ((board.run events).2.cpu.interrupts.enabled = true ↔
      EnabledAfter (false = true) ["EI", "NOP"]) := by
  intro ei nop board events
  have idle : board.cpu.interrupts.pending = false ∧ board.cpu.interrupts.delayed = false :=
    ⟨rfl, rfl⟩
  have unassigned : ∀ event ∈ events, ¬event.Assigns := by simp [events, Event.Assigns]
  exact ⟨idle, unassigned, enabled_iff_history board events idle unassigned⟩

end Board

end Sm83
