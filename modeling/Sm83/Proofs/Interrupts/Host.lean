import Sm83.Proofs.Interrupts

/-!
# When the host assigns the interrupt flag

A host that services interrupts clears the flag and leaves an EI that is on its way there. When such
an EI takes effect is a matter of the instructions alone: at the end of the instruction after it,
or, if it ran just as another EI took effect, one instruction later. From reset on, the flag comes
up at a RETI and where an EI is due, and nowhere else (`enabled_next_iff_due`). So of two EIs in a
row the second comes late once the host has cleared the flag between it and the next instruction
(`second_ei_comes_late`).
-/

namespace Sm83

/-- Whether an EI takes effect at the end of the instruction that comes after these, the newest of
them first. -/
def eiDue : List String → Bool
  | [] => false
  | [name] => name == "EI"
  | name :: previous :: before =>
      if name = "EI" then !eiDue (previous :: before)
      else name != "DI" && previous == "EI" && eiDue before

/-- Whether the newest instruction is an EI that has to wait, since another took effect as it ran.
-/
def eiHeldUp : List String → Bool
  | [] => false
  | name :: earlier => name == "EI" && eiDue earlier

theorem eiDue_cons (name : String) (earlier : List String) :
    eiDue (name :: earlier) =
      if name = "EI" then !eiDue earlier else name != "DI" && eiHeldUp earlier := by
  cases earlier with
  | nil => by_cases ei : name = "EI" <;> simp [eiDue, eiHeldUp, ei]
  | cons previous before => by_cases ei : name = "EI" <;> simp [eiDue, eiHeldUp, ei, Bool.and_assoc]

theorem eiDue_of_eiHeldUp {recent : List String} (h : eiHeldUp recent = true) :
    eiDue recent = false := by
  cases recent with
  | nil => rfl
  | cons name earlier =>
    obtain ⟨ei, due⟩ : name = "EI" ∧ eiDue earlier = true := by simpa [eiHeldUp] using h
    simp [eiDue_cons, ei, due]

/-- An EI that is not held up is due, and nothing else makes one due but one that was held up. -/
theorem eiDue_iff (recent : List String) :
    eiDue recent = true ↔
      (recent.head? = some "EI" ∧ eiHeldUp recent = false) ∨
      (recent.head? ≠ some "EI" ∧ recent.head? ≠ some "DI" ∧ eiHeldUp recent.tail = true) := by
  cases recent with
  | nil => simp [eiDue, eiHeldUp]
  | cons name earlier =>
    rw [eiDue_cons]
    by_cases ei : name = "EI"
    · simp [ei, eiHeldUp]
    · simp [ei]

/-! ### The latch and what is due -/

/-- The latch has an EI on its way where the instructions so far, the newest first, have one. -/
structure Interrupts.Carries (recent : List String) (latch : Interrupts) : Prop where
  pending_eq : latch.pending = eiHeldUp recent
  delayed_eq : latch.delayed = eiDue recent

namespace Interrupts

variable {recent : List String} {latch : Interrupts}

theorem enabled_after_iff (latch : Interrupts) (name : String) :
    (latch.after name).enabled = true ↔
      name ≠ "DI" ∧ (name = "RETI" ∨ latch.enabled = true ∨ latch.delayed = true) := by
  rw [after, enabled_advance, Bool.or_eq_true]
  by_cases di : name = "DI"
  · simp [di, disable]
  by_cases ei : name = "EI"
  · simp [ei, schedule]
  by_cases reti : name = "RETI"
  · simp [reti, enable]
  simp [di, ei, reti]

theorem Carries.after (h : latch.Carries recent) (name : String) :
    (latch.after name).Carries (name :: recent) := by
  -- The two stages are never taken at once, so the one behind moves up.
  have apart : latch.pending = true → latch.delayed = false := fun pending => by
    rw [h.delayed_eq]
    exact eiDue_of_eiHeldUp (h.pending_eq ▸ pending)
  by_cases ei : name = "EI"
  · refine ⟨?_, ?_⟩
    · simp [Interrupts.after, ei, pending_advance, schedule, eiHeldUp, h.delayed_eq]
    · simp [Interrupts.after, ei, delayed_advance, schedule, eiDue_cons, h.delayed_eq]
  by_cases di : name = "DI"
  · refine ⟨?_, ?_⟩
    · simp [Interrupts.after, di, pending_advance, disable, eiHeldUp]
    · simp [Interrupts.after, di, delayed_advance, disable, eiDue_cons]
  have stages : (latch.after name).pending = (latch.delayed && latch.pending) ∧
      (latch.after name).delayed = (!latch.delayed && latch.pending) := by
    by_cases reti : name = "RETI"
    · simp [Interrupts.after, reti, pending_advance, delayed_advance, enable]
    · simp [Interrupts.after, di, ei, reti, pending_advance, delayed_advance]
  refine ⟨?_, ?_⟩
  · rw [stages.1]
    cases pending : latch.pending <;> simp [eiHeldUp, ei, apart, pending]
  · rw [stages.2, eiDue_cons, if_neg ei, ← h.pending_eq]
    cases pending : latch.pending <;> simp [di, apart, pending]

end Interrupts

namespace Board

variable {σ : Type} [Bus σ]

theorem carries_next (board : Board σ) (event : Event σ) {recent : List String}
    (h : board.cpu.interrupts.Carries recent) :
    (board.next event).2.cpu.interrupts.Carries
      (((board.next event).1.toList.map fun entry => entry.form.mnemonic) ++ recent) := by
  by_cases assigns : event.Assigns
  · cases event with
    | setEnabled enabled => exact ⟨h.pending_eq, h.delayed_eq⟩
    | _ => exact assigns.elim
  rw [interrupts_next board assigns]
  cases (board.next event).1 with
  | none => exact h
  | some entry => exact h.after entry.form.mnemonic

theorem carries_run (board : Board σ) (events : List (Event σ)) {recent : List String}
    (h : board.cpu.interrupts.Carries recent) :
    (board.run events).2.cpu.interrupts.Carries
      (((board.run events).1.map fun entry => entry.form.mnemonic).reverse ++ recent) := by
  induction events generalizing board recent with
  | nil => exact h
  | cons event rest ih =>
    have later := ih _ (carries_next board event h)
    cases now : (board.next event).1 <;> simpa [run, now] using later

/-- In a run that no EI is on its way into and in which the host assigns the interrupt flag as it
likes, an instruction right after an EI that is not held up enables interrupts unless it is a DI. An
instruction at which they come to be enabled is a RETI, or it comes right after an EI, or one later
after an EI that was held up. -/
theorem enabled_next_iff_due (board : Board σ) (events : List (Event σ)) (event : Event σ)
    {entry : Entry}
    (idle : board.cpu.interrupts.pending = false ∧ board.cpu.interrupts.delayed = false)
    (executes : ((board.run events).2.next event).1 = some entry) :
    let recent := ((board.run events).1.map fun entry => entry.form.mnemonic).reverse
    let before := (board.run events).2.cpu.interrupts
    let name := entry.form.mnemonic
    let after := ((board.run events).2.next event).2.cpu.interrupts
    (recent.head? = some "EI" → eiHeldUp recent = false → name ≠ "DI" → after.enabled = true) ∧
    (before.enabled = false → after.enabled = true →
      name = "RETI" ∨ recent.head? = some "EI" ∨ eiHeldUp recent.tail = true) ∧
    (after.enabled = true ↔
      name ≠ "DI" ∧ (name = "RETI" ∨ before.enabled = true ∨ eiDue recent = true)) := by
  intro recent before name after
  have start : board.cpu.interrupts.Carries [] := ⟨idle.1, idle.2⟩
  have carried : before.Carries recent := by simpa using carries_run board events start
  have unassigned : ¬event.Assigns := by
    cases event with
    | setEnabled enabled => simp [next] at executes
    | _ => exact id
  have moved : after = before.after name := by
    have latch := interrupts_next (board.run events).2 unassigned
    rwa [executes] at latch
  have enabled_iff := before.enabled_after_iff name
  rw [← moved, carried.delayed_eq] at enabled_iff
  refine ⟨fun ei free proceeds => ?_, fun off on => ?_, enabled_iff⟩
  · have due := (eiDue_iff recent).mpr (.inl ⟨ei, free⟩)
    exact enabled_iff.mpr ⟨proceeds, .inr (.inr due)⟩
  · obtain ⟨-, reti | on | due⟩ := enabled_iff.mp on
    · exact .inl reti
    · exact absurd on (by simp [off])
    · rcases (eiDue_iff recent).mp due with ⟨ei, -⟩ | ⟨-, -, late⟩
      · exact .inr (.inl ei)
      · exact .inr (.inr late)

/-- Two EIs in a row after which the host clears the flag. -/
theorem enabled_next_iff_due_of_two_ei :
    let ei : Decoded := { entry := ⟨.plain 0xFB, .ei⟩, operation := .ei, pc := 0x0100 }
    let nop : Decoded := { entry := ⟨.plain 0x00, .nop⟩, operation := .nop, pc := 0x0102 }
    let board : Board Memory := { cpu := {}, bus := Memory.zero }
    let events : List (Event Memory) :=
      [.execute ei ⟨by decide, rfl, rfl⟩, .execute ei ⟨by decide, rfl, rfl⟩, .setEnabled false]
    let event : Event Memory := .execute nop ⟨by decide, rfl, rfl⟩
    let after := ((board.run events).2.next event).2.cpu.interrupts
    (board.cpu.interrupts.pending = false ∧ board.cpu.interrupts.delayed = false) ∧
    ((board.run events).2.next event).1 = some nop.entry ∧
    (after.enabled = true ↔
      "NOP" ≠ "DI" ∧ ("NOP" = "RETI" ∨ false = true ∨ eiDue ["EI", "EI"] = true)) := by
  intro ei nop board events event after
  have idle : board.cpu.interrupts.pending = false ∧ board.cpu.interrupts.delayed = false :=
    ⟨rfl, rfl⟩
  have executes : ((board.run events).2.next event).1 = some nop.entry := rfl
  exact ⟨idle, executes, (enabled_next_iff_due board events event idle executes).2.2⟩

/-- The second of two EIs in a row does not take effect at the end of the instruction after it, but
one later, where nothing calls for it. -/
theorem second_ei_comes_late :
    let ei : Decoded := { entry := ⟨.plain 0xFB, .ei⟩, operation := .ei, pc := 0x0100 }
    let nop : Decoded := { entry := ⟨.plain 0x00, .nop⟩, operation := .nop, pc := 0x0102 }
    let board : Board Memory := { cpu := {}, bus := Memory.zero }
    let events : List (Event Memory) :=
      [.execute ei ⟨by decide, rfl, rfl⟩, .execute ei ⟨by decide, rfl, rfl⟩, .setEnabled false]
    let event : Event Memory := .execute nop ⟨by decide, rfl, rfl⟩
    let once := (board.run events).2.next event
    let twice := once.2.next event
    (board.run events).1.getLast? = some ei.entry ∧
    once.1 = some nop.entry ∧ once.2.cpu.interrupts.enabled = false ∧
    twice.1 = some nop.entry ∧ twice.2.cpu.interrupts.enabled = true :=
  ⟨rfl, rfl, rfl, rfl, rfl⟩

end Board

end Sm83
