import Sm83.Proofs.Counters
import Sm83.Proofs.Traffic

/-!
# Addresses that outlast their registers

The address of a memory operand is settled when the instruction is decoded. Whatever happens to the
registers and to memory before the instruction is executed, it goes to that address and nowhere
else, while the registers and flags it works on are those that it finds then (`execute_decoded`).
-/

namespace Sm83

namespace Operation

/-- What an operation with a memory operand leaves in which location. -/
def effects (regs : Registers) (m : Memory) : Operation → List (Location × Content)
  | .load dst src => [(dst.location, .byte (src.value regs m))]
  | .loadAdjust adjustment dst src =>
      Reg16.hl.parts (.ofInt ((Word.join regs.h regs.l).toNat + adjustment.offset)) ++
        [(dst.location, .byte (src.value regs m))]
  | .load16 (.memory address) src =>
      [(.cell (address + 1), .byte (Word.high (src.value regs))),
        (.cell address, .byte (Word.low (src.value regs)))]
  | .alu op src =>
      let left := op.widened regs.a (src.value regs m) regs.f.c
      left.2.parts ++ [(.reg .a, .byte left.1)]
  | .adjust adjustment target =>
      let value := (Source.place target).value regs m
      (adjustment.flags value regs.f).parts ++ [(target.location, .byte (adjustment.result value))]
  | .shift op target =>
      let value := (Source.place target).value regs m
      let result := Byte.ofBits (op.bits value regs.f.c)
      Flags.parts { z := result == 0, n := false, h := false, c := op.lost value } ++
        [(target.location, .byte result)]
  | .testBit index target =>
      let value := (Source.place target).value regs m
      Flags.parts { z := !Byte.bit value index, n := false, h := true, c := regs.f.c }
  | .resetBit index target =>
      [(target.location, .byte (Byte.withBit ((Source.place target).value regs m) index false))]
  | .setBit index target =>
      [(target.location, .byte (Byte.withBit ((Source.place target).value regs m) index true))]
  | _ => []

end Operation

/-- Whether the instruction is of a kind that can have a memory operand. -/
def Instruction.reaches {α β ω : Type} : Instruction α β ω → Bool
  | .load _ _ | .loadAdjust _ _ _ | .load16 (.memory _) _ | .alu _ _ | .adjust _ _ | .shift _ _
  | .testBit _ _ | .resetBit _ _ | .setBit _ _ => true
  | _ => false

theorem Instruction.reaches_of_memory {α β ω : Type} {instruction : Instruction α β ω} {a : α}
    (there : .memory a ∈ instruction.operands) : instruction.reaches = true := by
  have condition_ne (condition : Option Condition) :
      (.memory a : Operand α β ω) ∉ conditionOperand condition := by
    cases condition <;> simp [conditionOperand]
  cases instruction
  case load16 dst src =>
    cases dst <;> cases src <;>
      simp [operands, reaches, WordPlace.operand, WordSource.operand] at there ⊢
  case jump condition target =>
    cases target <;> simp [operands, condition_ne, WordSource.operand] at there
  all_goals first | rfl | simp [operands, condition_ne] at there

/-- Neither H nor L is the place. -/
def Place.sparesHl {α : Type} : Place α → Bool
  | .reg r => r != .h && r != .l
  | .memory _ => true

/-- What is moved before HL is adjusted does not go to H or L. -/
def Instruction.sparesHl {α β ω : Type} : Instruction α β ω → Bool
  | .loadAdjust _ dst _ => dst.sparesHl
  | _ => true

theorem Place.location_ne_of_sparesHl {p : Place UInt16} (spared : p.sparesHl = true) :
    p.location ≠ .reg .h ∧ p.location ≠ .reg .l := by
  cases p with
  | reg r => simpa [sparesHl, location] using spared
  | memory address => exact ⟨nofun, nofun⟩

/-- Putting PC where it is changes nothing. -/
theorem Stored.drop_pc {stores : List (Location × Content)} {regs : Registers} {m : Memory}
    {after : Registers × Memory}
    (h : Stored (stores ++ [(.pc, .word regs.pc)]) (regs, m) after) :
    Stored stores (regs, m) after := by
  intro location
  rw [h location, List.lookup_append, Option.getD_or, getD_lookup_cons]
  by_cases here : location = .pc
  · rw [if_pos here, here]
    rfl
  · rw [if_neg here]
    rfl

/-- Neither does giving the flags the values that they have. -/
theorem Stored.drop_flags {stores : List (Location × Content)} {regs : Registers} {m : Memory}
    {after : Registers × Memory} (h : Stored (regs.f.parts ++ stores) (regs, m) after)
    (apart : ∀ which : Flag, .flag which ∉ stores.map Prod.fst) :
    Stored stores (regs, m) after := by
  intro location
  rw [h location]
  cases location with
  | flag which =>
    rw [(lookup_eq_none_iff stores _).mpr (apart which)]
    cases which <;> rfl
  | _ => rfl

namespace Operation

variable (cpu : Cpu) (m : Memory)

/-- Where there is no flag policy, what the operation puts into locations is all that is left. -/
theorem stored_settle {operation : Operation} (free : operation.policy = {})
    {stores : List (Location × Content)} {left : Registers × Memory}
    (stored : Stored stores (cpu.regs, m) left)
    (apart : ∀ which : Flag, .flag which ∉ stores.map Prod.fst) :
    Stored stores (cpu.regs, m) ((operation.settle cpu left.1).regs, left.2) := by
  rw [settle_of_kept free (stored.f_eq apart)]
  dsimp only
  rw [regs_control]
  exact stored

theorem flag_ne_location (which : Flag) (p : Place UInt16) : Location.flag which ≠ p.location := by
  cases p <;> nofun

theorem settle_of_reaches {operation : Operation} (reaches : operation.reaches = true)
    (after : Registers) :
    let left := operation.settle cpu after
    left = { cpu with regs := left.regs, interrupts := cpu.interrupts.advance } := by
  cases operation <;> first | rfl | cases reaches

theorem pc_not_mem_effects (operation : Operation) (regs : Registers) :
    .pc ∉ (operation.effects regs m).map Prod.fst := by
  have apart (p : Place UInt16) : Location.pc ≠ p.location := by cases p <;> nofun
  have flags (f : Flags) (content : Content) : (Location.pc, content) ∉ f.parts := by
    simp [Flags.parts]
  cases operation
  case load16 dst src => cases dst <;> simp [effects]
  all_goals simp [effects, apart, flags, Reg16.parts]

theorem stored_effects {operation : Operation} {a : UInt16}
    (there : .memory a ∈ operation.operands) (spared : operation.sparesHl = true) :
    let r := (operation.act cpu.regs).run m
    Stored (operation.effects cpu.regs m) (cpu.regs, m)
      ((operation.settle cpu r.1).regs, r.2) := by
  have reaches := Instruction.reaches_of_memory there
  cases operation
  case load dst src =>
    have stored := stored_load cpu.regs m cpu.regs.pc dst src
    exact stored_settle cpu m rfl stored.drop_pc fun which => by
      simp [effects, flag_ne_location]
  case loadAdjust adjustment dst src =>
    have apart := Place.location_ne_of_sparesHl spared
    have stored := stored_loadAdjust cpu.regs m cpu.regs.pc dst src adjustment apart
    rw [← List.append_assoc, adjustment.word_eq] at stored
    exact stored_settle cpu m rfl stored.drop_pc fun which => by
      simp [effects, Reg16.parts, flag_ne_location]
  case load16 dst src =>
    cases dst with
    | reg r => cases reaches
    | memory address =>
      have stored := stored_load16_memory cpu.regs m cpu.regs.pc address src
      dsimp only at stored
      rw [← List.append_assoc] at stored
      exact stored_settle cpu m rfl stored.drop_pc fun which => by simp [effects]
  case alu op src =>
    have left := op.apply_policy_eq cpu.regs.a (src.value cpu.regs m) cpu.regs.f
    simp only [act, effects, BusM.run_bind, Source.run_read, BusM.run_pure, regs_settle, ← left]
    exact (stored_set8 cpu.regs m .a _).trans (stored_f _ m _)
  case adjust adjustment target =>
    have stored := stored_adjust cpu m cpu.regs.pc adjustment target
    dsimp only at stored
    rw [← List.append_assoc] at stored
    exact stored.drop_pc
  case shift op target =>
    have stored := Prefixed.stored_shift cpu m cpu.regs.pc target op
    dsimp only at stored
    rw [← List.append_assoc] at stored
    exact stored.drop_pc
  case testBit index target =>
    exact (Prefixed.stored_testBit cpu m cpu.regs.pc target index).drop_pc
  case resetBit index target =>
    have stored := Prefixed.stored_setBit cpu m cpu.regs.pc target index false
    dsimp only at stored
    rw [← List.append_assoc] at stored
    exact stored.drop_pc.drop_flags fun which => by simp [flag_ne_location]
  case setBit index target =>
    have stored := Prefixed.stored_setBit cpu m cpu.regs.pc target index true
    dsimp only at stored
    rw [← List.append_assoc] at stored
    exact stored.drop_pc.drop_flags fun which => by simp [flag_ne_location]
  all_goals cases reaches

end Operation

/-! ### Accesses -/

def Access.address : Access → UInt16
  | read address _ | write address _ => address

def Planned.address : Planned → UInt16
  | read address | write address | writeByte address _ => address

theorem Planned.Met.address_eq {planned : Planned} {access : Access} (h : planned.Met access) :
    access.address = planned.address := by
  cases planned <;> cases access
  case writeByte.write => exact h.1
  all_goals first | exact h | exact h.elim

theorem Planned.addresses_eq {planned : List Planned} {accesses : List Access}
    (h : List.Forall₂ Met planned accesses) :
    accesses.map Access.address = planned.map address := by
  induction h with
  | nil => rfl
  | cons met _ ih => rw [List.map_cons, List.map_cons, met.address_eq, ih]

theorem Place.operand_of_reads {p : Place UInt16} {planned : Planned} (h : planned ∈ p.reads id) :
    (p.operand : Argument) = .memory planned.address := by
  cases p with
  | reg r => cases h
  | memory address => rw [List.mem_singleton.mp h]; rfl

theorem Place.operand_of_writes {p : Place UInt16} {planned : Planned} (h : planned ∈ p.writes id) :
    (p.operand : Argument) = .memory planned.address := by
  cases p with
  | reg r => cases h
  | memory address => rw [List.mem_singleton.mp h]; rfl

theorem Source.operand_of_reads {s : Source UInt16 UInt8} {planned : Planned}
    (h : planned ∈ s.reads id) : (s.operand : Argument) = .memory planned.address := by
  cases s with
  | place p => exact p.operand_of_reads h
  | literal value => cases h

/-- Only a word goes to more than one cell. -/
def Instruction.storesWord {α β ω : Type} : Instruction α β ω → Bool
  | .load16 (.memory _) _ => true
  | _ => false

theorem Operation.address_of_traffic {operation : Operation} {a : UInt16}
    (there : .memory a ∈ operation.operands)
    (single : ∀ b, .memory b ∈ operation.operands → b = a) (regs : Registers) {planned : Planned}
    (h : planned ∈ operation.traffic id regs) :
    planned.address = a ∨ operation.storesWord = true ∧ planned.address = a + 1 := by
  have reaches := Instruction.reaches_of_memory there
  have modified {p : Place UInt16} (h : planned ∈ p.reads id ++ p.writes id) :
      (p.operand : Argument) = .memory planned.address :=
    (List.mem_append.mp h).elim Place.operand_of_reads Place.operand_of_writes
  cases operation
  case load dst src | loadAdjust _ dst src =>
    rcases List.mem_append.mp h with read | written
    · exact .inl (single _ (Source.operand_of_reads read ▸ by simp [Instruction.operands]))
    · exact .inl (single _ (Place.operand_of_writes written ▸ by simp [Instruction.operands]))
  case load16 dst src =>
    cases dst with
    | reg r => cases reaches
    | memory address =>
      obtain rfl : address = a := single address List.mem_cons_self
      have cells : planned.address = address ∨ planned.address = address + 1 := by
        cases src <;>
          rcases List.mem_pair.mp h with rfl | rfl <;>
          simp [Planned.address]
      exact cells.imp id fun above => ⟨rfl, above⟩
  case alu op src =>
    exact .inl (single _ (Source.operand_of_reads h ▸ by simp [Instruction.operands]))
  case testBit index target =>
    exact .inl (single _ (Place.operand_of_reads h ▸ by simp [Instruction.operands]))
  case adjust _ target | shift _ target | resetBit _ target | setBit _ target =>
    exact .inl (single _ (modified h ▸ by simp [Instruction.operands]))
  all_goals cases reaches

/-! ### Decoded instructions -/

/-- The operation that a form becomes with an address for its memory operand. -/
def Form.fillAt (address : UInt16) (literals : List UInt8) (form : Form) : Operation :=
  Id.run (form.mapM (fun _ => pure address)
    (fun _ => pure (literalByte literals)) fun _ => pure (literalWord literals))

def Operand.isMemory {α β ω : Type} : Operand α β ω → Bool
  | .memory _ => true
  | _ => false

/-- No instruction has two memory operands. -/
theorem Entry.memory_unique {opcode : Opcode} {entry : Entry} (h : entry ∈ ofOpcode? opcode)
    {mode mode' : Addressing} (first : .memory mode ∈ entry.form.operands)
    (second : .memory mode' ∈ entry.form.operands) : mode = mode' := by
  have all : ∀ kind ∈ entry.form.operands, ∀ kind' ∈ entry.form.operands,
      kind.isMemory = true → kind'.isMemory = true → kind = kind' :=
    forall_of_all (by decide +kernel) (by decide +kernel) h
  exact Operand.memory.inj (all _ first _ second rfl rfl)

theorem Entry.sparesHl_of_mem {opcode : Opcode} {entry : Entry} (h : entry ∈ ofOpcode? opcode) :
    entry.form.sparesHl = true :=
  forall_of_all (by decide +kernel) (by decide +kernel) h

/-- The only word that goes to memory is SP, through a literal address. -/
theorem Entry.opcode_of_storesWord {opcode : Opcode} {entry : Entry}
    (h : entry ∈ ofOpcode? opcode) :
    entry.form.storesWord = true → entry.opcode = .plain 0x08 :=
  forall_of_all (by decide +kernel) (by decide +kernel) h

section

variable {regs : Registers} {literals : List UInt8} {a : UInt16}

theorem Form.exists_mode {form : Form} (there : .memory a ∈ (form.fill regs literals).operands) :
    ∃ mode, .memory mode ∈ form.operands ∧ a = mode.target regs literals := by
  have operands := congrArg Id.run <|
    Instruction.operands_mapM (m := Id) (fun mode : Addressing => pure (mode.target regs literals))
      (fun _ => pure (literalByte literals)) (fun _ => pure (literalWord literals)) form
  rw [List.idRun_mapM] at operands
  rw [show (form.fill regs literals).operands = _ from operands] at there
  obtain ⟨kind, inside, same⟩ := List.mem_map.mp there
  cases kind with
  | memory mode => exact ⟨mode, inside, (Operand.memory.inj same).symm⟩
  | _ => cases same

theorem Place.fill_eq {p : Place Addressing}
    (h : ∀ mode, (p.operand : OperandKind) = .memory mode → mode.target regs literals = a) :
    p.fill regs literals = Id.run (p.mapM fun _ => pure a) := by
  cases p with
  | reg r => rfl
  | memory mode => exact congrArg Place.memory (h mode rfl)

theorem Source.fill_eq {s : Source Addressing Unit}
    (h : ∀ mode, (s.operand : OperandKind) = .memory mode → mode.target regs literals = a) :
    s.fill regs literals =
      Id.run (s.mapM (fun _ => pure a) fun _ => pure (literalByte literals)) := by
  cases s with
  | place p => exact congrArg Source.place (Place.fill_eq h)
  | literal value => rfl

theorem Form.fill_eq_fillAt {form : Form}
    (h : ∀ mode, .memory mode ∈ form.operands → mode.target regs literals = a) :
    form.fill regs literals = form.fillAt a literals := by
  have operand {kind : OperandKind} (inside : kind ∈ form.operands) (mode : Addressing)
      (same : kind = .memory mode) : mode.target regs literals = a :=
    h mode (same ▸ inside)
  cases form
  case load dst src =>
    exact congrArg₂ Instruction.load (Place.fill_eq (operand List.mem_cons_self))
      (Source.fill_eq (operand (List.mem_cons_of_mem _ List.mem_cons_self)))
  case loadAdjust adjustment dst src =>
    exact congrArg₂ (Instruction.loadAdjust adjustment) (Place.fill_eq (operand List.mem_cons_self))
      (Source.fill_eq (operand (List.mem_cons_of_mem _ List.mem_cons_self)))
  case load16 dst src =>
    cases dst with
    | reg r => rfl
    | memory mode =>
      exact congrArg (fun address => Instruction.load16 (.memory address) (src.fill literals))
        (h mode List.mem_cons_self)
  case alu op src =>
    exact congrArg (Instruction.alu op)
      (Source.fill_eq (operand (List.mem_cons_of_mem _ List.mem_cons_self)))
  case adjust adjustment target =>
    exact congrArg (Instruction.adjust adjustment) (Place.fill_eq (operand List.mem_cons_self))
  case shift op target =>
    exact congrArg (Instruction.shift op) (Place.fill_eq (operand List.mem_cons_self))
  case testBit index target =>
    exact congrArg (Instruction.testBit index)
      (Place.fill_eq (operand (List.mem_cons_of_mem _ List.mem_cons_self)))
  case resetBit index target =>
    exact congrArg (Instruction.resetBit index)
      (Place.fill_eq (operand (List.mem_cons_of_mem _ List.mem_cons_self)))
  case setBit index target =>
    exact congrArg (Instruction.setBit index)
      (Place.fill_eq (operand (List.mem_cons_of_mem _ List.mem_cons_self)))
  all_goals rfl

theorem Form.sparesHl_fill (form : Form) :
    (form.fill regs literals).sparesHl = form.sparesHl := by
  cases form
  case loadAdjust adjustment dst src => cases dst <;> rfl
  all_goals rfl

theorem Form.storesWord_fill (form : Form) :
    (form.fill regs literals).storesWord = form.storesWord := by
  cases form
  case load16 dst src => cases dst <;> rfl
  all_goals rfl

end

/-- An instruction with a memory operand that a core has decoded can be executed by any core on any
memory. The address of the operand is the one that its mode stood for where it was decoded, and all
accesses go there; only SP, as a word, goes to the next cell too. The operand and the literals are as
they were decoded, while registers, flags and cells are those that execution finds. HL is adjusted
from what it is then. PC stays where it is. -/
theorem Cpu.execute_decoded (cpu : Cpu) (m : Memory) {decoded : Decoded} {a : UInt16}
    (given : (cpu.decode.run m).1.1 = .ok decoded)
    (there : .memory a ∈ decoded.operation.operands) (later : Cpu) (m' : Memory) :
    let literals := m.block (cpu.regs.pc + 1) 2
    let r := (decoded.operation.execute later).run { bus := m' : Recorded Memory }
    (∃ mode, .memory mode ∈ decoded.entry.form.operands ∧ a = mode.target cpu.regs literals) ∧
    decoded.operation = decoded.entry.form.fillAt a literals ∧
    (∀ access ∈ r.2.log, access.address = a ∨
      decoded.entry.opcode = .plain 0x08 ∧ access.address = a + 1) ∧
    Stored (decoded.operation.effects later.regs m') (later.regs, m') (r.1.regs, r.2.bus) ∧
    r.1 = { later with regs := r.1.regs, interrupts := later.interrupts.advance } ∧
    r.1.regs.pc = later.regs.pc := by
  intro literals r
  obtain ⟨listed, filled⟩ := filled_of_decode given
  have target {b : UInt16} (inside : .memory b ∈ decoded.operation.operands) :
      ∃ mode, .memory mode ∈ decoded.entry.form.operands ∧ b = mode.target cpu.regs literals :=
    Form.exists_mode (filled ▸ inside)
  obtain ⟨mode, named, address⟩ := target there
  have only {mode' : Addressing} (named' : .memory mode' ∈ decoded.entry.form.operands) :
      mode'.target cpu.regs literals = a := by
    rw [address, Entry.memory_unique listed named' named]
  have single (b : UInt16) (inside : .memory b ∈ decoded.operation.operands) : b = a := by
    obtain ⟨mode', named', rfl⟩ := target inside
    exact only named'
  have same : decoded.operation = decoded.entry.form.fillAt a literals := by
    rw [filled]
    exact Form.fill_eq_fillAt fun mode' => only
  have spared : decoded.operation.sparesHl = true := by
    rw [filled, Form.sparesHl_fill]
    exact Entry.sparesHl_of_mem listed
  let program := decoded.operation.act later.regs
  let left := program.logged.run m'
  have recorded : r = (decoded.operation.settle later left.1.1,
      { bus := left.2, log := left.1.2.toArray }) := by
    change (decoded.operation.settle later <$> program).run ({ bus := m' } : Recorded Memory) = _
    rw [BusM.run_map, BusM.run_of_unlogged]
  have unlogged : (decoded.operation.act later.regs).run m' = (left.1.1, left.2) :=
    (program.run_logged_fst m').symm
  have stored := decoded.operation.stored_effects later m' there spared
  rw [unlogged] at stored
  rw [recorded]
  refine ⟨⟨mode, named, address⟩, same, ?_, stored, ?_, ?_⟩
  · intro access inside
    have made := Planned.addresses_eq ((decoded.operation.makes_act later.regs).run m')
    have planned := List.mem_map_of_mem (f := Access.address) (List.mem_toArray.mp inside)
    rw [made] at planned
    obtain ⟨plan, there', cell⟩ := List.mem_map.mp planned
    rw [← cell]
    refine (Operation.address_of_traffic there single later.regs there').imp id fun above => ?_
    rw [filled, Form.storesWord_fill] at above
    exact ⟨Entry.opcode_of_storesWord listed above.1, above.2⟩
  · exact Operation.settle_of_reaches later (Instruction.reaches_of_memory there) left.1.1
  · exact Content.word.inj (stored.content_eq (Operation.pc_not_mem_effects m' _ later.regs))

/-- `LDI A, (HL)` is decoded with HL at C000 and executed when HL has come to FFFF. -/
theorem Cpu.execute_decoded_of_moved :
    let cpu : Cpu := { regs := { h := 0xC0, pc := 0x0100 } }
    let m := Memory.zero.write 0x0100 0x2A
    let decoded : Decoded :=
      { entry := ⟨.plain 0x2A, .loadAdjust .increment (.reg .a) (.place (.memory (.pair .hl)))⟩
        operation := .loadAdjust .increment (.reg .a) (.place (.memory 0xC000)), pc := 0x0100 }
    let later : Cpu := { regs := { h := 0xFF, l := 0xFF, pc := 0x0200 } }
    let m' := Memory.zero.write 0xC000 0x5A
    let r := (decoded.operation.execute later).run { bus := m' : Recorded Memory }
    (cpu.decode.run m).1.1 = .ok decoded ∧ .memory 0xC000 ∈ decoded.operation.operands ∧
    (∀ access ∈ r.2.log, access.address = 0xC000) ∧ r.1.regs.a = 0x5A ∧ r.1.regs.h = 0x00 ∧
    r.1.regs.l = 0x00 ∧ r.1.regs.pc = 0x0200 := by
  intro cpu m decoded later m' r
  let encoded : Encoded :=
    { entry := decoded.entry, literals := [], listed := (Entry.mem_all_iff _).mpr rfl
      complete := rfl }
  have laid : m.block 0x0100 (0 + 1) = [0x2A] := by
    rw [Memory.block_succ, Memory.block_zero, Memory.read_write_self]
  have pointed : Word.join 0xC0 0x00 = 0xC000 := by decide
  have given : (cpu.decode.run m).1.1 = .ok decoded := by
    rw [encoded.run_decode cpu m laid]
    change Except.ok (ε := Fault) { decoded with
      operation := .loadAdjust .increment (.reg .a) (.place (.memory (Word.join 0xC0 0x00))) } = _
    rw [pointed]
  have there : .memory 0xC000 ∈ decoded.operation.operands := by decide
  let hl := UInt16.ofInt ((Word.join 0xFF 0xFF).toNat + 1)
  have wrapped : hl = 0x0000 := by decide
  -- For any state that is left, lest the run itself be gone through.
  have contents (left : Registers × Memory)
      (stored : Stored (decoded.operation.effects later.regs m') (later.regs, m') left) :
      left.1.a = 0x5A ∧ left.1.h = 0x00 ∧ left.1.l = 0x00 := by
    have a : Content.byte left.1.a = .byte (m'.read 0xC000) := stored (.reg .a)
    have h : Content.byte left.1.h = .byte (Word.high hl) := stored (.reg .h)
    have l : Content.byte left.1.l = .byte (Word.low hl) := stored (.reg .l)
    rw [Memory.read_write_self] at a
    rw [wrapped] at h l
    exact ⟨Content.byte.inj a, Content.byte.inj h, Content.byte.inj l⟩
  obtain ⟨-, -, accesses, stored, -, pc⟩ := cpu.execute_decoded m given there later m'
  obtain ⟨a, h, l⟩ := contents _ stored
  exact ⟨given, there, fun access inside => (accesses access inside).resolve_right nofun, a, h, l,
    pc⟩

end Sm83
