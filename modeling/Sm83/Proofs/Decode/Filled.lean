import Sm83.Proofs.Bus.Flat
import Sm83.Proofs.Decode.Stream

/-!
# Decoding as filling in literals

No instruction of the opcode map has more than one operand that takes literals. So what is fetched
after the opcode is one literal, and the operation is the form with that literal filled in
(`reads_operation`). On a flat bus decoding is a function of the registers and of the bytes from PC
on (`run_logged_decode`).
-/

namespace Sm83

open BusM

def literalByte (literals : List UInt8) : UInt8 :=
  literals.headD 0

def literalWord : List UInt8 → UInt16
  | low :: high :: _ => Word.join high low
  | _ => 0

/-- The word whose low byte is in the cell and whose high byte is in the next one. -/
def Memory.word (m : Memory) (address : UInt16) : UInt16 :=
  Word.join (m.read (address + 1)) (m.read address)

theorem Memory.literalByte_block (m : Memory) (address : UInt16) :
    literalByte (m.block address 2) = m.read address := by
  rw [block_succ]
  rfl

theorem Memory.literalWord_block (m : Memory) (address : UInt16) :
    literalWord (m.block address 2) = m.word address := by
  rw [block_succ, block_succ]
  rfl

/-- The address that an addressing mode stands for, in the registers before the instruction. -/
def Addressing.target (regs : Registers) (literals : List UInt8) : Addressing → UInt16
  | .pair r => regs.get16 r
  | .absolute => literalWord literals
  | .high => 0xFF00 + (literalByte literals).toUInt16
  | .highC => 0xFF00 + regs.c.toUInt16

def Place.fill (regs : Registers) (literals : List UInt8) (p : Place Addressing) : Place UInt16 :=
  Id.run (p.mapM fun mode => pure (mode.target regs literals))

def Source.fill (regs : Registers) (literals : List UInt8) (s : Source Addressing Unit) :
    Source UInt16 UInt8 :=
  Id.run (s.mapM (fun mode => pure (mode.target regs literals))
    fun _ => pure (literalByte literals))

def WordPlace.fill (regs : Registers) (literals : List UInt8) (p : WordPlace Addressing) :
    WordPlace UInt16 :=
  Id.run (p.mapM fun mode => pure (mode.target regs literals))

def WordSource.fill (literals : List UInt8) (s : WordSource Unit) : WordSource UInt16 :=
  Id.run (s.mapM fun _ => pure (literalWord literals))

namespace Form

/-- The operation that a form becomes with its literals filled in. -/
def fill (regs : Registers) (literals : List UInt8) (form : Form) : Operation :=
  Id.run (form.mapM (fun mode => pure (mode.target regs literals))
    (fun _ => pure (literalByte literals)) fun _ => pure (literalWord literals))

/-- Of two operands one takes no literals. -/
def literalOnce (form : Form) : Bool :=
  match form.operands with
  | [first, second] => OperandKind.extraBytes first == 0 || OperandKind.extraBytes second == 0
  | _ => true

end Form

/-! ### Fetching -/

namespace FetchM

variable {α β γ : Type} {program : FetchM α} {count : Nat} {value : List UInt8 → α}

/-- The computation fetches a block of a known size, and its value is a function of the block. -/
structure Reads (program : FetchM α) (count : Nat) (value : List UInt8 → α) : Prop where
  run_eq : ∀ pc, program.run pc =
    (fun literals => (value literals, pc + count.toUInt16)) <$> readBlock pc count
  value_take : ∀ literals, value (literals.take count) = value literals

theorem reads_pure (value : α) : Reads (Pure.pure value) 0 fun _ => value :=
  ⟨fun pc => by simp [readBlock], fun _ => rfl⟩

theorem reads_byte : Reads byte 1 literalByte where
  run_eq pc := by simp [run_byte, readBlock, literalByte]
  value_take literals := by cases literals <;> rfl

theorem reads_word : Reads word 2 literalWord where
  run_eq pc := by
    have two : pc + 1 + 1 = pc + 2 := UInt16.add_assoc pc 1 1
    simp [word, run_byte, readBlock, literalWord, two]
  value_take literals := by rcases literals with _ | ⟨_, _ | _⟩ <;> rfl

theorem Reads.bind_pure (h : Reads program count value) (f : α → β) :
    Reads (do return f (← program)) count fun literals => f (value literals) where
  run_eq pc := by simp [h.run_eq pc]
  value_take literals := congrArg f (h.value_take literals)

theorem Reads.value_eq_of_zero (h : Reads program 0 value) (literals : List UInt8) :
    value literals = value [] :=
  (h.value_take literals).symm

theorem Reads.pair {program' : FetchM β} {count' : Nat} {value' : List UInt8 → β}
    (h : Reads program count value) (h' : Reads program' count' value')
    (once : count = 0 ∨ count' = 0) (f : α → β → γ) :
    Reads (do return f (← program) (← program')) (count + count') fun literals =>
      f (value literals) (value' literals) := by
  -- One of the two fetches nothing, so both see the whole block.
  rcases once with rfl | rfl
  · simp only [Nat.zero_add, h.value_eq_of_zero]
    refine ⟨fun pc => ?_, fun literals => congrArg (f (value [])) (h'.value_take literals)⟩
    simp [h.run_eq pc, h'.run_eq pc, readBlock]
  · simp only [Nat.add_zero, h'.value_eq_of_zero]
    refine ⟨fun pc => ?_, fun literals => congrArg (f · (value' [])) (h.value_take literals)⟩
    simp [h.run_eq pc, h'.run_eq _, readBlock]

variable (regs : Registers)

theorem reads_address (mode : Addressing) :
    Reads (address regs mode) mode.extraBytes fun literals => mode.target regs literals := by
  cases mode with
  | pair r => exact reads_pure _
  | absolute => exact reads_word
  | high => exact reads_byte.bind_pure Addressing.highPage
  | highC => exact reads_pure _

theorem reads_place (p : Place Addressing) :
    Reads (p.mapM (address regs)) (OperandKind.extraBytes p.operand) fun literals =>
      p.fill regs literals := by
  cases p with
  | reg r => exact reads_pure _
  | memory mode => exact (reads_address regs mode).bind_pure Place.memory

theorem reads_source (s : Source Addressing Unit) :
    Reads (s.mapM (address regs) fun _ => byte) (OperandKind.extraBytes s.operand) fun literals =>
      s.fill regs literals := by
  cases s with
  | place p => exact (reads_place regs p).bind_pure Source.place
  | literal value => exact reads_byte.bind_pure Source.literal

theorem reads_wordPlace (p : WordPlace Addressing) :
    Reads (p.mapM (address regs)) (OperandKind.extraBytes p.operand) fun literals =>
      p.fill regs literals := by
  cases p with
  | reg r => exact reads_pure _
  | memory mode => exact (reads_address regs mode).bind_pure WordPlace.memory

theorem reads_wordSource (s : WordSource Unit) :
    Reads (s.mapM fun _ => word) (OperandKind.extraBytes s.operand) fun literals =>
      s.fill literals := by
  cases s with
  | reg r => exact reads_pure _
  | literal value => exact reads_word.bind_pure WordSource.literal

/-- What is fetched after the opcode is a block, and the operation is the form with that block
filled in. -/
theorem reads_operation {form : Form} (h : form.literalOnce = true) :
    Reads (operation regs form) form.extraBytes fun literals => form.fill regs literals := by
  -- Where there are two operands, one of them takes no literals.
  have once {first second : OperandKind} (two : form.operands = [first, second]) :
      OperandKind.extraBytes first = 0 ∨ OperandKind.extraBytes second = 0 := by
    simpa [Form.literalOnce, two] using h
  have second {program : FetchM Operation} {count : Nat} {value : List UInt8 → Operation}
      (h : Reads program count value) : Reads program (0 + count) value := by
    rwa [Nat.zero_add]
  cases form
  case stop => exact reads_byte.bind_pure Instruction.stop
  case load dst src =>
    exact (reads_place regs dst).pair (reads_source regs src) (once rfl) Instruction.load
  case loadAdjust adjustment dst src =>
    exact (reads_place regs dst).pair (reads_source regs src) (once rfl)
      (Instruction.loadAdjust adjustment)
  case load16 dst src =>
    exact (reads_wordPlace regs dst).pair (reads_wordSource src) (once rfl) Instruction.load16
  case loadHlSp => exact reads_byte.bind_pure Instruction.loadHlSp
  case alu op src => exact second ((reads_source regs src).bind_pure (Instruction.alu op))
  case addSp => exact reads_byte.bind_pure Instruction.addSp
  case adjust adjustment target =>
    exact (reads_place regs target).bind_pure (Instruction.adjust adjustment)
  case shift op target => exact (reads_place regs target).bind_pure (Instruction.shift op)
  case testBit index target =>
    exact second ((reads_place regs target).bind_pure (Instruction.testBit index))
  case resetBit index target =>
    exact second ((reads_place regs target).bind_pure (Instruction.resetBit index))
  case setBit index target =>
    exact second ((reads_place regs target).bind_pure (Instruction.setBit index))
  case jump condition target =>
    cases condition with
    | none => exact (reads_wordSource target).bind_pure (Instruction.jump none)
    | some cc => exact second ((reads_wordSource target).bind_pure (Instruction.jump (some cc)))
  case jumpRelative condition offset =>
    cases condition <;> exact reads_byte.bind_pure (Instruction.jumpRelative _)
  case call condition target =>
    cases condition <;> exact reads_word.bind_pure (Instruction.call _)
  case ret condition => cases condition <;> exact reads_pure _
  all_goals exact reads_pure _

end FetchM

/-! ### Decoding -/

theorem Entry.literalOnce_of_mem {opcode : Opcode} {entry : Entry}
    (h : entry ∈ ofOpcode? opcode) : entry.form.literalOnce = true :=
  forall_of_all (by decide +kernel) (by decide +kernel) h

variable {σ : Type} [Bus σ] [FlatBus σ]

open FlatBus (memory)

/-- What decoding gives where the opcode at PC is that of an entry. -/
def Cpu.decodedAs (cpu : Cpu) (m : Memory) (entry : Entry) : Decoded where
  entry
  operation := entry.form.fill cpu.regs
    (m.block (cpu.regs.pc + entry.opcode.bytes.length.toUInt16) entry.form.extraBytes)
  pc := cpu.regs.pc

/-- The literals are the bytes after the one at PC, as far as the instruction has any. -/
theorem Cpu.operation_decodedAs (cpu : Cpu) (m : Memory) {entry : Entry} {opcode : Opcode}
    (h : Entry.ofOpcode? opcode = some entry) :
    (cpu.decodedAs m entry).operation = entry.form.fill cpu.regs (m.block (cpu.regs.pc + 1) 2) := by
  have filled := FetchM.reads_operation cpu.regs (Entry.literalOnce_of_mem h)
  rw [decodedAs]
  rcases Entry.plain_or_bare h with single | bare
  · have short : entry.form.extraBytes ≤ 2 := by
      have three := (Entry.size_le_and_ne_pc h).1
      rw [Entry.size] at three
      omega
    rw [single, ← filled.value_take (m.block (cpu.regs.pc + 1) 2), Memory.block, Memory.block,
      ← List.map_take, List.take_range, Nat.min_eq_left short]
    rfl
  · rw [bare] at filled
    rw [filled.value_eq_of_zero, filled.value_eq_of_zero (m.block (cpu.regs.pc + 1) 2)]

theorem FetchM.run_logged_opcode (pc : UInt16) (bus : σ) :
    (opcode.run pc).logged.run bus =
      let found := (memory bus).opcodeAt pc
      let size := found.bytes.length
      (((found, pc + size.toUInt16), (memory bus).reads pc size), bus) := by
  rw [run_opcode, logged_bind, run_bind, run_logged_readByte, Memory.opcodeAt]
  by_cases found : (memory bus).read pc = Opcode.prefixByte
  · have two := (memory bus).reads_add pc 1 1
    simp only [Memory.reads_one] at two
    simp only [if_pos found, logged_bind, logged_pure, run_map, run_bind, run_pure,
      run_logged_readByte, Opcode.bytes, List.length_cons, List.length_nil, two]
    rfl
  · simp only [if_neg found, logged_pure, run_map, run_pure, Opcode.bytes, List.length_singleton,
      Memory.reads_one, List.append_nil]
    rfl

theorem FetchM.Reads.run_logged {α : Type} {program : FetchM α} {count : Nat}
    {value : List UInt8 → α} (h : Reads program count value) (pc : UInt16) (bus : σ) :
    (program.run pc).logged.run bus =
      (((value ((memory bus).block pc count), pc + count.toUInt16), (memory bus).reads pc count),
        bus) := by
  rw [h.run_eq, logged_map, run_map, run_logged_readBlock]

theorem Cpu.run_logged_decode (cpu : Cpu) (bus : σ) {entry : Entry}
    (h : Entry.ofOpcode? ((memory bus).opcodeAt cpu.regs.pc) = some entry) :
    cpu.decode.logged.run bus =
      (((.ok (cpu.decodedAs (memory bus) entry), cpu.withPc (cpu.regs.pc + entry.size.toUInt16)),
        (memory bus).reads cpu.regs.pc entry.size), bus) := by
  have same : entry.opcode = (memory bus).opcodeAt cpu.regs.pc := Entry.opcode_of_mem h
  have filled := FetchM.reads_operation cpu.regs (Entry.literalOnce_of_mem h)
  rw [decode, logged_bind, run_bind, FetchM.run_logged_opcode]
  dsimp only
  rw [h]
  simp only [logged_bind, logged_pure, run_map, run_bind, run_pure, filled.run_logged]
  rw [← same, ← address_add, Entry.size, Memory.reads_add]
  simp [decodedAs, withPc]

theorem Cpu.run_logged_decode_of_none (cpu : Cpu) (bus : σ)
    (h : Entry.ofOpcode? ((memory bus).opcodeAt cpu.regs.pc) = none) :
    (cpu.decode.logged.run bus).1.1.1 =
      .error { opcode := (memory bus).opcodeAt cpu.regs.pc, pc := cpu.regs.pc } := by
  rw [decode, logged_bind, run_bind, FetchM.run_logged_opcode]
  dsimp only
  rw [h]
  simp

/-! ### What decoding can give -/

theorem Cpu.filled_of_decode {cpu : Cpu} {m : Memory} {decoded : Decoded}
    (given : (cpu.decode.run m).1.1 = .ok decoded) :
    Entry.ofOpcode? decoded.entry.opcode = some decoded.entry ∧
      decoded.operation =
        decoded.entry.form.fill cpu.regs (m.block (cpu.regs.pc + 1) 2) := by
  rw [← cpu.decode.run_logged_fst m] at given
  cases found : Entry.ofOpcode? (m.opcodeAt cpu.regs.pc) with
  | none =>
    rw [cpu.run_logged_decode_of_none m found] at given
    cases given
  | some entry =>
    rw [cpu.run_logged_decode m found] at given
    cases given
    exact ⟨Entry.opcode_of_mem found ▸ found, cpu.operation_decodedAs m found⟩

/-- There is memory from which some core decodes this. -/
def Decoded.Arises (decoded : Decoded) : Prop :=
  ∃ (cpu : Cpu) (m : Memory), (cpu.decode.run m).1.1 = .ok decoded

theorem Decoded.Arises.filled {decoded : Decoded} (h : decoded.Arises) :
    Entry.ofOpcode? decoded.entry.opcode = some decoded.entry ∧
      ∃ regs literals, decoded.operation = decoded.entry.form.fill regs literals := by
  obtain ⟨cpu, m, given⟩ := h
  obtain ⟨listed, filled⟩ := Cpu.filled_of_decode given
  exact ⟨listed, _, _, filled⟩

/-- Where an instruction lies at PC, it is decoded with its literals filled in. -/
theorem Encoded.run_decode (encoded : Encoded) (cpu : Cpu) (bus : σ)
    (laid : (memory bus).block cpu.regs.pc encoded.bytes.length = encoded.bytes) :
    cpu.decode.run bus =
      ((.ok
          { entry := encoded.entry
            operation := encoded.entry.form.fill cpu.regs encoded.literals
            pc := cpu.regs.pc },
        cpu.withPc (cpu.regs.pc + encoded.bytes.length.toUInt16)), bus) := by
  obtain ⟨found, literals⟩ := encoded.ofOpcode?_of_block laid
  rw [← cpu.decode.run_logged_fst bus, cpu.run_logged_decode bus found, encoded.length_bytes,
    Cpu.decodedAs, literals]

theorem Encoded.block_load (encoded : Encoded) (m : Memory) (address : UInt16) :
    (m.load address encoded.bytes).block address encoded.bytes.length = encoded.bytes := by
  have three := (Entry.size_le_and_ne_pc ((Entry.mem_all_iff encoded.entry).mp encoded.listed)).1
  refine m.block_load address encoded.bytes ?_
  rw [encoded.length_bytes]
  omega

/-- Every instruction of the opcode map arises with every choice of registers and literals. -/
theorem Encoded.arises (encoded : Encoded) (regs : Registers) :
    Decoded.Arises
      { entry := encoded.entry
        operation := encoded.entry.form.fill regs encoded.literals
        pc := regs.pc } :=
  ⟨{ regs }, Memory.zero.load regs.pc encoded.bytes,
    by rw [encoded.run_decode { regs } _ (encoded.block_load Memory.zero regs.pc)]⟩

end Sm83
