import Mathlib.Data.List.Forall2
import Sm83.Proofs.Step

/-!
# Bus traffic

Which accesses an instruction makes besides fetching its bytes can be read off its form: how many,
in which order and at which addresses (`Instruction.traffic`). A step reads the bytes of its
instruction upwards, makes these accesses and no others, and leaves alone every cell that is not
written by them (`step_traffic`).
-/

namespace Sm83

open BusM

/-- An access as it is known beforehand. Of the bytes written, those of words are known. -/
inductive Planned where
  | read (address : UInt16)
  | write (address : UInt16)
  | writeByte (address : UInt16) (value : UInt8)

namespace Planned

def Met : Planned → Access → Prop
  | .read address, .read address' _ => address' = address
  | .write address, .write address' _ => address' = address
  | .writeByte address value, .write address' value' => address' = address ∧ value' = value
  | _, _ => False

def readWord (address : UInt16) : List Planned :=
  [.read address, .read (address + 1)]

def writeWord (address value : UInt16) : List Planned :=
  [.writeByte address (Word.low value), .writeByte (address + 1) (Word.high value)]

end Planned

/-! ### The plan of an instruction -/

section

variable {α β ω : Type} (address : α → UInt16)

def Place.reads : Place α → List Planned
  | .reg _ => []
  | .memory a => [.read (address a)]

def Place.writes : Place α → List Planned
  | .reg _ => []
  | .memory a => [.write (address a)]

def Source.reads : Source α β → List Planned
  | .place p => p.reads address
  | .literal _ => []

/-- The accesses of an instruction after its bytes are fetched, in the registers that fetching them
leaves. -/
def Instruction.traffic (regs : Registers) : Instruction α β ω → List Planned
  | .load dst src | .loadAdjust _ dst src => src.reads address ++ dst.writes address
  | .load16 (.memory a) (.reg r) => Planned.writeWord (address a) (regs.get16 r)
  | .load16 (.memory a) (.literal _) => [.write (address a), .write (address a + 1)]
  | .push pair => Planned.writeWord (regs.sp - 2) (regs.get16 pair)
  | .pop _ | .reti => Planned.readWord regs.sp
  | .alu _ src => src.reads address
  | .testBit _ target => target.reads address
  | .adjust _ target | .shift _ target | .resetBit _ target | .setBit _ target =>
      target.reads address ++ target.writes address
  | .call condition _ =>
      if regs.takes condition then Planned.writeWord (regs.sp - 2) regs.pc else []
  | .rst _ => Planned.writeWord (regs.sp - 2) regs.pc
  | .ret condition => if regs.takes condition then Planned.readWord regs.sp else []
  | _ => []

end

theorem Place.reads_fill (regs : Registers) (literals : List UInt8) (p : Place Addressing) :
    (p.fill regs literals).reads id = p.reads fun mode => mode.target regs literals := by
  cases p <;> rfl

theorem Place.writes_fill (regs : Registers) (literals : List UInt8) (p : Place Addressing) :
    (p.fill regs literals).writes id = p.writes fun mode => mode.target regs literals := by
  cases p <;> rfl

theorem Source.reads_fill (regs : Registers) (literals : List UInt8) (s : Source Addressing Unit) :
    (s.fill regs literals).reads id = s.reads fun mode => mode.target regs literals := by
  cases s with
  | place p => exact p.reads_fill regs literals
  | literal value => rfl

theorem Form.traffic_fill (before regs : Registers) (literals : List UInt8) (form : Form) :
    (form.fill before literals).traffic id regs =
      form.traffic (fun mode => mode.target before literals) regs := by
  have modify (p : Place Addressing) :
      (p.fill before literals).reads id ++ (p.fill before literals).writes id =
        (p.reads fun mode => mode.target before literals) ++
          p.writes fun mode => mode.target before literals := by
    rw [p.reads_fill, p.writes_fill]
  cases form
  case load dst src =>
    exact congrArg₂ List.append (src.reads_fill before literals) (dst.writes_fill before literals)
  case loadAdjust dst src =>
    exact congrArg₂ List.append (src.reads_fill before literals) (dst.writes_fill before literals)
  case load16 dst src => cases dst <;> cases src <;> rfl
  case alu op src => exact src.reads_fill before literals
  case adjust adjustment target => exact modify target
  case shift op target => exact modify target
  case testBit index target => exact target.reads_fill before literals
  case resetBit index target => exact modify target
  case setBit index target => exact modify target
  all_goals rfl

/-! ### What an operation does on the bus -/

namespace BusM

variable {α β : Type} {planned later : List Planned} {program : BusM α}

/-- Whatever the bus answers, the program makes the planned accesses and no others. -/
def Makes (program : BusM α) (planned : List Planned) : Prop :=
  program.logged.Always fun r => List.Forall₂ Planned.Met planned r.2

theorem makes_pure (value : α) : (Pure.pure value : BusM α).Makes [] := List.Forall₂.nil

theorem makes_readByte (address : UInt16) : (readByte address).Makes [.read address] :=
  fun _ => .cons rfl .nil

theorem makes_writeByte (address : UInt16) (value : UInt8) :
    (writeByte address value).Makes [.write address] :=
  List.Forall₂.cons rfl .nil

theorem Makes.bind {next : α → BusM β} (h : program.Makes planned)
    (h' : ∀ value, (next value).Makes later) : (program >>= next).Makes (planned ++ later) := by
  rw [Makes, logged_bind, always_bind]
  refine h.mono fun r first => ?_
  rw [always_map]
  exact (h' r.1).mono fun r' second => List.rel_append first second

theorem Makes.map (h : program.Makes planned) (f : α → β) : (f <$> program).Makes planned := by
  rwa [Makes, logged_map, always_map]

theorem makes_readWord (address : UInt16) : (readWord address).Makes (Planned.readWord address) :=
  (makes_readByte address).bind fun _ => (makes_readByte (address + 1)).map _

theorem makes_writeWord (address value : UInt16) :
    (writeWord address value).Makes (Planned.writeWord address value) :=
  List.Forall₂.cons ⟨rfl, rfl⟩ (.cons ⟨rfl, rfl⟩ .nil)

end BusM

theorem Place.makes_read (regs : Registers) (p : Place UInt16) :
    (p.read regs).Makes (p.reads id) := by
  cases p with
  | reg r => exact makes_pure _
  | memory address => exact makes_readByte address

theorem Place.makes_write (regs : Registers) (value : UInt8) (p : Place UInt16) :
    (p.write regs value).Makes (p.writes id) := by
  cases p with
  | reg r => exact makes_pure _
  | memory address => exact (makes_writeByte address value).map _

theorem Source.makes_read (regs : Registers) (s : Source UInt16 UInt8) :
    (s.read regs).Makes (s.reads id) := by
  cases s with
  | place p => exact p.makes_read regs
  | literal value => exact makes_pure _

namespace Registers

theorem makes_pushWord (regs : Registers) (value : UInt16) :
    (regs.pushWord value).Makes (Planned.writeWord (regs.sp - 2) value) :=
  (makes_writeWord (regs.sp - 2) value).map _

theorem makes_popWord (regs : Registers) : regs.popWord.Makes (Planned.readWord regs.sp) :=
  (makes_readWord regs.sp).map _

theorem makes_callTo (regs : Registers) (target : UInt16) :
    (regs.callTo target).Makes (Planned.writeWord (regs.sp - 2) regs.pc) :=
  (regs.makes_pushWord regs.pc).map _

theorem makes_returnToCaller (regs : Registers) :
    regs.returnToCaller.Makes (Planned.readWord regs.sp) :=
  regs.makes_popWord.map _

end Registers

theorem Operation.makes_act (operation : Operation) (regs : Registers) :
    (operation.act regs).Makes (operation.traffic id regs) := by
  cases operation
  case load dst src => exact (src.makes_read regs).bind fun value => dst.makes_write regs value
  case loadAdjust adjustment dst src =>
    exact (src.makes_read regs).bind fun value => (dst.makes_write regs value).map _
  case load16 dst src =>
    rcases dst with r | a
    · exact makes_pure _
    rcases src with r | value
    · exact (makes_writeWord a (regs.get16 r)).map _
    · exact ((makes_writeByte a _).bind fun _ => makes_writeByte (a + 1) _).map _
  case push pair => exact regs.makes_pushWord _
  case pop pair => exact regs.makes_popWord.map _
  case alu op src => exact (src.makes_read regs).map _
  case adjust adjustment target =>
    exact (target.makes_read regs).bind fun value => (target.makes_write regs _).map _
  case shift op target =>
    exact (target.makes_read regs).bind fun value => (target.makes_write regs _).map _
  case testBit index target => exact (target.makes_read regs).map _
  case resetBit index target =>
    exact (target.makes_read regs).bind fun value => target.makes_write regs _
  case setBit index target =>
    exact (target.makes_read regs).bind fun value => target.makes_write regs _
  case call condition target =>
    simp only [act, Instruction.traffic]
    split
    · exact regs.makes_callTo target
    · exact makes_pure regs
  case ret condition =>
    simp only [act, Instruction.traffic]
    split
    · exact regs.makes_returnToCaller
    · exact makes_pure regs
  case reti => exact regs.makes_returnToCaller
  case rst vector => exact regs.makes_callTo _
  all_goals exact makes_pure _

/-! ### A step -/

open FlatBus (memory)

/-- A step that executes an instruction reads its bytes upwards from PC, each once, and then makes
the accesses that the instruction plans for the registers before the step and for its literals. No
cell changes but those that are written. -/
theorem Cpu.step_traffic {σ : Type} [Bus σ] [FlatBus σ] (cpu : Cpu) (bus : σ) {entry : Entry}
    (executed : (cpu.step.run bus).1.1 = .executed entry) :
    let pc := cpu.regs.pc
    let m := memory bus
    let literals := m.block (pc + entry.opcode.bytes.length.toUInt16) entry.form.extraBytes
    let fetched := (cpu.withPc (pc + entry.size.toUInt16)).regs
    let last := (cpu.step.run { bus : Recorded σ }).2
    Entry.ofOpcode? (m.opcodeAt pc) = some entry ∧
    ∃ data : List Access,
      last.log = (m.reads pc entry.size ++ data).toArray ∧
      List.Forall₂ Planned.Met
        (entry.form.traffic (fun mode => mode.target cpu.regs literals) fetched) data ∧
      ∀ address, (∀ value, .write address value ∉ data) →
        (memory last.bus).read address = m.read address := by
  intro pc m literals fetched last
  obtain ⟨running, found⟩ := (cpu.executed_iff bus entry).mp executed
  let operation := entry.form.fill cpu.regs literals
  let r := (operation.act fetched).logged.run bus
  have last_eq : last = { bus := r.2, log := (m.reads pc entry.size ++ r.1.2).toArray } := by
    rw [show last = _ from congrArg Prod.snd (cpu.step.run_of_unlogged bus),
      cpu.run_logged_step bus running found]
    rfl
  -- What the operation makes is planned by its form already, before the literals are filled in.
  have made := (operation.makes_act fetched).run bus
  rw [Form.traffic_fill] at made
  rw [last_eq]
  exact ⟨found, r.1.2, rfl, made, fun address unwritten =>
    read_run_of_unwritten (operation.act fetched) bus unwritten⟩

/-- `INC (HL)` on a cartridge ROM, which drops the write. -/
theorem Cpu.step_traffic_of_inc_rom :
    let bus : WriteProtected := { memory := Memory.zero.write 0x0100 0x34, limit := 0x8000 }
    let inc : Entry := ⟨.plain 0x34, .adjust .increment (.memory (.pair .hl))⟩
    let last := (Cpu.boot.step.run { bus : Recorded WriteProtected }).2
    (Cpu.boot.step.run bus).1.1 = .executed inc ∧
    ∃ data : List Access,
      last.log = (bus.memory.reads 0x0100 1 ++ data).toArray ∧
      List.Forall₂ Planned.Met [.read 0x014D, .write 0x014D] data ∧
      ∀ address, (∀ value, .write address value ∉ data) →
        last.bus.memory.read address = bus.memory.read address := by
  intro bus inc last
  have opcode : bus.memory.opcodeAt 0x0100 = .plain 0x34 := by
    rw [Memory.opcodeAt, Memory.read_write_self]
    rfl
  have executed : (Cpu.boot.step.run bus).1.1 = .executed inc :=
    (Cpu.boot.executed_iff bus inc).mpr ⟨⟨rfl, rfl⟩, (congrArg Entry.ofOpcode? opcode).trans rfl⟩
  exact ⟨executed, (Cpu.boot.step_traffic bus executed).2⟩

end Sm83
