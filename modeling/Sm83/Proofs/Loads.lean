import Sm83.Proofs.Accumulator
import Sm83.Proofs.Location

/-!
# Loads

Loads move a byte or a word from one place to another; LDI and LDD adjust HL afterwards. A step that
executes a load puts the moved bytes into their places and moves PC, and no other location changes
(`step_loads`). What is moved, and to where, is settled by the state before the step.
-/

namespace Sm83

/-- How an instruction names a cell from which a byte goes to A, or to which it goes from A. -/
inductive Pointer where
  | bc | de | hlUp | hlDown | page | pageC | absolute
  deriving DecidableEq

namespace Pointer

def address (regs : Registers) (m : Memory) : Pointer → UInt16
  | bc => Word.join regs.b regs.c
  | de => Word.join regs.d regs.e
  | hlUp | hlDown => Word.join regs.h regs.l
  | page => 0xFF00 + (m.read (regs.pc + 1)).toUInt16
  | pageC => 0xFF00 + regs.c.toUInt16
  | absolute => m.word (regs.pc + 1)

def size : Pointer → UInt16
  | page => 2
  | absolute => 3
  | bc | de | hlUp | hlDown | pageC => 1

/-- The parts of HL with what is in them after a move through the pointer. -/
def adjusted (regs : Registers) : Pointer → List (Location × Content)
  | hlUp => Reg16.hl.parts (Word.join regs.h regs.l + 1)
  | hlDown => Reg16.hl.parts (Word.join regs.h regs.l - 1)
  | bc | de | page | pageC | absolute => []

def mode : Pointer → Addressing
  | bc => .pair .bc
  | de => .pair .de
  | hlUp | hlDown => .pair .hl
  | page => .high
  | pageC => .highC
  | absolute => .absolute

def form (dst : Place Addressing) (src : Source Addressing Unit) : Pointer → Form
  | hlUp => .loadAdjust .increment dst src
  | hlDown => .loadAdjust .decrement dst src
  | bc | de | page | pageC | absolute => .load dst src

end Pointer

/-- The location of the byte that a field of three bits selects. -/
def Location.selected (regs : Registers) : Fin 8 → Location
  | 0 => .reg .b
  | 1 => .reg .c
  | 2 => .reg .d
  | 3 => .reg .e
  | 4 => .reg .h
  | 5 => .reg .l
  | 6 => .cell (Word.join regs.h regs.l)
  | 7 => .reg .a

namespace Location

theorem content_selected (index : Fin 8) (regs : Registers) (m : Memory) :
    (selected regs index).content regs m = .byte (regs.selected m index) := by
  match index with
  | 0 | 1 | 2 | 3 | 4 | 5 | 6 | 7 => rfl

/-- Only the byte at HL is found through registers. -/
theorem selected_congr {index : Fin 8} {regs regs' : Registers}
    (same : index = 6 → regs'.h = regs.h ∧ regs'.l = regs.l) :
    selected regs' index = selected regs index := by
  match index with
  | 6 =>
    obtain ⟨high, low⟩ := same rfl
    simp only [selected, high, low]
  | 0 | 1 | 2 | 3 | 4 | 5 | 7 => rfl

theorem selected_ne_pc (regs : Registers) (index : Fin 8) : selected regs index ≠ .pc := by
  match index with
  | 0 | 1 | 2 | 3 | 4 | 5 | 6 | 7 => nofun

end Location

def Reg16.selected : Fin 4 → Reg16
  | 0 => bc
  | 1 => de
  | 2 => hl
  | 3 => sp

inductive Load where
  /-- From one selected byte to another. There is no move from memory to memory. -/
  | field (dst src : Fin 8) (moves : ¬(dst.val = 6 ∧ src.val = 6))
  | literal (dst : Fin 8)
  | fromA (pointer : Pointer)
  | toA (pointer : Pointer)
  | pair (dst : Fin 4)
  | spFromHl
  | spToMemory
  deriving DecidableEq

namespace Load

def opcode : Load → UInt8
  | field dst src _ => 0x40 + 8 * dst.val.toUInt8 + src.val.toUInt8
  | literal dst => 0x06 + 8 * dst.val.toUInt8
  | fromA .bc => 0x02
  | toA .bc => 0x0A
  | fromA .de => 0x12
  | toA .de => 0x1A
  | fromA .hlUp => 0x22
  | toA .hlUp => 0x2A
  | fromA .hlDown => 0x32
  | toA .hlDown => 0x3A
  | fromA .page => 0xE0
  | toA .page => 0xF0
  | fromA .pageC => 0xE2
  | toA .pageC => 0xF2
  | fromA .absolute => 0xEA
  | toA .absolute => 0xFA
  | pair dst => 0x01 + 0x10 * dst.val.toUInt8
  | spFromHl => 0xF9
  | spToMemory => 0x08

def size : Load → UInt16
  | field _ _ _ | spFromHl => 1
  | literal _ => 2
  | fromA pointer | toA pointer => pointer.size
  | pair _ | spToMemory => 3

/-- What is moved, and where it goes. -/
def moved (regs : Registers) (m : Memory) : Load → List (Location × Content)
  | field dst src _ => [(.selected regs dst, (Location.selected regs src).content regs m)]
  | literal dst => [(.selected regs dst, .byte (m.read (regs.pc + 1)))]
  | fromA pointer => [(.cell (pointer.address regs m), .byte regs.a)]
  | toA pointer => [(.reg .a, .byte (m.read (pointer.address regs m)))]
  | pair dst => (Reg16.selected dst).parts (m.word (regs.pc + 1))
  | spFromHl => [(.sp, .word (Word.join regs.h regs.l))]
  | spToMemory =>
      let address := m.word (regs.pc + 1)
      [(.cell (address + 1), .byte (Word.high regs.sp)), (.cell address, .byte (Word.low regs.sp))]

def adjusted (regs : Registers) : Load → List (Location × Content)
  | fromA pointer | toA pointer => pointer.adjusted regs
  | field _ _ _ | literal _ | pair _ | spFromHl | spToMemory => []

/-- Everything that a load changes. HL is adjusted last. -/
def stores (regs : Registers) (m : Memory) (load : Load) : List (Location × Content) :=
  load.adjusted regs ++ (load.moved regs m ++ [(.pc, .word (regs.pc + load.size))])

def form : Load → Form
  | field dst src _ => .load (Form.place dst) (.place (Form.place src))
  | literal dst => .load (Form.place dst) (.literal ())
  | fromA pointer => pointer.form (.memory pointer.mode) (.place (.reg .a))
  | toA pointer => pointer.form (.reg .a) (.place (.memory pointer.mode))
  | pair dst => .load16 (.reg (.selected dst)) (.literal ())
  | spFromHl => .load16 (.reg .sp) (.reg .hl)
  | spToMemory => .load16 (.memory .absolute) (.reg .sp)

def entry (load : Load) : Entry where
  opcode := .plain load.opcode
  form := load.form

theorem ofOpcode?_entry (load : Load) :
    Entry.ofOpcode? (.plain load.opcode) = some load.entry := by
  cases load with
  | field dst src moves =>
    revert dst src
    decide
  | literal dst =>
    revert dst
    decide
  | fromA pointer | toA pointer => cases pointer <;> rfl
  | pair dst =>
    revert dst
    decide
  | spFromHl | spToMemory => rfl

theorem size_entry (load : Load) : load.entry.size.toUInt16 = load.size := by
  cases load with
  | field dst src moves =>
    revert dst src
    decide
  | literal dst =>
    revert dst
    decide
  | fromA pointer | toA pointer => cases pointer <;> rfl
  | pair _ | spFromHl | spToMemory => rfl

end Load

/-! ### What is moved -/

def Place.location : Place UInt16 → Location
  | .reg r => .reg r
  | .memory address => .cell address

theorem Place.stored_run_write (dst : Place UInt16) (regs : Registers) (m : Memory)
    (value : UInt8) :
    Stored [(dst.location, .byte value)] (regs, m) ((dst.write regs value).run m) := by
  cases dst with
  | reg r => exact stored_set8 regs m r value
  | memory address => exact stored_write regs m address value

namespace Operation

variable (regs : Registers) (m : Memory) (next : UInt16) (dst : Place UInt16)
  (src : Source UInt16 UInt8)

theorem stored_load :
    Stored ([(dst.location, .byte (src.value regs m))] ++ [(.pc, .word next)]) (regs, m)
      ((act (.load dst src) { regs with pc := next }).run m) := by
  have value := src.value_withPc { regs } next m
  have acted : (act (.load dst src) { regs with pc := next }).run m =
      (dst.write { regs with pc := next } (src.value regs m)).run m := by
    rw [act, BusM.run_bind, Source.run_read]
    exact congrArg (fun value => (dst.write _ value).run m) value
  rw [acted]
  exact (stored_pc regs m next).trans (dst.stored_run_write _ m _)

theorem stored_loadAdjust (adjustment : Adjustment)
    (apart : dst.location ≠ .reg .h ∧ dst.location ≠ .reg .l) :
    Stored (Reg16.hl.parts (adjustment.word (regs.get16 .hl)) ++
        ([(dst.location, .byte (src.value regs m))] ++ [(.pc, .word next)])) (regs, m)
      ((act (.loadAdjust adjustment dst src) { regs with pc := next }).run m) := by
  let moved := (act (.load dst src) { regs with pc := next }).run m
  have stored : Stored _ (regs, m) moved := stored_load regs m next dst src
  have halves : ∀ location ∈ (Reg16.hl.parts 0).map Prod.fst,
      location.content moved.1 moved.2 = location.content regs m := by
    intro location half
    refine stored.content_eq ?_
    have named : location = .reg .h ∨ location = .reg .l := by simpa [Reg16.parts] using half
    rcases named with rfl | rfl
    · simp [apart.1.symm]
    · simp [apart.2.symm]
  have kept : moved.1.get16 .hl = regs.get16 .hl := Registers.get16_congr halves
  have acted : (act (.loadAdjust adjustment dst src) { regs with pc := next }).run m =
      (moved.1.set16 .hl (adjustment.word (regs.get16 .hl)), moved.2) := by
    rw [← kept]
    simp only [act, BusM.run_bind, moved]
    rfl
  rw [acted]
  exact stored.trans (stored_set16 moved.1 moved.2 .hl _)

theorem stored_load16_reg (r : Reg16) (src : WordSource UInt16) :
    Stored (r.parts (src.value { regs with pc := next }) ++ [(.pc, .word next)]) (regs, m)
      ((act (.load16 (.reg r) src) { regs with pc := next }).run m) :=
  (stored_pc regs m next).trans (stored_set16 _ m r _)

theorem stored_load16_memory (address : UInt16) (src : WordSource UInt16) :
    let word := src.value { regs with pc := next }
    Stored ([(.cell (address + 1), .byte (Word.high word))] ++
        ([(.cell address, .byte (Word.low word))] ++ [(.pc, .word next)])) (regs, m)
      ((act (.load16 (.memory address) src) { regs with pc := next }).run m) := by
  intro word
  have low := stored_write { regs with pc := next } m address (Word.low word)
  exact ((stored_pc regs m next).trans low).trans (stored_write _ _ (address + 1) (Word.high word))

end Operation

namespace Load

variable (regs : Registers) (m : Memory) (next : UInt16)

theorem location_place (literals : List UInt8) (index : Fin 8) :
    ((Form.place index).fill regs literals).location = .selected regs index := by
  match index with
  | 0 | 1 | 2 | 3 | 4 | 5 | 6 | 7 => rfl

theorem value_place (literals : List UInt8) (index : Fin 8) :
    .byte (((Source.place (Form.place index)).fill regs literals).value regs m) =
      (Location.selected regs index).content regs m := by
  match index with
  | 0 | 1 | 2 | 3 | 4 | 5 | 6 | 7 => rfl

theorem target_mode (pointer : Pointer) :
    pointer.mode.target regs (m.block (regs.pc + 1) 2) = pointer.address regs m := by
  cases pointer with
  | page => exact congrArg (fun byte => 0xFF00 + byte.toUInt16) (m.literalByte_block _)
  | absolute => exact m.literalWord_block _
  | _ => rfl

theorem stored_pointer (pointer : Pointer) {literals : List UInt8} {dst : Place Addressing}
    {src : Source Addressing Unit}
    (apart : (dst.fill regs literals).location ≠ .reg .h ∧
      (dst.fill regs literals).location ≠ .reg .l) :
    Stored (pointer.adjusted regs ++
        ([((dst.fill regs literals).location, .byte ((src.fill regs literals).value regs m))] ++
          [(.pc, .word next)])) (regs, m)
      ((((pointer.form dst src).fill regs literals).act { regs with pc := next }).run m) := by
  cases pointer with
  | hlUp => exact Operation.stored_loadAdjust regs m next _ _ .increment apart
  | hlDown => exact Operation.stored_loadAdjust regs m next _ _ .decrement apart
  | _ => exact Operation.stored_load regs m next _ _

theorem stored_act (load : Load) :
    Stored (load.stores regs m) (regs, m)
      (((load.form.fill regs (m.block (regs.pc + 1) 2)).act
        { regs with pc := regs.pc + load.size }).run m) := by
  let literals := m.block (regs.pc + 1) 2
  have literalByte_eq : literalByte literals = m.read (regs.pc + 1) := m.literalByte_block _
  have literalWord_eq : literalWord literals = m.word (regs.pc + 1) := m.literalWord_block _
  unfold stores
  generalize regs.pc + load.size = next
  cases load with
  | field dst src moves =>
    rw [moved, ← value_place regs m literals, ← location_place regs literals]
    exact Operation.stored_load regs m next _ _
  | literal dst =>
    rw [moved, ← literalByte_eq, ← location_place regs literals]
    exact Operation.stored_load regs m next _ (.literal (literalByte literals))
  | fromA pointer =>
    rw [moved, ← target_mode]
    exact stored_pointer regs m next pointer ⟨nofun, nofun⟩
  | toA pointer =>
    rw [moved, ← target_mode]
    exact stored_pointer regs m next pointer ⟨nofun, nofun⟩
  | pair dst =>
    rw [moved, ← literalWord_eq]
    exact Operation.stored_load16_reg regs m next (.selected dst) (.literal (literalWord literals))
  | spFromHl => exact Operation.stored_load16_reg regs m next .sp (.reg .hl)
  | spToMemory =>
    rw [moved, ← literalWord_eq]
    exact Operation.stored_load16_memory regs m next (literalWord literals) (.reg .sp)

theorem flag_ne_selected (which : Flag) (index : Fin 8) :
    Location.flag which ≠ .selected regs index := by
  match index with
  | 0 | 1 | 2 | 3 | 4 | 5 | 6 | 7 => simp [Location.selected]

theorem flag_not_mem_parts (which : Flag) (index : Fin 4) (value : UInt16) (content : Content) :
    (Location.flag which, content) ∉ (Reg16.selected index).parts value := by
  match index with
  | 0 | 1 | 2 | 3 => simp [Reg16.selected, Reg16.parts]

theorem flag_not_mem (load : Load) (which : Flag) :
    Location.flag which ∉ (load.stores regs m).map Prod.fst := by
  cases load with
  | field dst src moves => simp [stores, adjusted, moved, flag_ne_selected]
  | literal dst => simp [stores, adjusted, moved, flag_ne_selected]
  | fromA pointer | toA pointer =>
    cases pointer <;> simp [stores, adjusted, moved, Pointer.adjusted, Reg16.parts]
  | pair dst => simp [stores, adjusted, moved, flag_not_mem_parts]
  | spFromHl | spToMemory => simp [stores, adjusted, moved]

theorem settle_fill (load : Load) (regs : Registers) (literals : List UInt8) (cpu : Cpu)
    {after : Registers} (kept : after.f = cpu.regs.f) :
    (load.form.fill regs literals).settle cpu after =
      { cpu with regs := after, interrupts := cpu.interrupts.advance } := by
  cases load with
  | fromA pointer | toA pointer => cases pointer <;> exact Operation.settle_of_kept rfl kept
  | _ => exact Operation.settle_of_kept rfl kept

/-! ### Which instructions are loads -/

def pointers : List Pointer :=
  [.bc, .de, .hlUp, .hlDown, .page, .pageC, .absolute]

def fields : List Load :=
  (List.finRange 8).flatMap fun dst => (List.finRange 8).filterMap fun src =>
    if moves : ¬(dst.val = 6 ∧ src.val = 6) then some (field dst src moves) else none

def all : List Load :=
  fields ++ (List.finRange 8).map literal ++ pointers.map fromA ++ pointers.map toA ++
    (List.finRange 4).map pair ++ [spFromHl, spToMemory]

def names : List String :=
  ["LD", "LDH", "LDI", "LDD"]

end Load

def Form.isLoad : Form → Bool
  | .load _ _ | .loadAdjust _ _ _ | .load16 _ _ => true
  | _ => false

theorem Form.isLoad_of_mnemonic {form : Form} (named : form.mnemonic ∈ Load.names) :
    form.isLoad = true := by
  cases form
  case load | loadAdjust | load16 => rfl
  case alu op _ => cases op <;> simp [mnemonic, AluOp.mnemonic, Load.names] at named
  case adjust op _ | adjust16 op _ => cases op <;> simp [mnemonic, Load.names] at named
  case rotateA rotation =>
    cases rotation <;> simp [mnemonic, Rotation.mnemonic, Load.names] at named
  case shift op _ =>
    rcases op with rotation | _ | _ | _ | _
    case rotate =>
      cases rotation <;> simp [mnemonic, Shift.mnemonic, Rotation.mnemonic, Load.names] at named
    all_goals simp [mnemonic, Shift.mnemonic, Load.names] at named
  all_goals simp [mnemonic, Load.names] at named

theorem Entry.load_of_mnemonic {opcode : Opcode} {entry : Entry} (h : entry ∈ ofOpcode? opcode)
    (named : entry.form.mnemonic ∈ Load.names) :
    ∃ load : Load, entry.opcode = .plain load.opcode := by
  have listed : entry.form.isLoad = true →
      entry.opcode ∈ Load.all.map fun load => .plain load.opcode :=
    forall_of_all (by decide +kernel) (by decide +kernel) h
  obtain ⟨load, -, same⟩ := List.mem_map.mp (listed (Form.isLoad_of_mnemonic named))
  exact ⟨load, same.symm⟩

/-! ### A step -/

/-- Where a load is at PC, the step puts what is moved into its places, with the values and the
addresses of the state before the step, adjusts HL for LDI and LDD, and moves PC behind the load. All
other registers, all flags and all other cells stay as they are, and the core is not parked. All
instructions of the four names are among these loads. -/
theorem Cpu.step_loads (cpu : Cpu) (m : Memory)
    (running : cpu.stopped = false ∧ cpu.halted = false) :
    (∀ load : Load, m.read cpu.regs.pc = load.opcode →
      ∃ after m', cpu.step.run m = ((.executed load.entry, after), m') ∧
        Stored (load.stores cpu.regs m) (cpu.regs, m) (after.regs, m') ∧
        after.regs.f = cpu.regs.f ∧ after.halted = cpu.halted ∧ after.stopped = cpu.stopped) ∧
    ∀ entry, (cpu.step.run m).1.1 = .executed entry → entry.form.mnemonic ∈ Load.names →
      ∃ load : Load, m.read cpu.regs.pc = load.opcode := by
  constructor
  · intro load opcode
    have found := Memory.found_of_read opcode load.ofOpcode?_entry
    have stored := load.stored_act cpu.regs m
    have kept := stored.f_eq (load.flag_not_mem cpu.regs m)
    have step := cpu.run_step_filled m running found
    rw [load.size_entry] at step
    have settled := load.settle_fill cpu.regs (m.block (cpu.regs.pc + 1) 2)
      (cpu.withPc (cpu.regs.pc + load.size)) kept
    refine ⟨_, _, step.trans (congrArg (fun cpu => ((_, cpu), _)) settled), stored, kept, rfl, rfl⟩
  · intro entry executed named
    have found := ((cpu.executed_iff m entry).mp executed).2
    obtain ⟨load, same⟩ := Entry.load_of_mnemonic found named
    rw [Entry.opcode_of_mem found] at same
    exact ⟨load, Memory.read_of_opcodeAt same⟩

/-- `LD H, (HL)` in the last cell, and `LDI (HL), A` there with HL at the instruction itself. -/
theorem Cpu.step_loads_of_overlaps :
    let cpu : Cpu := { regs := { h := 0xC0, pc := 0xFFFF } }
    let m := (Memory.zero.write 0xC000 0x9D).write 0xFFFF 0x66
    let cpu' : Cpu := { regs := { a := 0x5A, h := 0xFF, l := 0xFF, pc := 0xFFFF } }
    let n := Memory.zero.write 0xFFFF 0x22
    (∃ after m', cpu.step.run m =
        ((.executed ⟨.plain 0x66, .load (.reg .h) (.place (.memory (.pair .hl)))⟩, after), m') ∧
      after.regs.h = 0x9D ∧ after.regs.l = 0x00 ∧ after.regs.pc = 0x0000) ∧
    ∃ after n', cpu'.step.run n =
        ((.executed ⟨.plain 0x22, .loadAdjust .increment (.memory (.pair .hl)) (.place (.reg .a))⟩,
          after), n') ∧
      n'.read 0xFFFF = 0x5A ∧ after.regs.h = 0x00 ∧ after.regs.l = 0x00 := by
  intro cpu m cpu' n
  constructor
  · have opcode : m.read 0xFFFF = 0x66 := Memory.read_write_self _ _ _
    have value : m.read 0xC000 = 0x9D :=
      (Memory.read_write_of_ne _ _ (by decide)).trans (Memory.read_write_self _ _ _)
    obtain ⟨after, m', executed, stored, -⟩ :=
      (cpu.step_loads m ⟨rfl, rfl⟩).1 (.field 4 6 (by decide)) (opcode.trans (by decide))
    have h : Content.byte after.regs.h = .byte (m.read (Word.join 0xC0 0x00)) := stored (.reg .h)
    have l : Content.byte after.regs.l = .byte 0x00 := stored (.reg .l)
    have pc : Content.word after.regs.pc = .word (0xFFFF + 1) := stored .pc
    rw [show Word.join 0xC0 0x00 = 0xC000 by decide, value] at h
    exact ⟨after, m', executed, Content.byte.inj h, Content.byte.inj l, Content.word.inj pc⟩
  · have opcode : n.read 0xFFFF = 0x22 := Memory.read_write_self _ _ _
    obtain ⟨after, n', executed, stored, -⟩ :=
      (cpu'.step_loads n ⟨rfl, rfl⟩).1 (.fromA .hlUp) opcode
    have address : Pointer.hlUp.address cpu'.regs n = 0xFFFF :=
      show Word.join 0xFF 0xFF = 0xFFFF by decide
    have cell := stored (.cell (Pointer.hlUp.address cpu'.regs n))
    simp only [Load.stores, Load.adjusted, Load.moved, Pointer.adjusted, Reg16.parts,
      List.cons_append, List.nil_append, getD_lookup_cons, Location.content, if_true, reduceCtorEq,
      if_false, Content.byte.injEq] at cell
    rw [address] at cell
    have h : Content.byte after.regs.h = .byte (Word.high (Word.join 0xFF 0xFF + 1)) :=
      stored (.reg .h)
    have l : Content.byte after.regs.l = .byte (Word.low (Word.join 0xFF 0xFF + 1)) :=
      stored (.reg .l)
    rw [show Word.join 0xFF 0xFF + 1 = 0x0000 by decide] at h l
    exact ⟨after, n', executed, cell, Content.byte.inj h, Content.byte.inj l⟩

end Sm83
