import Sm83.Proofs.Interrupts
import Sm83.Proofs.Step

/-!
# Transfer of control

Jumps, calls and returns (`Branch`) can send the core somewhere else than to the next instruction;
under a condition they do so only if it is met by the flags. Calls leave the address of the next
instruction on the stack, and returns take the address from there. All other instructions go on with
the next one (`step_transfers`).
-/

namespace Sm83

open BusM

/-- The offset that a byte stands for. -/
def Byte.signed (b : UInt8) : Int :=
  if b.toNat < 128 then b.toNat else b.toNat - 256

theorem Byte.add_signExtend (w : UInt16) (b : UInt8) :
    w + signExtend b = UInt16.ofInt (w.toNat + signed b) := by
  apply UInt16.toNat_inj.mp
  have sum := w.toNat_lt
  have bound := b.toNat_lt
  rw [UInt16.toNat_add, toNat_signExtend, UInt16.ofInt, UInt16.toNat_ofNat', signed]
  split <;> omega

namespace Condition

def Met : Condition → Flags → Prop
  | nz, f => f.z = false
  | z, f => f.z = true
  | nc, f => f.c = false
  | c, f => f.c = true

theorem holds_iff (condition : Condition) (f : Flags) :
    condition.holds f = true ↔ condition.Met f := by
  cases condition <;> simp [holds, Met]

def row : Condition → UInt8
  | nz => 0
  | z => 1
  | nc => 2
  | c => 3

end Condition

theorem Registers.takes_iff (regs : Registers) (condition : Option Condition) :
    regs.takes condition = true ↔ ∀ cc ∈ condition, cc.Met regs.f := by
  cases condition with
  | none => simp [takes]
  | some cc => simp [takes, cc.holds_iff]

inductive Transfer where
  | jump (target : UInt16)
  | call (target : UInt16)
  | ret

/-- What is left when control has been transferred. The address of the next instruction is on the
stack after a call, and an address is off it after a return. -/
def Transfer.passed (next : UInt16) (regs : Registers) (m : Memory) :
    Transfer → Registers × Memory
  | jump target => ({ regs with pc := target }, m)
  | call target =>
      ({ regs with sp := regs.sp - 2, pc := target },
        (m.write (regs.sp - 2) (Word.low next)).write (regs.sp - 1) (Word.high next))
  | ret => ({ regs with sp := regs.sp + 2, pc := m.word regs.sp }, m)

theorem Transfer.f_passed (transfer : Transfer) (next : UInt16) (regs : Registers) (m : Memory) :
    (transfer.passed next regs m).1.f = regs.f := by
  cases transfer <;> rfl

theorem Registers.run_callTo (regs : Registers) (target : UInt16) (m : Memory) :
    (regs.callTo target).run m = (Transfer.call target).passed regs.pc regs m := by
  have behind : regs.sp - 2 + 1 = regs.sp - 1 := address_sub_add regs.sp 1 1
  rw [Transfer.passed, ← behind]
  rfl

/-! ### Instructions that transfer control -/

inductive Branch where
  | jump (condition : Option Condition)
  | jumpHl
  | jumpRelative (condition : Option Condition)
  | call (condition : Option Condition)
  | rst (vector : Fin 8)
  | ret (condition : Option Condition)
  | reti
  deriving DecidableEq

namespace Branch

def opcode : Branch → UInt8
  | jump none => 0xC3
  | jump (some condition) => 0xC2 + 8 * condition.row
  | jumpHl => 0xE9
  | jumpRelative none => 0x18
  | jumpRelative (some condition) => 0x20 + 8 * condition.row
  | call none => 0xCD
  | call (some condition) => 0xC4 + 8 * condition.row
  | rst vector => 0xC7 + 8 * vector.val.toUInt8
  | ret none => 0xC9
  | ret (some condition) => 0xC0 + 8 * condition.row
  | reti => 0xD9

def size : Branch → UInt16
  | jump _ | call _ => 3
  | jumpRelative _ => 2
  | jumpHl | rst _ | ret _ | reti => 1

def condition? : Branch → Option Condition
  | jump condition | jumpRelative condition | call condition | ret condition => condition
  | jumpHl | rst _ | reti => none

/-- The transfer if the condition is met; literals follow the opcode at PC. -/
def transfer (next : UInt16) (regs : Registers) (m : Memory) : Branch → Transfer
  | jump _ => .jump (m.word (regs.pc + 1))
  | jumpHl => .jump (Word.join regs.h regs.l)
  | jumpRelative _ => .jump (.ofInt (next.toNat + Byte.signed (m.read (regs.pc + 1))))
  | call _ => .call (m.word (regs.pc + 1))
  | rst vector => .call (.ofNat (8 * vector.val))
  | ret _ | reti => .ret

def form : Branch → Form
  | jump condition => .jump condition (.literal ())
  | jumpHl => .jump none (.reg .hl)
  | jumpRelative condition => .jumpRelative condition ()
  | call condition => .call condition ()
  | rst vector => .rst vector
  | ret condition => .ret condition
  | reti => .reti

def entry (branch : Branch) : Entry where
  opcode := .plain branch.opcode
  form := branch.form

theorem ofOpcode?_entry (branch : Branch) :
    Entry.ofOpcode? (.plain branch.opcode) = some branch.entry := by
  cases branch with
  | jump condition | jumpRelative condition | call condition | ret condition =>
    rcases condition with _ | _ | _ | _ | _ <;> rfl
  | jumpHl | reti => rfl
  | rst vector =>
    revert vector
    decide

theorem size_entry (branch : Branch) : branch.entry.size.toUInt16 = branch.size := by
  cases branch with
  | jump condition | jumpRelative condition | call condition | ret condition =>
    cases condition <;> rfl
  | jumpHl | reti | rst _ => rfl

theorem run_act (branch : Branch) (next : UInt16) (regs : Registers) (m : Memory) :
    ((branch.form.fill regs (m.block (regs.pc + 1) 2)).act { regs with pc := next }).run m =
      if regs.takes branch.condition? then (branch.transfer next regs m).passed next regs m
      else ({ regs with pc := next }, m) := by
  let start : Registers := { regs with pc := next }
  cases branch with
  | jump condition =>
    rw [transfer, ← m.literalWord_block]
    exact apply_ite (·, m) _ _ _
  | jumpHl => rfl
  | jumpRelative condition =>
    rw [transfer, ← m.literalByte_block, ← Byte.add_signExtend]
    exact apply_ite (·, m) _ _ _
  | call condition =>
    have called : (start.callTo (m.word (regs.pc + 1))).run m = _ := start.run_callTo _ m
    rw [← m.literalWord_block] at called
    rw [transfer, ← m.literalWord_block]
    refine Eq.trans ?_ (congrArg (ite _ · _) called)
    exact apply_ite (BusM.run · m) _ _ _
  | rst vector =>
    have address : (Instruction.restartVector vector).toUInt16 = .ofNat (8 * vector.val) := by
      revert vector
      decide
    rw [transfer, ← address]
    exact start.run_callTo _ m
  | ret condition => exact apply_ite (BusM.run · m) _ _ _
  | reti => rfl

theorem settle_fill (branch : Branch) (regs : Registers) (literals : List UInt8) (cpu : Cpu)
    {after : Registers} (kept : after.f = cpu.regs.f) :
    let latch := if branch = .reti then cpu.interrupts.enable else cpu.interrupts
    (branch.form.fill regs literals).settle cpu after =
      { cpu with regs := after, interrupts := latch.advance } := by
  rw [Operation.settle_of_kept (by cases branch <;> rfl) kept]
  cases branch <;> rfl

end Branch

/-! ### Instructions that do not -/

def Form.transfers : Form → Bool
  | .jump _ _ | .jumpRelative _ _ | .call _ _ | .rst _ | .ret _ | .reti => true
  | _ => false

def Condition.options : List (Option Condition) :=
  none :: Condition.all.map some

def Branch.all : List Branch :=
  Condition.options.flatMap (fun condition =>
    [jump condition, jumpRelative condition, call condition, ret condition]) ++
  (List.finRange 8).map rst ++ [jumpHl, reti]

theorem Entry.branch_of_transfers {opcode : Opcode} {entry : Entry} (h : entry ∈ ofOpcode? opcode)
    (transfers : entry.form.transfers = true) :
    ∃ branch : Branch, entry.opcode = .plain branch.opcode := by
  have listed : entry.form.transfers = true →
      entry.opcode ∈ Branch.all.map fun branch => .plain branch.opcode :=
    forall_of_all (by decide +kernel) (by decide +kernel) h
  obtain ⟨branch, -, same⟩ := List.mem_map.mp (listed transfers)
  exact ⟨branch, same.symm⟩

theorem Place.always_write_pc (target : Place UInt16) (regs : Registers) (value : UInt8) :
    (target.write regs value).Always fun after => after.pc = regs.pc := by
  cases target with
  | reg r => cases r <;> rfl
  | memory address => exact rfl

theorem Registers.pc_set16 (regs : Registers) {r : Reg16} (value : UInt16) (other : r ≠ .pc) :
    (regs.set16 r value).pc = regs.pc := by
  cases r with
  | pc => exact (other rfl).elim
  | _ => rfl

theorem Form.always_act_pc {form : Form} (spared : .reg16 .pc ∉ form.operands)
    (passes : form.transfers = false) (regs start : Registers) (literals : List UInt8) :
    ((form.fill regs literals).act start).Always fun after => after.pc = start.pc := by
  have other {r : Reg16} (operand : .reg16 r ∈ form.operands) : r ≠ .pc := by
    rintro rfl
    exact spared operand
  cases form
  case load dst src =>
    refine (always_bind _ _ _).mpr (always_of_forall fun value => ?_)
    exact Place.always_write_pc _ start value
  case loadAdjust adjustment dst src =>
    refine (always_bind _ _ _).mpr (always_of_forall fun value => ?_)
    exact (always_bind _ _ _).mpr (Place.always_write_pc _ start value)
  case load16 dst src =>
    cases dst with
    | reg r => exact start.pc_set16 _ (other List.mem_cons_self)
    | memory mode => exact rfl
  case push pair => exact rfl
  case pop pair =>
    refine (always_bind _ _ _).mpr ((always_bind _ _ _).mpr (always_of_forall fun value => ?_))
    exact Registers.pc_set16 _ value (other List.mem_cons_self)
  case alu op operand | testBit op operand =>
    exact (always_bind _ _ _).mpr (always_of_forall fun value => rfl)
  case adjust op target | shift op target =>
    refine (always_bind _ _ _).mpr (always_of_forall fun value => ?_)
    exact (always_bind _ _ _).mpr (Place.always_write_pc _ start _)
  case adjust16 adjustment target => exact start.pc_set16 _ (other List.mem_cons_self)
  case resetBit index target | setBit index target =>
    exact (always_bind _ _ _).mpr (always_of_forall fun value => Place.always_write_pc _ start _)
  case jump | jumpRelative | call | rst | ret | reti => cases passes
  all_goals exact rfl

/-! ### A step -/

namespace Cpu

theorem run_step_branch (cpu : Cpu) (m : Memory) (branch : Branch)
    (running : cpu.stopped = false ∧ cpu.halted = false)
    (opcode : m.read cpu.regs.pc = branch.opcode) :
    let next := cpu.regs.pc + branch.size
    let latch := if branch = .reti then cpu.interrupts.enable else cpu.interrupts
    let left := if cpu.regs.takes branch.condition?
      then (branch.transfer next cpu.regs m).passed next cpu.regs m
      else ({ cpu.regs with pc := next }, m)
    let after := { cpu with regs := left.1, interrupts := latch.advance }
    cpu.step.run m = ((.executed branch.entry, after), left.2) := by
  intro next latch left after
  have found := Memory.found_of_read opcode branch.ofOpcode?_entry
  have flags : left.1.f = cpu.regs.f := by
    by_cases taken : cpu.regs.takes branch.condition? = true
    · simp only [left, if_pos taken, Transfer.f_passed]
    · simp only [left, if_neg taken]
  let operation := branch.form.fill cpu.regs (m.block (cpu.regs.pc + 1) 2)
  have acted : (operation.act (cpu.withPc next).regs).run m = left := branch.run_act next cpu.regs m
  have step := cpu.run_step_filled m running found
  rw [branch.size_entry] at step
  calc cpu.step.run m
    _ = ((.executed branch.entry, operation.settle (cpu.withPc next) left.1), left.2) := by
        rw [← acted]
        exact step
    _ = _ := congrArg (fun cpu => ((Outcome.executed branch.entry, cpu), left.2))
        (branch.settle_fill cpu.regs _ (cpu.withPc next) flags)

/-- Where a branch is at PC, the step makes its transfer if the condition is met by the flags before
the step, and otherwise does nothing but move PC behind the branch; in neither case does it park the
core. A return from an interrupt enables interrupts as well. Any other instruction that is executed
moves PC behind itself. -/
theorem step_transfers (cpu : Cpu) (m : Memory)
    (running : cpu.stopped = false ∧ cpu.halted = false) :
    (∀ branch : Branch, m.read cpu.regs.pc = branch.opcode →
      let next := cpu.regs.pc + branch.size
      ∃ after m', cpu.step.run m = ((.executed branch.entry, after), m') ∧
        ((∀ cc ∈ branch.condition?, cc.Met cpu.regs.f) →
          (after.regs, m') = (branch.transfer next cpu.regs m).passed next cpu.regs m) ∧
        ((∃ cc ∈ branch.condition?, ¬cc.Met cpu.regs.f) →
          (after.regs, m') = ({ cpu.regs with pc := next }, m)) ∧
        after.halted = cpu.halted ∧ after.stopped = cpu.stopped ∧
        (branch = .reti → after.interrupts.enabled = true)) ∧
    ∀ entry after m', (∀ branch : Branch, m.read cpu.regs.pc ≠ branch.opcode) →
      cpu.step.run m = ((.executed entry, after), m') →
      after.regs.pc = cpu.regs.pc + entry.size.toUInt16 := by
  constructor
  · intro branch opcode next
    refine ⟨_, _, cpu.run_step_branch m branch running opcode, ?_, ?_, rfl, rfl, ?_⟩
    · intro met
      exact if_pos ((cpu.regs.takes_iff _).mpr met)
    · rintro ⟨cc, there, unmet⟩
      exact if_neg fun taken => unmet ((cpu.regs.takes_iff _).mp taken cc there)
    · rintro rfl
      exact Interrupts.enabled_advance _
  · intro entry after m' other executed
    have found := ((cpu.executed_iff m entry).mp (by rw [executed])).2
    have passes : entry.form.transfers = false := by
      refine Bool.eq_false_iff.mpr fun transfers => ?_
      obtain ⟨branch, same⟩ := Entry.branch_of_transfers found transfers
      rw [Entry.opcode_of_mem found] at same
      exact other branch (Memory.read_of_opcodeAt same)
    have step := cpu.run_step_filled m running found
    rw [executed] at step
    have kept := Form.always_act_pc (Entry.reg16_pc_not_mem found) passes
    obtain ⟨⟨-, rfl⟩, -⟩ := Prod.mk.inj step
    rw [Operation.regs_settle]
    exact (kept _ _ _).run m

/-- `CALL Z, nn` around the end of memory, with its own literal where the stack is. -/
theorem step_transfers_of_call :
    let cpu : Cpu := { regs := { f := { z := true }, sp := 0x0001, pc := 0xFFFE } }
    let m := Memory.zero.load 0xFFFE [0xCC, 0x34, 0x12]
    ∃ after m', cpu.step.run m = ((.executed ⟨.plain 0xCC, .call (some .z) ()⟩, after), m') ∧
      after.regs = { cpu.regs with sp := 0xFFFF, pc := 0x1234 } ∧
      m'.block 0xFFFE 3 = [0xCC, 0x01, 0x00] := by
  intro cpu m
  have laid : m.block 0xFFFE 3 = [0xCC, 0x34, 0x12] :=
    Memory.zero.block_load 0xFFFE [0xCC, 0x34, 0x12] (by decide)
  simp only [Memory.block_succ, Memory.block_zero, List.cons.injEq, and_true] at laid
  obtain ⟨opcode, low, high⟩ := laid
  have target : m.word (cpu.regs.pc + 1) = 0x1234 := by
    rw [Memory.word, high, low]
    decide
  obtain ⟨after, m', executed, met, -⟩ :=
    (cpu.step_transfers m ⟨rfl, rfl⟩).1 (.call (some .z)) opcode
  have left := met (by simp [Branch.condition?, Condition.Met, cpu])
  rw [Branch.transfer, target] at left
  obtain ⟨regs, stored⟩ := Prod.mk.inj left
  have next : Word.low (0xFFFE + 3) = 0x01 ∧ Word.high (0xFFFE + 3) = 0x00 := by decide
  have stack : (0x0001 - 2 : UInt16) = 0xFFFF ∧ (0x0001 - 1 : UInt16) = 0x0000 := by decide
  have cells : m' = (m.write (0x0001 - 2) (Word.low (0xFFFE + 3))).write (0x0001 - 1)
    (Word.high (0xFFFE + 3)) := stored
  rw [next.1, next.2, stack.1, stack.2] at cells
  refine ⟨after, m', executed, regs, ?_⟩
  simp [cells, Memory.block_succ, Memory.read_write, opcode]

end Cpu

end Sm83
