import Sm83.Proofs.Loads
import Sm83.Proofs.Transfer

/-!
# Sums of words

Two kinds of sums have sixteen bits: a word is added to HL, or a signed byte is added to SP. The first
is the sum of the low bytes and then of the high bytes with its carry (`pairSum_eq_bytes`). The flags
of the second are those of an unsigned sum of bytes, whatever the sign; they also tell whether the low
byte and the low nibble have become smaller (`offsetSum_flags`). A step that executes one of them
leaves what arithmetic without a width says and changes nothing else (`step_word_sums`).
-/

namespace Sm83

namespace Widened

/-- `base + value`: the carries out of bits 11 and 15. The zero flag is handed through. -/
def pairSum (base value : UInt16) (zero : Bool) : UInt16 × Flags :=
  let total := base.toNat + value.toNat
  let half := base.toNat % 4096 + value.toNat % 4096
  (UInt16.ofNat total,
    { z := zero, n := false, h := decide (4096 ≤ half), c := decide (65536 ≤ total) })

/-- `base` plus a signed byte: the carries out of bits 3 and 7 when the byte is added without a sign
to the low byte of `base`. -/
def offsetSum (base : UInt16) (offset : UInt8) : UInt16 × Flags :=
  let low := base.toNat % 256 + offset.toNat
  let half := base.toNat % 16 + offset.toNat % 16
  (UInt16.ofInt (base.toNat + Byte.signed offset),
    { z := false, n := false, h := decide (16 ≤ half), c := decide (256 ≤ low) })

open Arithmetic in
/-- Adding words is adding their low bytes and then their high bytes with the carry. -/
theorem pairSum_eq_bytes (base value : UInt16) (zero : Bool) :
    let low := add8 (Word.low base) (Word.low value) false
    let high := add8 (Word.high base) (Word.high value) low.2.c
    pairSum base value zero =
      (Word.join high.1 low.1, { z := zero, n := false, h := high.2.h, c := high.2.c }) := by
  intro low high
  have hb := base.toNat_lt
  have hv := value.toNat_lt
  have low_eq : low = sum (Word.low base) (Word.low value) false := add8_eq _ _ _
  have high_eq : high = sum (Word.high base) (Word.high value) low.2.c := add8_eq _ _ _
  have lower : low.1.toNat + 256 * low.2.c.toNat = base.toNat % 256 + value.toNat % 256 := by
    simpa [low_eq] using sum_total (Word.low base) (Word.low value) false
  have upper : high.1.toNat + 256 * high.2.c.toNat =
      base.toNat / 256 + value.toNat / 256 + low.2.c.toNat := by
    simpa [high_eq] using sum_total (Word.high base) (Word.high value) low.2.c
  have hl := low.1.toNat_lt
  have hh := high.1.toNat_lt
  have result : UInt16.ofNat (base.toNat + value.toNat) = Word.join high.1 low.1 := by
    apply UInt16.toNat_inj.mp
    rw [Word.toNat_join, UInt16.toNat_ofNat']
    omega
  have half : 4096 ≤ base.toNat % 4096 + value.toNat % 4096 ↔
      16 ≤ base.toNat / 256 % 16 + value.toNat / 256 % 16 + low.2.c.toNat := by
    omega
  have full : 65536 ≤ base.toNat + value.toNat ↔
      256 ≤ base.toNat / 256 + value.toNat / 256 + low.2.c.toNat := by
    omega
  simp only [pairSum, result, half, full]
  simp only [high_eq, sum, Word.toNat_high]

/-- The carries tell that the low nibble and the low byte have become smaller. -/
theorem offsetSum_flags (base : UInt16) (offset : UInt8) :
    let (result, f) := offsetSum base offset
    (f.h = true ↔ result.toNat % 16 < base.toNat % 16) ∧
      (f.c = true ↔ result.toNat % 256 < base.toNat % 256) := by
  have hb := base.toNat_lt
  have ho := offset.toNat_lt
  have result : (UInt16.ofInt (base.toNat + Byte.signed offset)).toNat % 256 =
      (base.toNat + offset.toNat) % 256 := by
    rw [← Byte.add_signExtend, UInt16.toNat_add, Byte.toNat_signExtend]
    split <;> omega
  simp only [offsetSum, decide_eq_true_eq]
  omega

end Widened

namespace Arithmetic

theorem add16_eq (base value : UInt16) (f : Flags) :
    let (result, computed) := add16 base value
    (result, { f with n := false, h := computed.h, c := computed.c }) =
      Widened.pairSum base value f.z := by
  have hb := base.toNat_lt
  have hv := value.toNat_lt
  have result : base + value = UInt16.ofNat (base.toNat + value.toNat) := by simp
  have half : sum12 base value > 0x0FFF ↔ 4096 ≤ base.toNat % 4096 + value.toNat % 4096 := by
    have limit : (0x0FFF : UInt16).toNat = 4095 := rfl
    rw [gt_iff_lt, UInt16.lt_iff_toNat_lt, toNat_sum12, limit]
    omega
  have full : base.toUInt32 + value.toUInt32 > 0xFFFF ↔ 65536 ≤ base.toNat + value.toNat := by
    have limit : (0xFFFF : UInt32).toNat = 65535 := rfl
    rw [gt_iff_lt, UInt32.lt_iff_toNat_lt, UInt32.toNat_add, UInt16.toNat_toUInt32,
      UInt16.toNat_toUInt32, limit]
    omega
  simp only [add16, Widened.pairSum, result, half, full]

theorem addSigned_eq (base : UInt16) (offset : UInt8) :
    let (result, computed) := addSigned base offset
    (result, { computed with z := false, n := false }) = Widened.offsetSum base offset := by
  have half : Byte.lowNibble (Word.low base) + Byte.lowNibble offset > 0x0F ↔
      16 ≤ base.toNat % 16 + offset.toNat % 16 := by
    have limit : (0x0F : UInt8).toNat = 15 := rfl
    rw [gt_iff_lt, UInt8.lt_iff_toNat_lt, UInt8.toNat_add, Byte.toNat_lowNibble,
      Byte.toNat_lowNibble, Word.toNat_low, limit]
    omega
  have full : wideSum (Word.low base) offset false > 0xFF ↔
      256 ≤ base.toNat % 256 + offset.toNat := by
    have limit : (0xFF : UInt16).toNat = 255 := rfl
    rw [gt_iff_lt, UInt16.lt_iff_toNat_lt, toNat_wideSum, Word.toNat_low, limit]
    simp
    omega
  simp only [addSigned, Widened.offsetSum, Byte.add_signExtend, half, full]

end Arithmetic

theorem Entry.ofOpcode?_addHl (src : Fin 4) :
    let byte : UInt8 := 0x09 + 0x10 * src.val.toUInt8
    ofOpcode? (.plain byte) = some ⟨.plain byte, .addHl (.selected src)⟩ := by
  revert src
  decide

namespace Cpu

variable {σ : Type} [Bus σ] [FlatBus σ]

open FlatBus (memory)

theorem run_step_addHl (cpu : Cpu) (bus : σ) {byte : UInt8} {src : Reg16}
    (running : cpu.stopped = false ∧ cpu.halted = false)
    (opcode : (memory bus).read cpu.regs.pc = byte)
    (listed : Entry.ofOpcode? (.plain byte) = some ⟨.plain byte, .addHl src⟩) :
    let left := Widened.pairSum (cpu.regs.get16 .hl) (cpu.regs.get16 src) cpu.regs.f.z
    let regs := { cpu.regs with
      f := left.2, h := Word.high left.1, l := Word.low left.1, pc := cpu.regs.pc + 1 }
    cpu.step.run bus =
      ((.executed ⟨.plain byte, .addHl src⟩,
        { cpu with regs, interrupts := cpu.interrupts.advance }), bus) := by
  intro left regs
  have found := Memory.found_of_read opcode listed
  have other : src ≠ .pc := by
    rintro rfl
    exact Entry.reg16_pc_not_mem found (by simp [Instruction.operands])
  have sum := Arithmetic.add16_eq (cpu.regs.get16 .hl) (cpu.regs.get16 src) cpu.regs.f
  have value : (cpu.withPc (cpu.regs.pc + 1)).regs.get16 src = cpu.regs.get16 src :=
    cpu.get16_withPc _ other
  rw [cpu.run_step_filled bus running found]
  simp only [left, regs, ← sum, ← value]
  rfl

theorem run_step_addSp (cpu : Cpu) (bus : σ) (running : cpu.stopped = false ∧ cpu.halted = false)
    (opcode : (memory bus).read cpu.regs.pc = 0xE8) :
    let left := Widened.offsetSum cpu.regs.sp ((memory bus).read (cpu.regs.pc + 1))
    let regs := { cpu.regs with f := left.2, sp := left.1, pc := cpu.regs.pc + 2 }
    cpu.step.run bus =
      ((.executed ⟨.plain 0xE8, .addSp ()⟩,
        { cpu with regs, interrupts := cpu.interrupts.advance }), bus) := by
  intro left regs
  have listed : Entry.ofOpcode? (.plain 0xE8) = some ⟨.plain 0xE8, .addSp ()⟩ := rfl
  have found := Memory.found_of_read opcode listed
  have offset := (memory bus).literalByte_block (cpu.regs.pc + 1)
  have sum := Arithmetic.addSigned_eq cpu.regs.sp ((memory bus).read (cpu.regs.pc + 1))
  rw [cpu.run_step_filled bus running found]
  simp only [left, regs, ← sum, ← offset]
  rfl

theorem run_step_loadHlSp (cpu : Cpu) (bus : σ)
    (running : cpu.stopped = false ∧ cpu.halted = false)
    (opcode : (memory bus).read cpu.regs.pc = 0xF8) :
    let left := Widened.offsetSum cpu.regs.sp ((memory bus).read (cpu.regs.pc + 1))
    let regs := { cpu.regs with
      f := left.2, h := Word.high left.1, l := Word.low left.1, pc := cpu.regs.pc + 2 }
    cpu.step.run bus =
      ((.executed ⟨.plain 0xF8, .loadHlSp ()⟩,
        { cpu with regs, interrupts := cpu.interrupts.advance }), bus) := by
  intro left regs
  have listed : Entry.ofOpcode? (.plain 0xF8) = some ⟨.plain 0xF8, .loadHlSp ()⟩ := rfl
  have found := Memory.found_of_read opcode listed
  have offset := (memory bus).literalByte_block (cpu.regs.pc + 1)
  have sum := Arithmetic.addSigned_eq cpu.regs.sp ((memory bus).read (cpu.regs.pc + 1))
  rw [cpu.run_step_filled bus running found]
  simp only [left, regs, ← sum, ← offset]
  rfl

open Arithmetic in
/-- A step that executes `ADD HL, rr` leaves in HL the sum of the words, keeps Z, clears N, and reports
the carries out of bits 11 and 15, which are those of adding the low and then the high bytes. One that
executes `ADD SP, n` or `LDHL SP, n` leaves the sum of SP and the signed byte in SP or in HL, clears Z
and N, and reports the carries of the unsigned sum of the low bytes, which tell whether the low nibble
and the low byte are smaller than before. PC moves behind the instruction, and no other register, no
cell and no bit that parks the core changes. -/
theorem step_word_sums (cpu : Cpu) (bus : σ) (running : cpu.stopped = false ∧ cpu.halted = false) :
    let regs := cpu.regs
    let opcode := (memory bus).read regs.pc
    let interrupts := cpu.interrupts.advance
    (∀ src : Fin 4, opcode = 0x09 + 0x10 * src.val.toUInt8 →
      let hl := regs.get16 .hl
      let value := regs.get16 (.selected src)
      let (sum, f) := Widened.pairSum hl value regs.f.z
      let after := { regs with f, h := Word.high sum, l := Word.low sum, pc := regs.pc + 1 }
      let low := add8 (Word.low hl) (Word.low value) false
      let high := add8 (Word.high hl) (Word.high value) low.2.c
      cpu.step.run bus =
        ((.executed ⟨.plain opcode, .addHl (.selected src)⟩,
          { cpu with regs := after, interrupts }), bus) ∧
      sum = Word.join high.1 low.1 ∧ f.h = high.2.h ∧ f.c = high.2.c) ∧
    let (sum, f) := Widened.offsetSum regs.sp ((memory bus).read (regs.pc + 1))
    (opcode = 0xE8 →
      let after := { regs with f, sp := sum, pc := regs.pc + 2 }
      cpu.step.run bus =
        ((.executed ⟨.plain 0xE8, .addSp ()⟩, { cpu with regs := after, interrupts }), bus)) ∧
    (opcode = 0xF8 →
      let after := { regs with f, h := Word.high sum, l := Word.low sum, pc := regs.pc + 2 }
      cpu.step.run bus =
        ((.executed ⟨.plain 0xF8, .loadHlSp ()⟩, { cpu with regs := after, interrupts }), bus)) ∧
    (f.h = true ↔ sum.toNat % 16 < regs.sp.toNat % 16) ∧
    (f.c = true ↔ sum.toNat % 256 < regs.sp.toNat % 256) := by
  intro regs opcode interrupts
  refine ⟨?_, cpu.run_step_addSp bus running, cpu.run_step_loadHlSp bus running,
    Widened.offsetSum_flags regs.sp _⟩
  intro src same
  have listed : Entry.ofOpcode? (.plain opcode) =
      some ⟨.plain opcode, .addHl (.selected src)⟩ := by
    rw [same]
    exact Entry.ofOpcode?_addHl src
  have bytes := Widened.pairSum_eq_bytes (regs.get16 .hl) (regs.get16 (.selected src)) regs.f.z
  obtain ⟨sum, flags⟩ := Prod.mk.inj bytes
  obtain ⟨-, -, half, full⟩ := Flags.mk.inj flags
  exact ⟨cpu.run_step_addHl bus running rfl listed, sum, half, full⟩

/-- `ADD HL, HL` in the last cell, with carries out of both bits, and `ADD SP, n` around the end of
memory, with one taken from SP. -/
theorem step_word_sums_around_end :
    let cpu : Cpu := { regs := { f := { z := true, n := true }, h := 0x88, sp := 1, pc := 0xFFFF } }
    let m := Memory.zero.write 0xFFFF 0x29
    let n := (Memory.zero.write 0xFFFF 0xE8).write 0x0000 0xFF
    m.read 0xFFFF = 0x29 ∧
    cpu.step.run m =
      ((.executed ⟨.plain 0x29, .addHl .hl⟩,
        { regs := { f := { z := true, h := true, c := true }, h := 0x10, sp := 1, pc := 0x0000 } }),
        m) ∧
    n.read 0xFFFF = 0xE8 ∧
    cpu.step.run n =
      ((.executed ⟨.plain 0xE8, .addSp ()⟩,
        { regs := { f := { h := true, c := true }, h := 0x88, sp := 0, pc := 0x0001 } }), n) := by
  intro cpu m n
  have opcode : m.read 0xFFFF = 0x29 := Memory.read_write_self _ _ _
  have opcode' : n.read 0xFFFF = 0xE8 :=
    (Memory.read_write_of_ne _ _ (by decide)).trans (Memory.read_write_self _ _ _)
  have offset : n.read (0xFFFF + 1) = 0xFF := Memory.read_write_self _ _ 0xFF
  refine ⟨opcode, ?_, opcode', ?_⟩
  · obtain ⟨step, -⟩ := (cpu.step_word_sums m ⟨rfl, rfl⟩).1 2 opcode
    rw [step, show (memory m).read cpu.regs.pc = 0x29 from opcode]
    exact congrArg (fun after => ((Outcome.executed ⟨.plain 0x29, .addHl .hl⟩, after), m)) (by decide)
  · have step := (cpu.step_word_sums n ⟨rfl, rfl⟩).2.1 opcode'
    rw [show (memory n).read (cpu.regs.pc + 1) = 0xFF from offset] at step
    rw [step]
    exact congrArg (fun after => ((Outcome.executed ⟨.plain 0xE8, .addSp ()⟩, after), n)) (by decide)

end Cpu

end Sm83
