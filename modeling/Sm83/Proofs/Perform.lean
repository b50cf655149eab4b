import Sm83.Proofs.Step

/-!
# Performing an instruction

What an instruction does to a core and to a bus can be asked of any core and any bus if its bytes are
kept apart from that bus. To perform it is to decode its bytes as if they lay at PC, and to execute
what has been decoded. Where the bytes do lie at PC on some bus, on the one at hand or on another,
decoding them from there gives the same to execute (`perform_eq_execute`).
-/

namespace Sm83

open FlatBus (memory)

namespace Encoded

def ofPlain (byte : UInt8) (literals : List UInt8) {form : Form}
    (listed : Entry.ofOpcode? (.plain byte) = some ⟨.plain byte, form⟩)
    (complete : literals.length = form.extraBytes) : Encoded where
  entry := ⟨.plain byte, form⟩
  literals := literals
  listed := (Entry.mem_all_iff _).mpr listed
  complete := complete

theorem extraBytes_prefixed (byte : UInt8) : (Form.prefixed byte).extraBytes = 0 := by
  have listed : Entry.ofOpcode? (.prefixed byte) = some ⟨.prefixed byte, Form.prefixed byte⟩ := rfl
  exact (Entry.plain_or_bare listed).resolve_left (by simp [Opcode.bytes])

def ofPrefixed (byte : UInt8) : Encoded where
  entry := ⟨.prefixed byte, Form.prefixed byte⟩
  literals := []
  listed := (Entry.mem_all_iff _).mpr rfl
  complete := (extraBytes_prefixed byte).symm

end Encoded

namespace Cpu

/-- Decodes the bytes from PC on and executes the instruction they begin with. -/
def perform (cpu : Cpu) (code : List UInt8) : BusM Cpu :=
  match (cpu.decode.run (Memory.zero.load cpu.regs.pc code)).1 with
  | (.ok decoded, next) => decoded.operation.execute next
  | (.error _, next) => return next

/-- Performs instructions one after the other. -/
def performAll (cpu : Cpu) (codes : List (List UInt8)) : BusM Cpu :=
  codes.foldlM perform cpu

/-- Wherever the code lies at PC on a flat bus, decoding it there gives what performing it
executes. -/
def PerformsDecoded (code : List UInt8) : Prop :=
  ∀ (cpu : Cpu) (σ : Type) [Bus σ] [FlatBus σ] (bus : σ),
    (memory bus).block cpu.regs.pc code.length = code → ∃ decoded next,
      cpu.decode.run bus = ((.ok decoded, next), bus) ∧
        cpu.perform code = decoded.operation.execute next

theorem performAll_cons (cpu : Cpu) (code : List UInt8) (rest : List (List UInt8)) :
    cpu.performAll (code :: rest) = cpu.perform code >>= fun next => next.performAll rest :=
  List.foldlM_cons

theorem performAll_pair (cpu : Cpu) (first second : List UInt8) :
    cpu.performAll [first, second] = cpu.perform first >>= fun next => next.perform second := by
  simp [performAll]

theorem perform_bytes (cpu : Cpu) (encoded : Encoded) :
    cpu.perform encoded.bytes =
      (encoded.entry.form.fill cpu.regs encoded.literals).execute
        (cpu.withPc (cpu.regs.pc + encoded.bytes.length.toUInt16)) := by
  rw [perform, encoded.run_decode cpu _ (encoded.block_load Memory.zero cpu.regs.pc)]

/-- Any core decodes the instruction from any flat bus on which it lies at PC, and to perform it is
to execute what has been decoded. -/
theorem perform_eq_execute (encoded : Encoded) : PerformsDecoded encoded.bytes := by
  intro cpu σ _ _ bus laid
  exact ⟨_, _, encoded.run_decode cpu bus laid, cpu.perform_bytes encoded⟩

theorem perform_plain (cpu : Cpu) (byte : UInt8) (literals : List UInt8) {form : Form}
    (listed : Entry.ofOpcode? (.plain byte) = some ⟨.plain byte, form⟩)
    (complete : literals.length = form.extraBytes) :
    cpu.perform (byte :: literals) =
      (form.fill cpu.regs literals).execute
        (cpu.withPc (cpu.regs.pc + (literals.length + 1).toUInt16)) :=
  cpu.perform_bytes (Encoded.ofPlain byte literals listed complete)

theorem perform_prefixed (cpu : Cpu) (byte : UInt8) :
    cpu.perform [0xCB, byte] =
      ((Form.prefixed byte).fill cpu.regs []).execute (cpu.withPc (cpu.regs.pc + 2)) :=
  cpu.perform_bytes (Encoded.ofPrefixed byte)

end Cpu

end Sm83
