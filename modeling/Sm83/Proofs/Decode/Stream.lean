import Sm83.Proofs.Decode.Acceptance
import Sm83.Proofs.Memory.Load

/-!
# Decoding what was encoded

A list of instructions with their literals is encoded by putting the bytes of one after those of the
other. Where the encoding lies in memory, decoding once for each instruction finds them again one by
one, with the operands that their literals and the registers give, and ends right behind the last
(`decode_stream`). This holds wherever the encoding begins, so also where it goes on at address 0.
-/

namespace Sm83

open OperandKind (arguments?)

/-- An instruction of the opcode map and the bytes its operands take. -/
structure Encoded where
  entry : Entry
  literals : List UInt8
  listed : entry ∈ Entry.allPlain ∨ entry ∈ Entry.allPrefixed
  complete : literals.length = entry.form.extraBytes

def Encoded.bytes (encoded : Encoded) : List UInt8 :=
  encoded.entry.opcode.bytes ++ encoded.literals

def encode (stream : List Encoded) : List UInt8 :=
  stream.flatMap Encoded.bytes

theorem Encoded.length_bytes (encoded : Encoded) : encoded.bytes.length = encoded.entry.size := by
  rw [bytes, List.length_append, encoded.complete, Entry.size]

theorem length_encode_cons (first : Encoded) (rest : List Encoded) :
    (encode (first :: rest)).length = first.bytes.length + (encode rest).length := by
  rw [encode, List.flatMap_cons, List.length_append]
  rfl

/-! ### One instruction -/

theorem OperandKind.argument?_withPc (cpu : Cpu) (pc : UInt16) (bytes : List UInt8)
    {kind : OperandKind} (h : kind ≠ .memory (.pair .pc)) :
    kind.argument? (cpu.withPc pc).regs bytes = kind.argument? cpu.regs bytes := by
  rcases kind with _ | _ | _ | _ | mode | _ | _ | _
  case memory =>
    cases mode with
    | pair r =>
      have same := cpu.get16_withPc pc (r := r) (by rintro rfl; exact h rfl)
      rcases bytes with _ | ⟨_, _⟩
      · exact congrArg (some ∘ Operand.memory) same
      · rfl
    | _ => rcases bytes with _ | ⟨_, _ | ⟨_, _ | _⟩⟩ <;> rfl
  all_goals rcases bytes with _ | ⟨_, _ | ⟨_, _ | _⟩⟩ <;> rfl

theorem OperandKind.arguments?_withPc (cpu : Cpu) (pc : UInt16) (kinds : List OperandKind)
    (bytes : List UInt8) (h : ∀ kind ∈ kinds, kind ≠ .memory (.pair .pc)) :
    arguments? (cpu.withPc pc).regs kinds bytes = arguments? cpu.regs kinds bytes := by
  induction kinds generalizing bytes with
  | nil => cases bytes <;> rfl
  | cons kind rest ih =>
    obtain ⟨first, others⟩ := List.forall_mem_cons.mp h
    simp only [arguments?, argument?_withPc cpu pc _ first, ih _ others]

theorem Memory.opcodeAt_of_block {m : Memory} {address : UInt16} {opcode : Opcode}
    (listed : Entry.ofOpcode? opcode ≠ none)
    (laid : m.block address opcode.bytes.length = opcode.bytes) : m.opcodeAt address = opcode := by
  rw [Ne, Entry.ofOpcode?_eq_none_iff] at listed
  cases opcode with
  | plain byte =>
    change m.block address (0 + 1) = [byte] at laid
    rw [block_succ, block_zero, List.cons.injEq] at laid
    have single : byte ≠ Opcode.prefixByte := fun same => listed ⟨byte, rfl, .inl same⟩
    rw [opcodeAt, laid.1, if_neg single]
  | prefixed byte =>
    change m.block address (0 + 1 + 1) = [Opcode.prefixByte, byte] at laid
    rw [block_succ, block_succ, block_zero, List.cons.injEq, List.cons.injEq] at laid
    rw [opcodeAt, if_pos laid.1, laid.2.1]

/-- Where an instruction is laid, its opcode is found, and its literals behind it. -/
theorem Encoded.ofOpcode?_of_block (encoded : Encoded) {m : Memory} {address : UInt16}
    (laid : m.block address encoded.bytes.length = encoded.bytes) :
    Entry.ofOpcode? (m.opcodeAt address) = some encoded.entry ∧
      m.block (address + encoded.entry.opcode.bytes.length.toUInt16) encoded.entry.form.extraBytes =
        encoded.literals := by
  have listed := (Entry.mem_all_iff encoded.entry).mp encoded.listed
  rw [length_bytes, Entry.size, Memory.block_add, bytes] at laid
  obtain ⟨head, tail⟩ := List.append_inj laid (by simp)
  refine ⟨?_, tail⟩
  rw [Memory.opcodeAt_of_block (by simp [listed]) head]
  exact listed

structure Encoded.Found (encoded : Encoded) (regs : Registers) (pc : UInt16) (decoded : Decoded) :
    Prop where
  entry_eq : decoded.entry = encoded.entry
  pc_eq : decoded.pc = pc
  operands_eq : some decoded.operation.operands =
    arguments? regs encoded.entry.form.operands encoded.literals
  genuine : decoded.Genuine

theorem Cpu.run_decode_of_encoded {cpu : Cpu} {m : Memory} (encoded : Encoded)
    (laid : m.block cpu.regs.pc encoded.bytes.length = encoded.bytes) : ∃ decoded,
      cpu.decode.run m =
        ((.ok decoded, cpu.withPc (cpu.regs.pc + encoded.bytes.length.toUInt16)), m) ∧
      encoded.Found cpu.regs cpu.regs.pc decoded := by
  have listed := (Entry.mem_all_iff encoded.entry).mp encoded.listed
  obtain ⟨found, literals⟩ := encoded.ofOpcode?_of_block laid
  obtain ⟨operation, run, operands, same⟩ :=
    run_decode_of_some (s := { bus := m : Recorded Memory }) found
  have unrecorded := cpu.decode.run_recorded { bus := m : Recorded Memory }
  rw [run] at unrecorded
  rw [Encoded.length_bytes]
  exact ⟨_, Prod.ext unrecorded.1.symm unrecorded.2.symm, rfl, rfl,
    operands.trans (by rw [literals]), listed, same.1, same.2⟩

/-! ### A stream of instructions -/

/-- Decodes again and again, without executing anything. -/
def Cpu.decodeTimes (cpu : Cpu) : (count : Nat) → BusM (List (Except Fault Decoded) × Cpu)
  | 0 => return ([], cpu)
  | count + 1 => do
      let (result, next) ← cpu.decode
      let (results, last) ← next.decodeTimes count
      return (result :: results, last)

/-- The decoded instructions are those of the stream, each found behind the ones before it. -/
structure FoundAll (stream : List Encoded) (regs : Registers) (origin : UInt16)
    (decoded : List Decoded) : Prop where
  length_eq : decoded.length = stream.length
  found : ∀ i (encoded : Encoded), stream[i]? = some encoded → ∃ d, decoded[i]? = some d ∧
    encoded.Found regs (origin + (encode (stream.take i)).length.toUInt16) d

theorem Encoded.Found.of_withPc {encoded : Encoded} {cpu : Cpu} {pc pc' : UInt16} {decoded : Decoded}
    (h : encoded.Found (cpu.withPc pc).regs pc' decoded) : encoded.Found cpu.regs pc' decoded := by
  have listed := (Entry.mem_all_iff encoded.entry).mp encoded.listed
  obtain ⟨-, direct⟩ := Entry.size_le_and_ne_pc listed
  refine ⟨h.entry_eq, h.pc_eq, ?_, h.genuine⟩
  rw [h.operands_eq, OperandKind.arguments?_withPc cpu pc _ _ direct]

theorem foundAll_cons {first : Encoded} {rest : List Encoded} {cpu : Cpu} {d : Decoded}
    {ds : List Decoded} (head : first.Found cpu.regs cpu.regs.pc d)
    (tail : let next := cpu.regs.pc + first.bytes.length.toUInt16
      FoundAll rest (cpu.withPc next).regs next ds) :
    FoundAll (first :: rest) cpu.regs cpu.regs.pc (d :: ds) := by
  refine ⟨congrArg Nat.succ tail.length_eq, ?_⟩
  intro i encoded there
  cases i with
  | zero =>
    obtain rfl := Option.some.inj there
    exact ⟨d, rfl, by simpa [encode] using head⟩
  | succ i =>
    obtain ⟨d', there', found⟩ := tail.found i encoded there
    refine ⟨d', there', ?_⟩
    -- The registers have changed since the beginning, but only in PC.
    rw [List.take_succ_cons, length_encode_cons, address_add]
    exact found.of_withPc

theorem Cpu.run_decodeTimes_of_block (cpu : Cpu) {m : Memory} (stream : List Encoded)
    (laid : m.block cpu.regs.pc (encode stream).length = encode stream) :
    ∃ decoded : List Decoded,
      (cpu.decodeTimes stream.length).run m =
        ((decoded.map .ok, cpu.withPc (cpu.regs.pc + (encode stream).length.toUInt16)), m) ∧
      FoundAll stream cpu.regs cpu.regs.pc decoded := by
  induction stream generalizing cpu with
  | nil => exact ⟨[], by simp [decodeTimes, encode, withPc], rfl, by simp⟩
  | cons first rest ih =>
    rw [length_encode_cons, Memory.block_add] at laid
    obtain ⟨head, tail⟩ := List.append_inj laid (by simp)
    obtain ⟨d, run, found⟩ := run_decode_of_encoded first head
    let next := cpu.regs.pc + first.bytes.length.toUInt16
    obtain ⟨ds, runs, others⟩ := ih (cpu.withPc next) tail
    refine ⟨d :: ds, ?_, foundAll_cons found others⟩
    rw [List.length_cons, decodeTimes, BusM.run_bind, run]
    dsimp only
    rw [BusM.run_bind, runs, length_encode_cons, address_add]
    rfl

/-- A stream that fits into memory, loaded at PC, decodes into its instructions one by one. Nothing
but PC changes, and PC ends behind the last. -/
theorem Cpu.decode_stream (cpu : Cpu) (m : Memory) (stream : List Encoded)
    (fits : (encode stream).length ≤ 0x10000) :
    let origin := cpu.regs.pc
    let loaded := m.load origin (encode stream)
    ∃ decoded : List Decoded,
      (cpu.decodeTimes stream.length).run loaded =
        ((decoded.map .ok, cpu.withPc (origin + (encode stream).length.toUInt16)), loaded) ∧
      FoundAll stream cpu.regs origin decoded :=
  cpu.run_decodeTimes_of_block stream (m.block_load cpu.regs.pc (encode stream) fits)

/-- `LD BC, 1234H` begins in the last cell but one, so `SWAP A` follows at address 1. -/
theorem Cpu.decode_stream_across_end :
    let cpu : Cpu := { regs := { pc := 0xFFFE } }
    let stream : List Encoded :=
      [⟨⟨.plain 0x01, .load16 (.reg .bc) (.literal ())⟩, [0x34, 0x12],
          (Entry.mem_all_iff _).mpr (by decide), rfl⟩,
        ⟨⟨.prefixed 0x37, .shift .swap (.reg .a)⟩, [], (Entry.mem_all_iff _).mpr (by decide), rfl⟩]
    let loaded := Memory.zero.load 0xFFFE [0x01, 0x34, 0x12, 0xCB, 0x37]
    (encode stream).length ≤ 0x10000 ∧ ∃ decoded : List Decoded,
      (cpu.decodeTimes 2).run loaded = ((decoded.map .ok, cpu.withPc 0x0003), loaded) ∧
      FoundAll stream cpu.regs 0xFFFE decoded := by
  intro cpu stream loaded
  have bytes : encode stream = [0x01, 0x34, 0x12, 0xCB, 0x37] := rfl
  have fits : (encode stream).length ≤ 0x10000 := by simp [bytes]
  obtain ⟨decoded, run, found⟩ := decode_stream cpu Memory.zero stream fits
  have behind : cpu.regs.pc + (encode stream).length.toUInt16 = 0x0003 := by
    rw [bytes]
    decide
  rw [behind, bytes] at run
  exact ⟨fits, decoded, run, found⟩

end Sm83
