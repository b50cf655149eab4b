import Sm83.OpcodeMap

/-!
# Lines of the opcode map

What every line of the two maps has in common, checked opcode by opcode.
-/

namespace Sm83.Entry

theorem opcode_of_mem {opcode : Opcode} {entry : Entry} (h : entry ∈ ofOpcode? opcode) :
    entry.opcode = opcode := by
  obtain ⟨form, -, rfl⟩ := Option.map_eq_some_iff.mp h
  rfl

/-- Only a hole, and the byte CB alone, has no line. -/
theorem ofOpcode?_eq_none_iff (opcode : Opcode) :
    ofOpcode? opcode = none ↔
      ∃ byte, opcode = .plain byte ∧ (byte = Opcode.prefixByte ∨ byte ∈ Opcode.holes) := by
  rw [ofOpcode?, Option.map_eq_none_iff]
  cases opcode with
  | plain byte =>
    rw [Opcode.form?, Form.plain?_eq_none_iff]
    constructor
    · exact fun h => ⟨byte, rfl, h⟩
    · rintro ⟨_, same, h⟩
      exact Opcode.plain.inj same ▸ h
  | prefixed byte => simp [Opcode.form?]

/-- The two maps together list the line of each opcode that has one. -/
theorem mem_all_iff (entry : Entry) :
    entry ∈ allPlain ∨ entry ∈ allPrefixed ↔ ofOpcode? entry.opcode = some entry := by
  have listed (kind : UInt8 → Opcode) :
      entry ∈ (List.range 256).filterMap (fun n => ofOpcode? (kind n.toUInt8)) ↔
        ∃ byte, ofOpcode? (kind byte) = some entry := by
    rw [List.mem_filterMap]
    constructor
    · rintro ⟨n, -, h⟩
      exact ⟨n.toUInt8, h⟩
    · rintro ⟨byte, h⟩
      exact ⟨byte.toNat, List.mem_range.mpr byte.toNat_lt, by simpa using h⟩
  rw [allPlain, allPrefixed, listed, listed]
  constructor
  · rintro (⟨byte, h⟩ | ⟨byte, h⟩) <;> rwa [opcode_of_mem h]
  · intro h
    cases found : entry.opcode with
    | plain byte => exact .inl ⟨byte, found ▸ h⟩
    | prefixed byte => exact .inr ⟨byte, found ▸ h⟩

/-- What holds of every line can be checked on the two lists. -/
@[elab_as_elim]
theorem forall_of_all {motive : Entry → Prop} (plain : ∀ entry ∈ allPlain, motive entry)
    (prefixed : ∀ entry ∈ allPrefixed, motive entry) {opcode : Opcode} {entry : Entry}
    (h : entry ∈ ofOpcode? opcode) : motive entry := by
  have listed : ofOpcode? entry.opcode = some entry := by rwa [opcode_of_mem h]
  rcases (mem_all_iff entry).mpr listed with first | second
  · exact plain entry first
  · exact prefixed entry second

/-- No instruction is longer than three bytes, and none goes through the cell at PC. -/
theorem size_le_and_ne_pc {opcode : Opcode} {entry : Entry} (h : entry ∈ ofOpcode? opcode) :
    entry.size ≤ 3 ∧ ∀ kind ∈ entry.form.operands, kind ≠ .memory (.pair .pc) :=
  forall_of_all (by decide +kernel) (by decide +kernel) h

/-- Only an opcode of one byte has literals after it. -/
theorem plain_or_bare {opcode : Opcode} {entry : Entry} (h : entry ∈ ofOpcode? opcode) :
    entry.opcode.bytes.length = 1 ∨ entry.form.extraBytes = 0 :=
  forall_of_all (by decide +kernel) (by decide +kernel) h

/-- No instruction names PC as an operand. -/
theorem reg16_pc_not_mem {opcode : Opcode} {entry : Entry} (h : entry ∈ ofOpcode? opcode) :
    .reg16 .pc ∉ entry.form.operands :=
  forall_of_all (by decide +kernel) (by decide +kernel) h

end Sm83.Entry
