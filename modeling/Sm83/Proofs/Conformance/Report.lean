import Sm83.Conformance.Case

/-!
# What failures say

The texts of mismatches, faults and failed batches in full, with numbers written in the usual
hexadecimal digits (`Hex.padded`) instead of digit by digit.
-/

namespace Sm83

namespace Hex

/-- The number in upper-case hexadecimal digits, filled up with zeros to the width. -/
def padded (width number : Nat) : String :=
  String.ofList (((Nat.toDigits 16 number).leftpad width '0').map Char.toUpper)

theorem toUpper_digitChar (n : Nat) : (Nat.digitChar (n % 16)).toUpper = digit n := by
  have digits : ∀ d < 16, (Nat.digitChar d).toUpper = digit d := by decide
  rw [digits _ (Nat.mod_lt n (by decide)), digit, digit, Nat.mod_mod]

theorem leftpad_toDigits_one {n : Nat} (bound : n < 16) :
    (Nat.toDigits 16 n).leftpad 1 '0' = [Nat.digitChar (n % 16)] := by
  rw [Nat.toDigits_of_lt_base bound, Nat.mod_eq_of_lt bound]
  rfl

/-- The last digit stands for the remainder, and the digits before it for the quotient. -/
theorem leftpad_toDigits_succ (width n : Nat) :
    (Nat.toDigits 16 n).leftpad (width + 2) '0' =
      (Nat.toDigits 16 (n / 16)).leftpad (width + 1) '0' ++ [Nat.digitChar (n % 16)] := by
  by_cases short : n < 16
  · rw [Nat.div_eq_of_lt short, Nat.mod_eq_of_lt short, Nat.toDigits_of_lt_base short,
      Nat.toDigits_zero]
    simp [List.leftpad, List.replicate_succ']
  · rw [Nat.toDigits_of_base_le (by decide) (Nat.le_of_not_lt short)]
    simp [List.leftpad]

theorem byte_eq (b : UInt8) : byte b = padded 2 b.toNat := by
  have bound := b.toNat_lt
  have first : b.toNat / 16 < 16 := by omega
  rw [padded, leftpad_toDigits_succ, leftpad_toDigits_one first]
  simp only [List.map_append, List.map_cons, List.map_nil, toUpper_digitChar]
  rfl

theorem word_eq (w : UInt16) : word w = padded 4 w.toNat := by
  have bound := w.toNat_lt
  have first : w.toNat / 16 / 16 / 16 < 16 := by omega
  have second : w.toNat / 16 / 16 = w.toNat / 256 := Nat.div_div_eq_div_mul _ _ _
  rw [padded, leftpad_toDigits_succ, leftpad_toDigits_succ, leftpad_toDigits_succ,
    leftpad_toDigits_one first]
  simp only [List.map_append, List.map_cons, List.map_nil, toUpper_digitChar, second]
  rw [Nat.div_div_eq_div_mul]
  rfl

/-- The bytes in brackets, separated by commas. -/
def row (bytes : List UInt8) : String :=
  "[" ++ ", ".intercalate (bytes.map fun b => padded 2 b.toNat) ++ "]"

theorem bytes_eq (bs : List UInt8) : bytes bs = row bs := by
  rw [bytes, funext byte_eq]
  rfl

end Hex

theorem Flags.text_eq (set : Flags) :
    let letters := [("Z", set.z), ("N", set.n), ("H", set.h), ("C", set.c)].filterMap
      fun (letter, up) => if up then some letter else none
    set.text = "Flags(" ++ (if letters = [] then "0x0" else " | ".intercalate letters) ++ ")" := by
  intro letters
  have same : set.letters = letters := by
    rcases set with ⟨_ | _, _ | _, _ | _, _ | _⟩ <;> rfl
  rw [text, same]
  cases letters with
  | nil => rfl
  | cons first rest =>
    rw [if_neg (by simp), if_neg (by simp)]

theorem Opcode.text_plain (byte : UInt8) : text (.plain byte) = "0x" ++ Hex.byte byte := by
  simp [text, bytes]

theorem Fault.message_plain (byte : UInt8) (pc : UInt16) :
    message { opcode := .plain byte, pc } =
      "unimplemented opcode 0x" ++ Hex.padded 2 byte.toNat ++ " at PC=0x" ++
        Hex.padded 4 pc.toNat := by
  unfold message
  simp only [Opcode.text_plain, Hex.byte_eq, Hex.word_eq, ← String.append_assoc,
    String.reduceAppend]

namespace Conformance

namespace Mismatch

theorem comparison_number (expected actual : String) :
    comparison ("0x" ++ expected) ("0x" ++ actual) =
      ": expected 0x" ++ expected ++ ", got 0x" ++ actual := by
  have left : ": expected 0x" = ": expected " ++ "0x" := rfl
  have right : ", got 0x" = ", got " ++ "0x" := rfl
  unfold comparison
  simp only [left, right, String.append_assoc, -String.reduceAppend]

theorem text_reg8 (r : Reg8) (expected actual : UInt8) :
    text (.reg8 r expected actual) =
      r.name ++ ": expected 0x" ++ Hex.padded 2 expected.toNat ++ ", got 0x" ++
        Hex.padded 2 actual.toNat := by
  unfold text
  simp only [comparison_number, Hex.byte_eq, String.append_assoc]

theorem text_reg16 (r : Reg16) (expected actual : UInt16) :
    text (.reg16 r expected actual) =
      r.name ++ ": expected 0x" ++ Hex.padded 4 expected.toNat ++ ", got 0x" ++
        Hex.padded 4 actual.toNat := by
  unfold text
  simp only [comparison_number, Hex.word_eq, String.append_assoc]

theorem text_flag (set : Flags) (expected actual : Bool) :
    text (.flag set expected actual) =
      set.text ++ ": expected " ++ toString expected ++ ", got " ++ toString actual := by
  unfold text comparison
  simp only [String.append_assoc]

theorem text_memory (address : UInt16) (expected actual : List UInt8) :
    text (.memory address expected actual) =
      "mem[0x" ++ Hex.padded 4 address.toNat ++ "]: expected " ++ Hex.row expected ++ ", got " ++
        Hex.row actual := by
  have closed : "]: expected " = "]" ++ ": expected " := rfl
  unfold text comparison
  simp only [closed, Hex.word_eq, Hex.bytes_eq, String.append_assoc, -String.reduceAppend]

end Mismatch

theorem Failure.message_fault (name : String) (fault : Fault) :
    Failure.message { name, cause := .fault fault } =
      "case `" ++ name ++ "`: " ++ fault.message := by
  have quoted : "`: " = "`" ++ ": " := rfl
  rw [quoted, ← String.append_assoc]
  exact String.append_assoc.symm

theorem Failure.message_mismatches (name : String) (entry : Entry) (found : List Mismatch) :
    Failure.message { name, cause := .mismatches entry found } =
      "case `" ++ name ++ "` (" ++ entry.text ++ "): " ++
        "; ".intercalate (found.map Mismatch.text) := by
  have quoted : "` (" = "`" ++ " (" := rfl
  rw [quoted, message]
  simp only [String.append_assoc, -String.reduceAppend]

end Conformance

end Sm83
