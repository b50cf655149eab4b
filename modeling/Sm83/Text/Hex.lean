/-!
# Hexadecimal text

A byte is written with two upper-case hexadecimal digits and a word with four, leading zeros
included.
-/

namespace Sm83.Hex

/-- The upper-case digit for the value of `n` modulo sixteen. -/
def digit (n : Nat) : Char :=
  let d := n % 16
  if d < 10 then Char.ofNat (0x30 + d) else Char.ofNat (0x37 + d)

def byte (b : UInt8) : String :=
  String.ofList [digit (b.toNat / 16), digit b.toNat]

def word (w : UInt16) : String :=
  String.ofList
    [digit (w.toNat / 4096), digit (w.toNat / 256), digit (w.toNat / 16), digit w.toNat]

/-- A bracketed list of bytes, separated by commas. -/
def bytes (bs : List UInt8) : String :=
  "[" ++ ", ".intercalate (bs.map byte) ++ "]"

end Sm83.Hex
