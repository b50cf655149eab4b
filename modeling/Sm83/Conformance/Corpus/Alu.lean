import Sm83.Conformance.Corpus.Loads

/-!
# Cases for 8-bit arithmetic

A fixture gives the operands of an operation and its outcome. From one list of fixtures come the
cases for every source the operation can have: each register, the byte at HL and a literal. With A
as the source both operands are the same byte, so fixtures with different ones are left out there.
-/

namespace Sm83.Conformance.Corpus

/-- Where the second operand of an operation on A comes from. -/
inductive AluSource where
  | reg (r : Reg8)
  | indirect
  | literal
  deriving DecidableEq

structure AluFixture where
  label : String
  a : UInt8
  value : UInt8
  carry : Bool := false
  result : UInt8
  flags : Flags := {}

namespace AluSource

def all : List AluSource :=
  Reg8.all.map reg ++ [indirect, literal]

def name : AluSource → String
  | reg r => r.name
  | indirect => "(HL)"
  | literal => "n"

/-- The opcode of an operation for a source. `base` is the opcode for B, with which those for the
other registers and the byte at HL differ in one field. -/
def opcode (base immediate : UInt8) : AluSource → UInt8
  | reg r => base ||| fieldOf r
  | indirect => base ||| hlField
  | literal => immediate

/-- Whether a fixture can be put to the test with this source. -/
def admits (source : AluSource) (fixture : AluFixture) : Bool :=
  source != reg .a || fixture.a == fixture.value

def presets (value : UInt8) : AluSource → List Field
  | reg r => [.reg8 r value]
  | indirect => [.reg16 .hl 0xCAFE, .memory 0xCAFE [value]]
  | literal => []

def extra (value : UInt8) : AluSource → List UInt8
  | literal => [value]
  | reg _ | indirect => []

end AluSource

def aluCase (mnemonic : String) (base immediate : UInt8) (source : AluSource)
    (fixture : AluFixture) : Case where
  name := mnemonic ++ " A, " ++ source.name ++ ": " ++ fixture.label
  opcode := [source.opcode base immediate]
  extra := source.extra fixture.value
  presets :=
    .reg8 .a fixture.a ::
      ((if fixture.carry then [.flag { c := true } true] else []) ++ source.presets fixture.value)
  expectations := withFlags [.reg8 .a fixture.result] fixture.flags

def aluCases (mnemonic : String) (base immediate : UInt8) (fixtures : List AluFixture) :
    List Case :=
  AluSource.all.flatMap fun source =>
    (fixtures.filter source.admits).map (aluCase mnemonic base immediate source)

def add : List Case :=
  aluCases "ADD" 0x80 0xC6
    [{ label := "base", a := 0x21, value := 0x21, result := 0x42 },
     { label := "Z", a := 0x00, value := 0x00, result := 0x00, flags := { z := true } },
     { label := "H", a := 0x18, value := 0x18, result := 0x30, flags := { h := true } },
     { label := "H, distinct operands", a := 0x22, value := 0x0F, result := 0x31,
       flags := { h := true } },
     { label := "C", a := 0x90, value := 0x90, result := 0x20, flags := { c := true } },
     { label := "C, distinct operands", a := 0x20, value := 0xF0, result := 0x10,
       flags := { c := true } }]

/-- With FF on both sides an ignored carry would show in the result. -/
def adc : List Case :=
  aluCases "ADC" 0x88 0xCE
    [{ label := "base", a := 0x21, value := 0x21, result := 0x42 },
     { label := "carry set", a := 0xFF, value := 0xFF, carry := true, result := 0xFF,
       flags := { h := true, c := true } },
     { label := "Z", a := 0x00, value := 0x00, result := 0x00, flags := { z := true } },
     { label := "H", a := 0x18, value := 0x18, result := 0x30, flags := { h := true } },
     { label := "C", a := 0x90, value := 0x90, result := 0x20, flags := { c := true } }]

/-- The last case is about A less itself, which is zero whatever A holds. -/
def sub : List Case :=
  aluCases "SUB" 0x90 0xD6
    [{ label := "base", a := 0x22, value := 0x21, result := 0x01, flags := { n := true } },
     { label := "Z", a := 0x00, value := 0x00, result := 0x00,
       flags := { z := true, n := true } },
     { label := "H", a := 0x20, value := 0x01, result := 0x1F,
       flags := { n := true, h := true } },
     { label := "C", a := 0x70, value := 0x90, result := 0xE0,
       flags := { n := true, c := true } }] ++
  [{ name := "SUB A, A: nonzero A"
     opcode := [0x97]
     presets := [.reg8 .a 0x21]
     expectations := withFlags [.reg8 .a 0x00] { z := true, n := true } }]

/-- The increments of every register and of the byte at HL from one byte to the next. -/
def incCases (label : String) (before after : UInt8) (f : Flags) : List Case :=
  Reg8.all.map (fun r =>
    { name := "INC " ++ r.name ++ ": " ++ label
      opcode := [0x04 ||| fieldOf r <<< (3 : UInt8)]
      presets := [.reg8 r before]
      expectations := withFlags [.reg8 r after] f }) ++
  [{ name := "INC (HL): " ++ label
     opcode := [0x34]
     presets := [.memory 0x0CAF [before], .reg16 .hl 0x0CAF]
     expectations := withFlags [.memory 0x0CAF [after]] f }]

def inc : List Case :=
  incCases "base" 0x21 0x22 {} ++
  incCases "Z" 0xFF 0x00 { z := true, h := true } ++
  incCases "H" 0x1F 0x20 { h := true }

end Sm83.Conformance.Corpus
