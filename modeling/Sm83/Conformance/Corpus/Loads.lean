import Sm83.Conformance.Case

/-!
# Cases for loads

Every 8-bit and 16-bit move, with the byte 21 or a two-byte word as what is moved.
-/

namespace Sm83.Conformance.Corpus

def fieldOf (r : Reg8) : UInt8 :=
  r.index.toUInt8

def hlField : UInt8 := 6

def withFlags (fields : List Field) (f : Flags) : List Field :=
  fields ++ Field.flags f

/-- A literal into a register, and then every register into it. -/
def registerLoads (dst : Reg8) : List Case :=
  { name := "LD " ++ dst.name ++ ", n"
    opcode := [0x06 ||| fieldOf dst <<< (3 : UInt8)]
    extra := [0x21]
    expectations := [.reg8 dst 0x21] } ::
  Reg8.all.map fun src =>
    { name := "LD " ++ dst.name ++ ", " ++ src.name
      opcode := [0x40 ||| fieldOf dst <<< (3 : UInt8) ||| fieldOf src]
      presets := [.reg8 src 0x21]
      expectations := [.reg8 dst 0x21] }

def indirectLoad (opcode : UInt8) (dst : Reg8) (pair : Reg16) : Case where
  name := "LD " ++ dst.name ++ ", (" ++ pair.name ++ ")"
  opcode := [opcode]
  presets := [.memory 0x0CAF [0x21], .reg16 pair 0x0CAF]
  expectations := [.reg8 dst 0x21]

/-- A register into the byte at a pair. Where the register is half of the pair, the address has
replaced its value. -/
def indirectStore (opcode : UInt8) (pair : Reg16) (src : Reg8) : Case where
  name := "LD (" ++ pair.name ++ "), " ++ src.name
  opcode := [opcode]
  presets := [.reg8 src 0x21, .reg16 pair 0x0CAF]
  expectations :=
    [.memory 0x0CAF [((({} : Registers).set8 src 0x21).set16 pair 0x0CAF).get8 src]]

def singleLoads : List Case :=
  [{ name := "LD (HL), n"
     opcode := [0x36]
     extra := [0x21]
     presets := [.reg16 .hl 0x0CAF]
     expectations := [.memory 0x0CAF [0x21]] },
   { name := "LD A, (nn)"
     opcode := [0xFA]
     extra := [0xAF, 0x0C]
     presets := [.memory 0x0CAF [0x21]]
     expectations := [.reg8 .a 0x21] },
   { name := "LD (nn), A"
     opcode := [0xEA]
     extra := [0xAF, 0x0C]
     presets := [.reg8 .a 0x21]
     expectations := [.memory 0x0CAF [0x21]] },
   { name := "LD A, (C)"
     opcode := [0xF2]
     presets := [.reg8 .c 0x13, .memory 0xFF13 [0x21]]
     expectations := [.reg8 .a 0x21] },
   { name := "LD (C), A"
     opcode := [0xE2]
     presets := [.reg8 .a 0x21, .reg8 .c 0x13]
     expectations := [.memory 0xFF13 [0x21]] },
   { name := "LDD A, (HL)"
     opcode := [0x3A]
     presets := [.reg16 .hl 0x0000, .memory 0x0000 [0x21]]
     expectations := [.reg8 .a 0x21, .reg16 .hl 0xFFFF] },
   { name := "LDD (HL), A"
     opcode := [0x32]
     presets := [.reg8 .a 0x21, .reg16 .hl 0x0000]
     expectations := [.reg16 .hl 0xFFFF, .memory 0x0000 [0x21]] },
   { name := "LDI A, (HL)"
     opcode := [0x2A]
     presets := [.reg16 .hl 0xFFFF, .memory 0xFFFF [0x21]]
     expectations := [.reg8 .a 0x21, .reg16 .hl 0x0000] },
   { name := "LDI (HL), A"
     opcode := [0x22]
     presets := [.reg8 .a 0x21, .reg16 .hl 0xFFFF]
     expectations := [.reg16 .hl 0x0000, .memory 0xFFFF [0x21]] },
   { name := "LDH (n), A"
     opcode := [0xE0]
     extra := [0x13]
     presets := [.reg8 .a 0x21]
     expectations := [.memory 0xFF13 [0x21]] },
   { name := "LDH A, (n)"
     opcode := [0xF0]
     extra := [0x13]
     presets := [.memory 0xFF13 [0x21]]
     expectations := [.reg8 .a 0x21] },
   { name := "LD SP, HL"
     opcode := [0xF9]
     presets := [.reg16 .hl 0xCAFE]
     expectations := [.reg16 .sp 0xCAFE] },
   { name := "LD (nn), SP"
     opcode := [0x08]
     extra := [0xFE, 0xCA]
     presets := [.reg16 .sp 0xBEEF]
     expectations := [.memory 0xCAFE [0xEF, 0xBE]] }]

/-- A literal word into a pair, whose opcode field is given. -/
def wordLoad (field : UInt8) (pair : Reg16) : Case where
  name := "LD " ++ pair.name ++ ", nn"
  opcode := [0x01 ||| field <<< (4 : UInt8)]
  extra := [0xFE, 0xCA]
  expectations := [.reg16 pair 0xCAFE]

/-- SP plus a signed byte into HL. -/
def stackOffsetLoad (label : String) (offset : UInt8) (sp hl : UInt16) (f : Flags) : Case where
  name := "LDHL SP, n: " ++ label
  opcode := [0xF8]
  extra := [offset]
  presets := [.reg16 .sp sp]
  expectations := withFlags [.reg16 .hl hl, .reg16 .sp sp] f

def loads : List Case :=
  Reg8.all.flatMap registerLoads ++
  Reg8.all.map (fun r => indirectLoad (0x40 ||| fieldOf r <<< (3 : UInt8) ||| hlField) r .hl) ++
  [indirectLoad 0x0A .a .bc, indirectLoad 0x1A .a .de] ++
  Reg8.all.map (fun r => indirectStore (0x70 ||| fieldOf r) .hl r) ++
  [indirectStore 0x02 .bc .a, indirectStore 0x12 .de .a] ++
  singleLoads ++
  [wordLoad 0 .bc, wordLoad 1 .de, wordLoad 2 .hl, wordLoad 3 .sp] ++
  [stackOffsetLoad "positive immediate" 0x01 0x2100 0x2101 {},
   stackOffsetLoad "negative immediate" 0xFF 0x2100 0x20FF {},
   stackOffsetLoad "H" 0x01 0xCAEF 0xCAF0 { h := true },
   stackOffsetLoad "H, negative immediate" 0xE1 0xCA0F 0xC9F0 { h := true },
   stackOffsetLoad "C" 0x10 0xCAFF 0xCB0F { c := true },
   stackOffsetLoad "C, negative immediate" 0xE0 0xCA2F 0xCA0F { c := true }]

end Sm83.Conformance.Corpus
