import Sm83.Conformance.Case

/-!
# Cases for the stack

Each pair is pushed and popped, in the middle of memory and where SP passes zero.
-/

namespace Sm83.Conformance.Corpus

/-- What a pair holds once BEEF has been written to it. -/
def stackValue (pair : Reg16) : UInt16 :=
  (({} : Registers).set16 pair 0xBEEF).get16 pair

def pushCase (field : UInt8) (pair : Reg16) (suffix : String) (sp : List Field) (after : UInt16) :
    Case where
  name := "PUSH " ++ pair.name ++ suffix
  opcode := [0xC5 ||| field <<< (4 : UInt8)]
  presets := .reg16 pair (stackValue pair) :: sp
  expectations :=
    [.reg16 .sp after,
     .memory after [Word.low (stackValue pair), Word.high (stackValue pair)]]

def popCase (field : UInt8) (pair : Reg16) (suffix : String) (sp after : UInt16) : Case where
  name := "POP " ++ pair.name ++ suffix
  opcode := [0xC1 ||| field <<< (4 : UInt8)]
  presets := [.reg16 .sp sp, .memory sp [0xEF, 0xBE]]
  expectations := [.reg16 pair (stackValue pair), .reg16 .sp after]

/-- The cases of one pair, whose opcode field is given. -/
def stackOf (field : UInt8) (pair : Reg16) : List Case :=
  [pushCase field pair "" [.reg16 .sp 0xCAFE] 0xCAFC,
   pushCase field pair ": wraparound" [] 0xFFFE,
   popCase field pair "" 0xCAFE 0xCB00,
   popCase field pair ": wraparound" 0xFFFE 0x0000]

def stack : List Case :=
  stackOf 0 .bc ++ stackOf 1 .de ++ stackOf 2 .hl ++ stackOf 3 .af

end Sm83.Conformance.Corpus
