import Sm83.Conformance.Corpus.Alu
import Sm83.Conformance.Corpus.Loads
import Sm83.Conformance.Corpus.Stack

/-!
# The corpus

The built-in cases, by groups of instructions.
-/

namespace Sm83.Conformance.Corpus

inductive Group where
  | all | loads | stack | add | adc | sub | inc | misc
  deriving DecidableEq

def misc : List Case :=
  [{ name := "NOP", opcode := [0x00], expectations := Field.flags {} }]

def all : List Case :=
  loads ++ stack ++ add ++ adc ++ sub ++ inc ++ misc

namespace Group

def name : Group → String
  | .all => "all"
  | .loads => "loads"
  | .stack => "stack"
  | .add => "add"
  | .adc => "adc"
  | .sub => "sub"
  | .inc => "inc"
  | .misc => "misc"

/-- The groups, the one with all cases first. -/
def list : List Group :=
  [.all, .loads, .stack, .add, .adc, .sub, .inc, .misc]

def cases : Group → List Case
  | .all => Corpus.all
  | .loads => Corpus.loads
  | .stack => Corpus.stack
  | .add => Corpus.add
  | .adc => Corpus.adc
  | .sub => Corpus.sub
  | .inc => Corpus.inc
  | .misc => Corpus.misc

end Group

end Sm83.Conformance.Corpus
