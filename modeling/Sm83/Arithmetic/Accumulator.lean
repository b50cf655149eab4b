import Sm83.Arithmetic
import Sm83.Flags.Policy

/-!
# Operations on the accumulator

Eight operations combine A with a byte; one of them, the comparison, keeps A and only reports the
flags of the subtraction. Beside them stand the steps by one, up and down, for bytes and words.
-/

namespace Sm83

open Arithmetic

inductive AluOp where
  | add | adc | sub | sbc | and | xor | or | cp
  deriving DecidableEq

namespace AluOp

def ofIndex (index : Nat) : AluOp :=
  match index % 8 with
  | 0 => add
  | 1 => adc
  | 2 => sub
  | 3 => sbc
  | 4 => and
  | 5 => xor
  | 6 => or
  | _ => cp

def mnemonic : AluOp → String
  | add => "ADD"
  | adc => "ADC"
  | sub => "SUB"
  | sbc => "SBC"
  | and => "AND"
  | xor => "XOR"
  | or => "OR"
  | cp => "CP"

def policy : AluOp → FlagPolicy
  | add | adc => .ofChars 'Z' '0' 'H' 'C'
  | sub | sbc | cp => .ofChars 'Z' '1' 'H' 'C'
  | and => .ofChars 'Z' '0' '1' '0'
  | xor | or => .ofChars 'Z' '0' '0' '0'

def apply (op : AluOp) (a value : UInt8) (carry : Bool) : UInt8 × Flags :=
  match op with
  | add => add8 a value false
  | adc => add8 a value carry
  | sub => sub8 a value false
  | sbc => sub8 a value carry
  | and => logic (a &&& value)
  | xor => logic (a ^^^ value)
  | or => logic (a ||| value)
  | cp => (a, (sub8 a value false).2)

end AluOp

inductive Adjustment where
  | increment | decrement
  deriving DecidableEq

namespace Adjustment

def byte : Adjustment → UInt8 → UInt8 × Flags
  | increment, value => inc8 value
  | decrement, value => dec8 value

/-- The adjusted word; words compute no flags. -/
def word : Adjustment → UInt16 → UInt16
  | increment, value => value + 1
  | decrement, value => value - 1

/-- The policy of the byte forms: C is left alone and N tells the direction. -/
def policy : Adjustment → FlagPolicy
  | increment => .ofChars 'Z' '0' 'H' '-'
  | decrement => .ofChars 'Z' '1' 'H' '-'

end Adjustment

end Sm83
