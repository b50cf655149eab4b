import Sm83.Instruction

/-!
# Operands one by one

Replacing the addresses and literals of an instruction is replacing those of its operands, one
after the other (`operands_mapM`). So whatever is said about the operands of a list can be said
about an instruction without going through its constructors again.
-/

namespace Sm83

variable {α β ω α' β' ω' : Type} {m : Type → Type} [Monad m]

def Operand.mapM (address : α → m α') (byte : β → m β') (word : ω → m ω') :
    Operand α β ω → m (Operand α' β' ω')
  | reg8 r => return reg8 r
  | reg16 r => return reg16 r
  | .byte value => return .byte (← byte value)
  | .word value => return .word (← word value)
  | memory a => return memory (← address a)
  | condition cc => return condition cc
  | bit index => return bit index
  | vector address => return vector address

variable [LawfulMonad m] (address : α → m α') (byte : β → m β') (word : ω → m ω')

theorem Place.mapM_operand (p : Place α) :
    (p.operand : Operand α β ω).mapM address byte word = operand <$> p.mapM address := by
  cases p <;> simp [Place.mapM, Operand.mapM, operand]

theorem Source.mapM_operand (s : Source α β) :
    (s.operand : Operand α β ω).mapM address byte word = operand <$> s.mapM address byte := by
  cases s with
  | place p => simp [Source.mapM, operand, p.mapM_operand]
  | literal value => simp [Source.mapM, Operand.mapM, operand]

theorem WordPlace.mapM_operand (p : WordPlace α) :
    (p.operand : Operand α β ω).mapM address byte word = operand <$> p.mapM address := by
  cases p <;> simp [WordPlace.mapM, Operand.mapM, operand]

theorem WordSource.mapM_operand (s : WordSource ω) :
    (s.operand : Operand α β ω).mapM address byte word = operand <$> s.mapM word := by
  cases s <;> simp [WordSource.mapM, Operand.mapM, operand]

namespace Instruction

theorem mapM_conditionOperand (condition : Option Condition) :
    (conditionOperand condition).mapM (Operand.mapM address byte word) =
      pure (conditionOperand condition) := by
  cases condition <;> simp [conditionOperand, Operand.mapM]

theorem operands_mapM (instruction : Instruction α β ω) :
    operands <$> instruction.mapM address byte word =
      instruction.operands.mapM (Operand.mapM address byte word) := by
  cases instruction <;>
    simp [mapM, operands, Place.mapM_operand, Source.mapM_operand, WordPlace.mapM_operand,
      WordSource.mapM_operand, mapM_conditionOperand]
  all_goals simp [Operand.mapM]

theorem length_operands_le (instruction : Instruction α β ω) : instruction.operands.length ≤ 2 := by
  have optional (condition : Option Condition) :
      (conditionOperand condition : List (Operand α β ω)).length ≤ 1 := by
    cases condition <;> simp [conditionOperand]
  cases instruction <;> simp [operands, optional]
  case ret condition => exact Nat.le_succ_of_le (optional condition)

end Instruction

end Sm83
