import Sm83.Bus

/-!
# Programs that may panic

The core is described a second time in terms that promise nothing: arguments are lists of any shape,
tables are searched by index, and sums have the width of their operands. Each step that relies on
more than that is guarded and panics where it would go wrong. This module has the guards.
-/

namespace Sm83.Guarded

/-- What a guard can find. -/
inductive Panic where
  | unexpectedArgument
  | indexOutOfRange
  | tooManyArguments
  | overflow
  | shiftTooFar
  /-- PC has not moved by the size of the instruction. -/
  | wrongSize
  deriving DecidableEq

/-- A computation that may panic instead of giving its value. -/
abbrev GuardedM := ExceptT Panic BusM

def pick {α : Type} (items : List α) (index : Nat) : Except Panic α :=
  match items[index]? with
  | some item => .ok item
  | none => .error .indexOutOfRange

def addByte (a b : UInt8) : Except Panic UInt8 :=
  if a.toNat + b.toNat < 256 then .ok (a + b) else .error .overflow

def subByte (a b : UInt8) : Except Panic UInt8 :=
  if b.toNat ≤ a.toNat then .ok (a - b) else .error .overflow

def mulByte (a b : UInt8) : Except Panic UInt8 :=
  if a.toNat * b.toNat < 256 then .ok (a * b) else .error .overflow

def addWord (a b : UInt16) : Except Panic UInt16 :=
  if a.toNat + b.toNat < 65536 then .ok (a + b) else .error .overflow

def mask (index : UInt8) : Except Panic UInt8 :=
  if index < 8 then .ok (1 <<< index) else .error .shiftTooFar

theorem addByte_eq {a b : UInt8} (h : a.toNat + b.toNat < 256) : addByte a b = .ok (a + b) :=
  if_pos h

theorem addWord_eq {a b : UInt16} (h : a.toNat + b.toNat < 65536) : addWord a b = .ok (a + b) :=
  if_pos h

@[simp] theorem liftM_ok {α : Type} (value : α) :
    (liftM (Except.ok value : Except Panic α) : GuardedM α) = pure value := rfl

end Sm83.Guarded
