import Sm83.Bus

/-!
# What a program gives on every bus

`program.Always P` says that the program can only end in values with the property `P`, whatever the
bus answers to its reads. Such a property may be used on the rest of a program (`Always.bind_congr`)
and holds of the value of every run (`Always.run`).
-/

namespace Sm83.BusM

variable {α β σ : Type} {P Q : α → Prop}

/-- Every value in which the program can end has the property. -/
def Always (P : α → Prop) : BusM α → Prop
  | .pure value => P value
  | .read _ next => ∀ value, (next value).Always P
  | .write _ _ next => next.Always P

@[simp] theorem always_pure (value : α) : (Pure.pure value : BusM α).Always P ↔ P value := Iff.rfl

@[simp] theorem always_bind (program : BusM α) (next : α → BusM β) (P : β → Prop) :
    (program >>= next).Always P ↔ program.Always fun value => (next value).Always P := by
  change (program.bind next).Always P ↔ _
  induction program with
  | pure => rfl
  | read address rest ih => exact forall_congr' ih
  | write address value rest ih => exact ih

@[simp] theorem always_map (f : α → β) (program : BusM α) (P : β → Prop) :
    (f <$> program).Always P ↔ program.Always fun value => P (f value) := by
  rw [map_eq_pure_bind, always_bind]
  rfl

theorem Always.mono {program : BusM α} (h : program.Always P) (weaker : ∀ value, P value → Q value) :
    program.Always Q := by
  induction program with
  | pure value => exact weaker value h
  | read address next ih => exact fun value => ih value (h value)
  | write address value next ih => exact ih h

theorem always_of_forall {program : BusM α} (h : ∀ value, P value) : program.Always P := by
  induction program with
  | pure value => exact h value
  | read address next ih => exact ih
  | write address value next ih => exact ih

/-- What follows a program need only be known for the values the program can give. -/
theorem Always.bind_congr {program : BusM α} {first second : α → BusM β} (h : program.Always P)
    (same : ∀ value, P value → first value = second value) :
    program >>= first = program >>= second := by
  change program.bind first = program.bind second
  induction program with
  | pure value => exact same value h
  | read address next ih =>
    have rest : (fun value => (next value).bind first) = fun value => (next value).bind second :=
      funext fun value => ih value (h value)
    simp only [bind, rest]
  | write address value next ih => simp only [bind, ih h]

/-- Whatever holds on every bus holds on the one at hand. -/
theorem Always.run [Bus σ] {program : BusM α} (h : program.Always P) (bus : σ) :
    P (program.run bus).1 := by
  induction program generalizing bus with
  | pure value => exact h
  | read address next ih => exact ih _ (h _) _
  | write address value next ih => exact ih h _

end Sm83.BusM
