import Sm83.Bus.Recorded
import Sm83.Proofs.Bus.Always

/-!
# The accesses of a program

`program.logged` makes the accesses that the program makes and gives the list of them beside the
value. This list is what a run adds to the log of a recorded bus (`run_eq_logged`). So what holds of
it whatever the bus answers is a matter of the program alone.
-/

namespace Sm83.BusM

variable {α β σ : Type}

def logged : BusM α → BusM (α × List Access)
  | .pure value => .pure (value, [])
  | .read address next =>
      .read address fun value =>
        (fun r => (r.1, .read address value :: r.2)) <$> (next value).logged
  | .write address value next =>
      .write address value ((fun r => (r.1, .write address value :: r.2)) <$> next.logged)

@[simp] theorem logged_pure (value : α) : logged (Pure.pure value) = Pure.pure (value, []) := rfl

/-- A log that begins with one more access goes on as before. -/
theorem map_cons_bind (access : Access) (program : BusM (α × List Access))
    (next : α → BusM (β × List Access)) :
    (fun r => (r.1, access :: r.2)) <$>
        (program >>= fun r => (fun r' => (r'.1, r.2 ++ r'.2)) <$> next r.1) =
      (fun r => (r.1, access :: r.2)) <$> program >>= fun r =>
        (fun r' => (r'.1, r.2 ++ r'.2)) <$> next r.1 := by
  simp

@[simp] theorem logged_bind (program : BusM α) (next : α → BusM β) :
    (program >>= next).logged =
      program.logged >>= fun r => (fun r' => (r'.1, r.2 ++ r'.2)) <$> (next r.1).logged := by
  change (program.bind next).logged = _
  induction program with
  | pure value => exact (id_map (next value).logged).symm
  | read address rest ih =>
    refine congrArg (BusM.read address) (funext fun value => ?_)
    rw [ih value]
    exact map_cons_bind _ _ fun value => (next value).logged
  | write address value rest ih =>
    refine congrArg (BusM.write address value) ?_
    rw [ih]
    exact map_cons_bind _ _ fun value => (next value).logged

@[simp] theorem logged_map (f : α → β) (program : BusM α) :
    (f <$> program).logged = (fun r => (f r.1, r.2)) <$> program.logged := by
  rw [map_eq_pure_bind, logged_bind, map_eq_pure_bind]
  simp

@[simp] theorem logged_readByte (address : UInt16) :
    (readByte address).logged = (fun value => (value, [.read address value])) <$> readByte address :=
  rfl

@[simp] theorem logged_writeByte (address : UInt16) (value : UInt8) :
    (writeByte address value).logged =
      (fun _ => ((), [.write address value])) <$> writeByte address value :=
  rfl

/-- A run on a recorded bus is a logged run on the bus inside. -/
theorem run_eq_logged [Bus σ] (program : BusM α) (s : Recorded σ) :
    program.run s =
      let r := program.logged.run s.bus
      (r.1.1, { bus := r.2, log := s.log ++ r.1.2 }) := by
  induction program generalizing s with
  | pure value => simp [run, logged]
  | read address next ih => simp [run, logged, ih, Bus.read]
  | write address value next ih => simp [run, logged, ih, Bus.write]

/-- What is in the log after a run is what the run has put there. -/
theorem run_of_unlogged [Bus σ] (program : BusM α) (bus : σ) :
    program.run ({ bus } : Recorded σ) =
      ((program.logged.run bus).1.1,
        { bus := (program.logged.run bus).2, log := (program.logged.run bus).1.2.toArray }) := by
  rw [run_eq_logged]
  simp

theorem run_logged_fst [Bus σ] (program : BusM α) (bus : σ) :
    ((program.logged.run bus).1.1, (program.logged.run bus).2) = program.run bus := by
  have recorded := program.run_recorded { bus }
  rw [run_eq_logged] at recorded
  exact Prod.ext recorded.1 recorded.2

end Sm83.BusM
