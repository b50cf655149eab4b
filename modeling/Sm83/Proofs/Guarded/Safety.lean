import Sm83.Proofs.Decode
import Sm83.Proofs.Guarded.Step

/-!
# No guard finds anything

The guarded core fetches what the unguarded one fetches (`Follows`), collects the operands of the
operation that the unguarded one settles, and runs the same routine on them. From every state and on
every bus it comes out where the unguarded core does, without a panic (`never_panics`).
-/

namespace Sm83

namespace Guarded

variable {α β : Type} {cpu : Cpu}

/-! ### Fetching -/

/-- The guarded computation reads what the program reads, gives what it gives and changes nothing
but PC. -/
def Follows (cpu : Cpu) (guarded : StateT Cpu GuardedM α) (program : FetchM α) : Prop :=
  ∀ pc, guarded.run (cpu.withPc pc) = liftM ((fun r => (r.1, cpu.withPc r.2)) <$> program.run pc)

theorem follows_pure (value : α) : Follows cpu (pure value) (pure value) := fun _ => rfl

theorem follows_bind {guarded : StateT Cpu GuardedM α} {program : FetchM α}
    {next : α → StateT Cpu GuardedM β} {rest : α → FetchM β}
    (first : Follows cpu guarded program) (others : ∀ value, Follows cpu (next value) (rest value)) :
    Follows cpu (guarded >>= next) (program >>= rest) := by
  intro pc
  rw [StateT.run_bind, StateT.run_bind, first pc, liftM_map, bind_map_left, map_bind, liftM_bind]
  exact bind_congr fun r => others r.1 r.2

theorem follows_map {guarded : StateT Cpu GuardedM α} {program : FetchM α} (f : α → β)
    (h : Follows cpu guarded program) : Follows cpu (f <$> guarded) (f <$> program) := by
  rw [map_eq_pure_bind, map_eq_pure_bind]
  exact follows_bind h fun _ => follows_pure _

theorem follows_fetchByte (cpu : Cpu) : Follows cpu fetchByte FetchM.byte := fun _ => rfl

theorem follows_fetchWord (cpu : Cpu) : Follows cpu fetchWord FetchM.word :=
  follows_bind (follows_fetchByte cpu) fun _ => follows_bind (follows_fetchByte cpu) fun _ => follows_pure _

theorem follows_fetchOpcode (cpu : Cpu) : Follows cpu fetchOpcode FetchM.opcode := by
  refine follows_bind (follows_fetchByte cpu) fun first => ?_
  split
  · exact follows_bind (follows_fetchByte cpu) fun _ => follows_pure _
  · exact follows_pure _

theorem follows_resolve {kind : OperandKind} (h : kind ≠ .memory (.pair .pc)) :
    Follows cpu (resolve kind) (FetchM.argument cpu.regs kind) := by
  cases kind with
  | byte => exact follows_bind (follows_fetchByte cpu) fun _ => follows_pure _
  | word => exact follows_bind (follows_fetchWord cpu) fun _ => follows_pure _
  | memory mode =>
    cases mode with
    | pair r =>
      -- By now PC has moved, which only an operand through PC itself would notice.
      intro pc
      have same := cpu.get16_withPc pc (r := r) (by rintro rfl; exact h rfl)
      simp [resolve, FetchM.argument, Operand.mapM, FetchM.address, same]
    | absolute => exact follows_bind (follows_fetchWord cpu) fun _ => follows_pure _
    | high => exact follows_bind (follows_map _ (follows_fetchByte cpu)) fun _ => follows_pure _
    | highC => exact fun _ => rfl
  | _ => exact follows_pure _

theorem follows_resolveAll (cpu : Cpu) (args : Args) (kinds : List OperandKind)
    (room : args.length + kinds.length ≤ maxOperands)
    (h : ∀ kind ∈ kinds, kind ≠ .memory (.pair .pc)) :
    Follows cpu (resolveAll args kinds) ((args ++ ·) <$> kinds.mapM (FetchM.argument cpu.regs)) := by
  induction kinds generalizing args with
  | nil => exact fun _ => by simp [resolveAll]
  | cons kind rest ih =>
    have pushed (argument : Argument) :
        (liftM (args.push argument) : StateT Cpu GuardedM Args) = pure (args ++ [argument]) := by
      rw [Args.push, if_pos (by simp at room; omega)]
      rfl
    simp only [resolveAll, pushed, List.mapM_cons, map_bind, map_pure, pure_bind]
    refine follows_bind (follows_resolve (h kind List.mem_cons_self)) fun argument => ?_
    have others := ih (args ++ [argument]) (by simp at room ⊢; omega)
      fun kind member => h kind (List.mem_cons_of_mem _ member)
    simpa using others

/-! ### Decoding -/

def Fetched.ofDecoded (decoded : Decoded) : Fetched where
  descriptor := .ofEntry decoded.entry
  args := decoded.operation.operands
  pc := decoded.pc

theorem bind_congr_of_always {P : α → Prop} {program : BusM α} {first second : α → GuardedM β}
    (h : program.Always P) (same : ∀ value, P value → first value = second value) :
    (liftM program >>= first) = liftM program >>= second := by
  change ((Except.ok <$> program) >>= ExceptT.bindCont first) =
    (Except.ok <$> program) >>= ExceptT.bindCont second
  rw [bind_map_left, bind_map_left]
  exact h.bind_congr same

theorem size_ofEntry {entry : Entry} (small : entry.size ≤ 3) :
    (Descriptor.ofEntry entry).size.toUInt16 = entry.size.toUInt16 := by
  apply UInt16.toNat_inj.mp
  simp [Descriptor.ofEntry]
  omega

theorem run_decode (cpu : Cpu) :
    decode.run cpu = liftM ((fun r => (r.1.map Fetched.ofDecoded, r.2)) <$> cpu.decode) := by
  have fetched := follows_fetchOpcode cpu cpu.regs.pc
  change fetchOpcode.run cpu = _ at fetched
  simp only [decode, Cpu.decode, StateT.run_bind, StateT.run_get, pure_bind, fetched, liftM_map,
    liftM_bind, map_bind, bind_map_left]
  refine bind_congr_of_always (FetchM.always_opcode cpu.regs.pc) ?_
  rintro ⟨opcode, next⟩ moved
  have found : (liftM (lookUp opcode) : StateT Cpu GuardedM _) =
      pure ((Entry.ofOpcode? opcode).map Descriptor.ofEntry) := by
    rw [lookUp_eq]
    rfl
  simp only [found, StateT.run_pure, pure_bind]
  cases listed : Entry.ofOpcode? opcode with
  | none => rfl
  | some entry =>
    obtain ⟨small, operands⟩ := Entry.size_le_and_ne_pc listed
    have room : ([] : Args).length + entry.form.operands.length ≤ maxOperands := by
      rw [List.length_nil, Nat.zero_add]
      exact entry.form.length_operands_le
    have collected := follows_resolveAll cpu [] entry.form.operands room operands next
    simp only [List.nil_append, ← FetchM.operands_operation, StateT.run_map] at collected
    simp only [Option.map_some, StateT.run_bind]
    change ((resolveAll [] entry.form.operands).run (cpu.withPc next) >>= _) = _
    rw [collected]
    simp only [id_map', liftM_map, bind_map_left, liftM_bind, map_bind]
    refine bind_congr_of_always (FetchM.always_advance cpu.regs entry.form next) ?_
    rintro ⟨operation, last⟩ advanced
    have arrived : last - cpu.regs.pc = (Descriptor.ofEntry entry).size.toUInt16 := by
      rw [size_ofEntry small, show last = next + _ from advanced,
        show next = cpu.regs.pc + _ from moved, ← address_add, UInt16.add_comm,
        UInt16.add_sub_cancel, Entry.size, Entry.opcode_of_mem listed]
    change (ite (last - cpu.regs.pc = _) _ _ : StateT Cpu GuardedM _).run _ = _
    rw [if_pos arrived]
    rfl

/-! ### Executing -/

theorem control_routine (operation : Operation) (cpu : Cpu) :
    control operation.routine cpu = operation.control cpu := by
  cases operation <;> rfl

theorem execute_ofDecoded {decoded : Decoded} (h : decoded.Genuine) (cpu : Cpu) :
    execute (.ofDecoded decoded) cpu = liftM (decoded.operation.execute cpu) := by
  have settled (regs : Registers) :
      (let after := control decoded.operation.routine { cpu with regs }
       let f := decoded.operation.policy.apply cpu.regs.f after.regs.f
       { after with
          regs := { after.regs with f }, interrupts := after.interrupts.advance }) =
        decoded.operation.settle cpu regs := by
    rw [control_routine]
    cases decoded.operation <;> rfl
  simp only [execute, Fetched.ofDecoded, Descriptor.ofEntry, ← h.routine_eq, ← h.policy_eq,
    act_operands, settled, Operation.execute, liftM_map]
  exact (map_eq_pure_bind _ _).symm

theorem decodeExecute_eq (cpu : Cpu) :
    decodeExecute cpu =
      liftM ((fun r => (r.1.map Fetched.ofDecoded, r.2)) <$> cpu.decodeExecute) := by
  simp only [decodeExecute, Cpu.decodeExecute, run_decode, liftM_map, bind_map_left, liftM_bind,
    map_bind]
  refine bind_congr_of_always cpu.always_decode ?_
  rintro ⟨result, cpu⟩ ⟨genuine, -⟩
  cases result with
  | error fault => rfl
  | ok decoded =>
    have executed := execute_ofDecoded (genuine decoded rfl) cpu
    simp only [Except.map, executed, liftM_bind, map_bind]
    rfl

def Outcome.ofUnguarded : Sm83.Outcome → Outcome
  | .executed entry => .executed (.ofEntry entry)
  | .halted => .halted
  | .stopped => .stopped
  | .fault cause => .fault cause

theorem step_eq (cpu : Cpu) :
    step cpu = liftM ((fun r => (Outcome.ofUnguarded r.1, r.2)) <$> cpu.step) := by
  rcases cpu.step_cases with ⟨stopped, parked⟩ | ⟨stopped, halted, parked⟩ | ⟨running, working⟩
  · simp [step, stopped, parked, Outcome.ofUnguarded]
  · simp [step, stopped, halted, parked, Outcome.ofUnguarded]
  rw [working]
  simp only [step, running, decodeExecute_eq, Bool.false_eq_true, if_false, liftM_map,
    bind_map_left, Functor.map_map]
  rw [map_eq_pure_bind]
  refine bind_congr ?_
  rintro ⟨result, cpu⟩
  cases result <;> rfl

/-- From every state and on every bus, flat memory with any contents being one, neither decoding and
executing nor a step panics. They come out where the core without guards does, with the same bus
behind them. -/
theorem never_panics {σ : Type} [Bus σ] (cpu : Cpu) (bus : σ) :
    (let r := cpu.decodeExecute.run bus
     (decodeExecute cpu).run.run bus = (.ok (r.1.1.map .ofDecoded, r.1.2), r.2)) ∧
    (let r := cpu.step.run bus
     (step cpu).run.run bus = (.ok (.ofUnguarded r.1.1, r.1.2), r.2)) := by
  have unguarded {α : Type} (program : BusM α) :
      (liftM program : GuardedM α).run.run bus = (.ok (program.run bus).1, (program.run bus).2) :=
    BusM.run_map Except.ok program bus
  rw [decodeExecute_eq, step_eq, unguarded, unguarded, BusM.run_map, BusM.run_map]
  exact ⟨rfl, rfl⟩

end Guarded

end Sm83
