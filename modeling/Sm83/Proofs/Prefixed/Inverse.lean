import Sm83.Proofs.Routes

/-!
# Shifts that undo one another

A rotation to one side takes every bit back to where the rotation to the other side took it from, and
exchanging the nibbles twice does too (`apply_inverse`). The carry that is rotated through comes back
as well (`carry_apply_opposite`). Two prefixed instructions on the same byte, be it in a register or at HL,
do to it what their shifts do one after the other and leave all other bytes alone (`content_pair`).
-/

namespace Sm83

namespace Byte

/-- One place up and then seven more is once round, and so are the other ways of coming back. -/
theorem position_round (index : Fin 8) :
    position (position (index + 1) + 7) = index ∧ position (position (index + 7) + 1) = index ∧
      position (position (index + 4) + 4) = index := by
  revert index
  decide

theorem position_up_ne_zero {index : Fin 8} (below : index.val ≠ 7) :
    (position (index + 1)).val ≠ 0 := by
  revert index
  decide

theorem position_down_ne_last {index : Fin 8} (above : index.val ≠ 0) :
    (position (index + 7)).val ≠ 7 := by
  revert index
  decide

end Byte

namespace Shift

/-- The shift that takes all bits back, where none has been lost. -/
def inverse? : Shift → Option Shift
  | rotate .leftCircular => some (rotate .rightCircular)
  | rotate .rightCircular => some (rotate .leftCircular)
  | rotate .left => some (rotate .right)
  | rotate .right => some (rotate .left)
  | swap => some swap
  | leftArithmetic | rightArithmetic | rightLogical => none

theorem apply_inverse {shift back : Shift} (inverse : shift.inverse? = some back) (value : UInt8)
    (carry : Bool) :
    let moved := shift.apply value carry
    (back.apply moved.1 moved.2).1 = value := by
  intro moved
  refine Byte.eq_of_bit fun index => ?_
  obtain ⟨up, down, across⟩ := Byte.position_round index
  cases shift with
  | rotate rotation =>
    cases rotation with
    | leftCircular =>
      cases inverse
      simp only [moved, bit_apply, bits, up]
    | rightCircular =>
      cases inverse
      simp only [moved, bit_apply, bits, down]
    | left =>
      cases inverse
      simp only [moved, bit_apply, bits, lost_eq, lost, up]
      -- Only the top bit has gone through the carry, which it comes back from.
      by_cases top : index.val = 7
      · rw [if_pos top, show index = Byte.position 7 from Fin.ext top]
      · rw [if_neg top, if_neg (Byte.position_up_ne_zero top)]
    | right =>
      cases inverse
      simp only [moved, bit_apply, bits, lost_eq, lost, down]
      by_cases bottom : index.val = 0
      · rw [if_pos bottom, show index = Byte.position 0 from Fin.ext bottom]
      · rw [if_neg bottom, if_neg (Byte.position_down_ne_last bottom)]
  | swap =>
    cases inverse
    simp only [moved, bit_apply, bits, across]
  | _ => cases inverse

/-- The bit that a rotation through the carry took in is the one that the opposite one gives out. -/
theorem carry_apply_opposite (value : UInt8) (carry : Bool) :
    let left := (rotate .left).apply value carry
    let right := (rotate .right).apply value carry
    ((rotate .right).apply left.1 left.2).2 = carry ∧
      ((rotate .left).apply right.1 right.2).2 = carry := by
  intro left right
  rw [lost_eq, lost_eq]
  exact ⟨bit_apply (rotate .left) value carry 0, bit_apply (rotate .right) value carry 7⟩

end Shift

namespace Prefixed

/-- What is left where only flags, PC and one other place have been written. -/
theorem content_of_stored_back {f : Flags} {place : Location} {content : Content} {next : UInt16}
    {before after : Registers × Memory}
    (h : Stored (f.parts ++ ([(place, content)] ++ [(.pc, .word next)])) before after) :
    after.1.f = f ∧ ∀ location : Location, location ≠ .pc → (∀ which, location ≠ .flag which) →
      location.content after.1 after.2 =
        if location = place then content else location.content before.1 before.2 := by
  constructor
  · refine Flag.eq_of_get fun which => Content.bit.inj ?_
    cases which <;> exact h (.flag _)
  · intro location elsewhere plain
    have flags : f.parts.lookup location = none := by
      rw [lookup_eq_none_iff]
      simp [Flags.parts, Flag.all, plain]
    rw [h, List.lookup_append, flags, Option.none_or, List.singleton_append, getD_lookup_cons,
      getD_lookup_cons, if_neg elsewhere]
    rfl

/-- An instruction with the shift changes the selected byte, flags and PC. -/
theorem stored_perform_shift (row target : Fin 8) (cpu : Cpu) (m : Memory) :
    let shifted := (Shift.row row).apply (cpu.regs.selected m target) cpu.regs.f.c
    let f : Flags := { z := shifted.1 == 0, n := false, h := false, c := shifted.2 }
    let r := (cpu.perform [0xCB, 8 * row.val.toUInt8 + target.val.toUInt8]).run m
    Stored (f.parts ++
        ([(.selected cpu.regs target, .byte shifted.1)] ++ [(.pc, .word (cpu.regs.pc + 2))]))
      (cpu.regs, m) (r.1.regs, r.2) := by
  intro shifted f r
  have performed : r = _ := congrArg (BusM.run · m) (cpu.perform_shift row target)
  have stored := stored_shift cpu m (cpu.regs.pc + 2) ((Form.place target.val).fill cpu.regs [])
    (Shift.row row)
  rw [Load.location_place, value_selected] at stored
  have parts : shifted = _ := (Shift.row row).apply_eq _ _
  rw [performed, Operation.execute, BusM.run_map]
  simp only [f, parts]
  exact stored

/-- Two such instructions on the same byte. -/
theorem content_pair (first second target : Fin 8) (cpu : Cpu) (m : Memory) :
    let moved := (Shift.row first).apply (cpu.regs.selected m target) cpu.regs.f.c
    let result := (Shift.row second).apply moved.1 moved.2
    let r := (cpu.performAll [[0xCB, 8 * first.val.toUInt8 + target.val.toUInt8],
      [0xCB, 8 * second.val.toUInt8 + target.val.toUInt8]]).run m
    r.1.regs.f.c = result.2 ∧
    ∀ location : Location, location ≠ .pc → (∀ which, location ≠ .flag which) →
      location.content r.1.regs r.2 =
        if location = .selected cpu.regs target then .byte result.1
        else location.content cpu.regs m := by
  intro moved result r
  have stored := stored_perform_shift first target cpu m
  have both : r = _ := congrArg (BusM.run · m) (cpu.performAll_pair _ _)
  rw [BusM.run_bind] at both
  revert stored both
  -- Only what the first instruction leaves counts; its run would be computed again and again.
  generalize (cpu.perform [0xCB, 8 * first.val.toUInt8 + target.val.toUInt8]).run m = next
  intro stored both
  obtain ⟨f, contents⟩ := content_of_stored_back stored
  obtain ⟨f', contents'⟩ := content_of_stored_back (stored_perform_shift second target next.1 next.2)
  have carry : next.1.regs.f.c = moved.2 := congrArg Flags.c f
  have place : Location.selected next.1.regs target = .selected cpu.regs target := by
    refine Location.selected_congr fun pointed => ?_
    subst pointed
    have high := (contents (.reg .h) nofun nofun).trans (if_neg nofun)
    have low := (contents (.reg .l) nofun nofun).trans (if_neg nofun)
    exact ⟨Content.byte.inj high, Content.byte.inj low⟩
  have value : next.1.regs.selected next.2 target = moved.1 := by
    have content := contents (.selected cpu.regs target) (Location.selected_ne_pc _ _)
      fun which => (Load.flag_ne_selected cpu.regs which target).symm
    rw [if_pos rfl, ← place, Location.content_selected] at content
    exact Content.byte.inj content
  rw [carry, value] at f'
  rw [carry, value, place] at contents'
  rw [both]
  refine ⟨congrArg Flags.c f', fun location elsewhere plain => ?_⟩
  rw [contents' location elsewhere plain]
  by_cases here : location = .selected cpu.regs target
  · rw [if_pos here, if_pos here]
  · rw [if_neg here, if_neg here, contents location elsewhere plain, if_neg here]

end Prefixed

namespace Cpu

/-- The instructions leave the selected byte as it was, and so they do everything else but the loose
locations, of which nothing is said. -/
def Restores (cpu : Cpu) (m : Memory) (target : Fin 8) (loose : List Location)
    (codes : List (List UInt8)) : Prop :=
  let r := (cpu.performAll codes).run m
  r.1.regs.selected r.2 target = cpu.regs.selected m target ∧
    StoredBut loose [] (cpu.regs, m) (r.1.regs, r.2)

variable (cpu : Cpu) (m : Memory) (target : Fin 8)

theorem restores_of_inverse (first second : Fin 8) {base base' : UInt8} {loose : List Location}
    (inverse : (Shift.row first).inverse? = some (Shift.row second))
    (bases : base = 8 * first.val.toUInt8 ∧ base' = 8 * second.val.toUInt8)
    (unsettled : [.pc, .flag .z, .flag .n, .flag .h] ⊆ loose)
    (carry : .flag .c ∉ loose →
      let moved := (Shift.row first).apply (cpu.regs.selected m target) cpu.regs.f.c
      ((Shift.row second).apply moved.1 moved.2).2 = cpu.regs.f.c) :
    cpu.Restores m target loose
      [[0xCB, base + target.val.toUInt8], [0xCB, base' + target.val.toUInt8]] := by
  obtain ⟨rfl, rfl⟩ := bases
  have pair := Prefixed.content_pair first second target cpu m
  unfold Restores
  generalize (cpu.performAll _).run m = r at pair ⊢
  obtain ⟨c, contents⟩ := pair
  have kept (location : Location) (elsewhere : location ≠ .pc)
      (plain : ∀ which, location ≠ .flag which) :
      location.content r.1.regs r.2 = location.content cpu.regs m := by
    refine (contents location elsewhere plain).trans ?_
    by_cases here : location = .selected cpu.regs target
    · rw [if_pos here, here, Location.content_selected, Shift.apply_inverse inverse]
    · rw [if_neg here]
  have place : Location.selected r.1.regs target = .selected cpu.regs target :=
    Location.selected_congr fun _ =>
      ⟨Content.byte.inj (kept (.reg .h) nofun nofun), Content.byte.inj (kept (.reg .l) nofun nofun)⟩
  constructor
  · have same := kept (.selected cpu.regs target) (Location.selected_ne_pc _ _)
      fun which => (Load.flag_ne_selected cpu.regs which target).symm
    rw [Location.content_selected, ← place, Location.content_selected] at same
    exact Content.byte.inj same
  · intro location firm
    cases location with
    | pc => exact absurd (unsettled (by decide)) firm
    | flag which =>
      cases which with
      | c => exact congrArg Content.bit (c.trans (carry firm))
      | _ => exact absurd (unsettled (by decide)) firm
    | _ => exact kept _ nofun nofun

/-- Shifts that undo one another, on every byte that an instruction can select. -/
theorem restores_inverses :
    let t := target.val.toUInt8
    let loose : List Location := [.pc, .flag .z, .flag .n, .flag .h]
    cpu.Restores m target loose [[0xCB, 0x10 + t], [0xCB, 0x18 + t]] ∧
    cpu.Restores m target loose [[0xCB, 0x18 + t], [0xCB, 0x10 + t]] ∧
    cpu.Restores m target (.flag .c :: loose) [[0xCB, 0x00 + t], [0xCB, 0x08 + t]] ∧
    cpu.Restores m target (.flag .c :: loose) [[0xCB, 0x08 + t], [0xCB, 0x00 + t]] ∧
    cpu.Restores m target (.flag .c :: loose) [[0xCB, 0x30 + t], [0xCB, 0x30 + t]] := by
  intro t loose
  have carried := Shift.carry_apply_opposite (cpu.regs.selected m target) cpu.regs.f.c
  have same : loose ⊆ loose := List.Subset.refl loose
  have more : loose ⊆ .flag .c :: loose := List.subset_cons_self _ loose
  have settled (firm : .flag .c ∉ .flag .c :: loose) : False := firm List.mem_cons_self
  exact ⟨cpu.restores_of_inverse m target 2 3 rfl ⟨rfl, rfl⟩ same fun _ => carried.1,
    cpu.restores_of_inverse m target 3 2 rfl ⟨rfl, rfl⟩ same fun _ => carried.2,
    cpu.restores_of_inverse m target 0 1 rfl ⟨rfl, rfl⟩ more fun firm => (settled firm).elim,
    cpu.restores_of_inverse m target 1 0 rfl ⟨rfl, rfl⟩ more fun firm => (settled firm).elim,
    cpu.restores_of_inverse m target 6 6 rfl ⟨rfl, rfl⟩ more fun firm => (settled firm).elim⟩

end Cpu

end Sm83
