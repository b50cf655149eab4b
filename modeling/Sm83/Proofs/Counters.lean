import Sm83.Proofs.Perform
import Sm83.Proofs.Prefixed

/-!
# Counting up and down

INC and DEC take a byte or a word register one step up or down. In numbers without a width this is
one more or one less, cut off at the width of the operand; a byte sets Z, N and H on the way and
leaves C alone, a word leaves all flags alone, and nothing else but PC changes. So a run of such
steps takes the operand as far as they add up to, and as many steps down as up take it back to
where it was (`counts`).
-/

namespace Sm83

/-! ### Numbers cut off at a width -/

theorem Byte.ofInt_toNat (b : UInt8) : UInt8.ofInt b.toNat = b := by
  have bound := b.toNat_lt
  apply UInt8.toNat_inj.mp
  simp only [UInt8.ofInt, UInt8.toNat_ofNat']
  omega

theorem Byte.ofInt_toNat_add (n offset : Int) :
    UInt8.ofInt ((UInt8.ofInt n).toNat + offset) = .ofInt (n + offset) := by
  apply UInt8.toNat_inj.mp
  simp only [UInt8.ofInt, UInt8.toNat_ofNat']
  omega

namespace Word

theorem ofInt_toNat (w : UInt16) : UInt16.ofInt w.toNat = w := by
  have bound := w.toNat_lt
  apply UInt16.toNat_inj.mp
  simp only [UInt16.ofInt, UInt16.toNat_ofNat']
  omega

theorem ofInt_toNat_add (n offset : Int) :
    UInt16.ofInt ((UInt16.ofInt n).toNat + offset) = .ofInt (n + offset) := by
  apply UInt16.toNat_inj.mp
  simp only [UInt16.ofInt, UInt16.toNat_ofNat']
  omega

/-- The low byte takes what is added, and the high byte what is carried or borrowed. -/
theorem halves_ofInt (high low : UInt8) (offset : Int) :
    let word := UInt16.ofInt ((join high low).toNat + offset)
    Word.low word = .ofInt (low.toNat + offset) ∧
      Word.high word = .ofInt (high.toNat + (low.toNat + offset) / 256) := by
  constructor
  · apply UInt8.toNat_inj.mp
    simp only [toNat_low, toNat_join, UInt16.ofInt, UInt16.toNat_ofNat', UInt8.ofInt,
      UInt8.toNat_ofNat']
    omega
  · apply UInt8.toNat_inj.mp
    simp only [toNat_high, toNat_join, UInt16.ofInt, UInt16.toNat_ofNat', UInt8.ofInt,
      UInt8.toNat_ofNat']
    omega

end Word

/-! ### Steps -/

namespace Adjustment

def offset : Adjustment → Int
  | increment => 1
  | decrement => -1

def opposite : Adjustment → Adjustment
  | increment => decrement
  | decrement => increment

/-- How far steps lead that are made one after the other. -/
def total : List Adjustment → Int
  | [] => 0
  | adjustment :: rest => adjustment.offset + total rest

/-- The byte one step further. -/
def result (adjustment : Adjustment) (value : UInt8) : UInt8 :=
  .ofInt (value.toNat + adjustment.offset)

/-- The flags after a step of a byte. H tells whether the step has gone past the end of the low
nibble. -/
def flags (adjustment : Adjustment) (value : UInt8) (f : Flags) : Flags where
  z := adjustment.result value == 0
  n := adjustment == decrement
  h := value.toNat % 16 == match adjustment with
    | increment => 15
    | decrement => 0
  c := f.c

theorem byte_eq (adjustment : Adjustment) (value : UInt8) (f : Flags) :
    (adjustment.byte value).1 = adjustment.result value ∧
      adjustment.policy.apply f (adjustment.byte value).2 = adjustment.flags value f := by
  have up : Arithmetic.inc8 value =
      (increment.result value, { increment.flags value {} with n := false }) :=
    Byte.forall_of_lt (by decide +kernel) value
  have down : Arithmetic.dec8 value =
      (decrement.result value, { decrement.flags value {} with n := false }) :=
    Byte.forall_of_lt (by decide +kernel) value
  cases adjustment with
  | increment =>
    rw [byte, up]
    exact ⟨rfl, rfl⟩
  | decrement =>
    rw [byte, down]
    exact ⟨rfl, rfl⟩

theorem word_eq (adjustment : Adjustment) (value : UInt16) :
    adjustment.word value = .ofInt (value.toNat + adjustment.offset) := by
  have bound := value.toNat_lt
  apply UInt16.toNat_inj.mp
  rw [UInt16.ofInt, UInt16.toNat_ofNat']
  cases adjustment with
  | increment =>
    rw [word, offset, UInt16.toNat_add, UInt16.toNat_one]
    omega
  | decrement =>
    rw [word, offset, UInt16.toNat_sub, UInt16.toNat_one]
    omega

end Adjustment

/-! ### The operations -/

namespace Operation

variable (cpu : Cpu) (m : Memory) (next : UInt16) (adjustment : Adjustment)

theorem stored_adjust (target : Place UInt16) :
    let value := (Source.place target).value cpu.regs m
    let operation : Operation := .adjust adjustment target
    let r := (operation.act (cpu.withPc next).regs).run m
    Stored ((adjustment.flags value cpu.regs.f).parts ++
        ([(target.location, .byte (adjustment.result value))] ++ [(.pc, .word next)]))
      (cpu.regs, m) ((operation.settle (cpu.withPc next) r.1).regs, r.2) := by
  intro value operation r
  obtain ⟨result, flags⟩ := adjustment.byte_eq value cpu.regs.f
  let written := (target.write (cpu.withPc next).regs (adjustment.result value)).run m
  have acted : r = ({ written.1 with f := (adjustment.byte value).2 }, written.2) := by
    simp only [r, operation, act, BusM.run_bind, Prefixed.run_read_target]
    rw [show (Source.place target).value cpu.regs m = value from rfl, result]
    rfl
  rw [acted, regs_settle, ← flags]
  exact Prefixed.stored_back cpu m next target (adjustment.result value) _

theorem stored_adjust16 (index : Fin 4) :
    let target := Reg16.selected index
    let operation : Operation := .adjust16 adjustment target
    let r := (operation.act (cpu.withPc next).regs).run m
    Stored (target.parts (.ofInt ((cpu.regs.get16 target).toNat + adjustment.offset)) ++
        [(.pc, .word next)])
      (cpu.regs, m) ((operation.settle (cpu.withPc next) r.1).regs, r.2) := by
  intro target operation r
  let left := (cpu.withPc next).regs.set16 target (adjustment.word (cpu.regs.get16 target))
  have value :
      (cpu.withPc next).regs.get16 (.selected index) = cpu.regs.get16 (.selected index) := by
    match index with
    | 0 | 1 | 2 | 3 => rfl
  have kept (value : UInt16) :
      ((cpu.withPc next).regs.set16 (.selected index) value).f = (cpu.withPc next).regs.f := by
    match index with
    | 0 | 1 | 2 | 3 => rfl
  have acted : r = (left, m) :=
    congrArg (fun value => ((cpu.withPc next).regs.set16 target (adjustment.word value), m)) value
  rw [acted, settle_of_kept rfl (kept _), ← adjustment.word_eq]
  exact (stored_pc cpu.regs m next).trans (stored_set16 _ m target _)

end Operation

/-! ### The instructions -/

/-- What is counted in: a byte that a field of three bits selects, or a word register that a field
of two bits selects. -/
inductive Counter where
  | byte (index : Fin 8)
  | word (index : Fin 4)
  deriving DecidableEq

namespace Counter

def opcode (adjustment : Adjustment) : Counter → UInt8
  | byte index => (match adjustment with | .increment => 0x04 | .decrement => 0x05) +
      8 * index.val.toUInt8
  | word index => (match adjustment with | .increment => 0x03 | .decrement => 0x0B) +
      0x10 * index.val.toUInt8

def form (adjustment : Adjustment) : Counter → Form
  | byte index => .adjust adjustment (Form.place index)
  | word index => .adjust16 adjustment (.selected index)

theorem ofOpcode?_opcode (counter : Counter) (adjustment : Adjustment) :
    Entry.ofOpcode? (.plain (counter.opcode adjustment)) =
      some ⟨.plain (counter.opcode adjustment), counter.form adjustment⟩ := by
  cases counter with
  | byte index | word index =>
    revert index
    cases adjustment <;> decide

def number (regs : Registers) (m : Memory) : Counter → Nat
  | byte index => (regs.selected m index).toNat
  | word index => (regs.get16 (.selected index)).toNat

/-- Where the counter is, with a number in it. -/
def put (regs : Registers) (number : Int) : Counter → List (Location × Content)
  | byte index => [(.selected regs index, .byte (.ofInt number))]
  | word index => (Reg16.selected index).parts (.ofInt number)

/-- The flags after a step, where it sets any. -/
def flags (regs : Registers) (m : Memory) (adjustment : Adjustment) :
    Counter → List (Location × Content)
  | byte index => (adjustment.flags (regs.selected m index) regs.f).parts
  | word _ => []

/-- Everything that a step changes. -/
def stores (regs : Registers) (m : Memory) (counter : Counter) (adjustment : Adjustment) :
    List (Location × Content) :=
  counter.flags regs m adjustment ++
    (counter.put regs (counter.number regs m + adjustment.offset) ++ [(.pc, .word (regs.pc + 1))])

theorem extraBytes_form (counter : Counter) (adjustment : Adjustment) :
    (counter.form adjustment).extraBytes = 0 := by
  cases counter with
  | byte index =>
    match index with
    | 0 | 1 | 2 | 3 | 4 | 5 | 6 | 7 => rfl
  | word index => rfl

/-- A step of the counter as an instruction. -/
def encoded (counter : Counter) (adjustment : Adjustment) : Encoded :=
  .ofPlain (counter.opcode adjustment) [] (counter.ofOpcode?_opcode adjustment)
    (counter.extraBytes_form adjustment).symm

theorem perform_opcode (counter : Counter) (adjustment : Adjustment) (cpu : Cpu) :
    cpu.perform [counter.opcode adjustment] =
      ((counter.form adjustment).fill cpu.regs []).execute (cpu.withPc (cpu.regs.pc + 1)) :=
  cpu.perform_bytes (counter.encoded adjustment)

/-- A step changes the counter, PC and, where a byte is counted in, flags. -/
theorem stored_perform (counter : Counter) (adjustment : Adjustment) (cpu : Cpu) (m : Memory) :
    let r := (cpu.perform [counter.opcode adjustment]).run m
    Stored (counter.stores cpu.regs m adjustment) (cpu.regs, m) (r.1.regs, r.2) := by
  intro r
  let next := cpu.regs.pc + 1
  have performed : r = _ := congrArg (BusM.run · m) (counter.perform_opcode adjustment cpu)
  rw [performed, Operation.execute, BusM.run_map]
  cases counter with
  | byte index =>
    have stored := Operation.stored_adjust cpu m next adjustment
      ((Form.place index.val).fill cpu.regs [])
    rw [Load.location_place, Prefixed.value_selected] at stored
    exact stored
  | word index => exact Operation.stored_adjust16 cpu m next adjustment index

/-- What a step leaves alone outside the registers and the bus. -/
theorem perform_control (counter : Counter) (adjustment : Adjustment) (cpu : Cpu) (m : Memory) :
    let after := ((cpu.perform [counter.opcode adjustment]).run m).1
    after = { cpu with regs := after.regs, interrupts := cpu.interrupts.advance } := by
  rw [perform_opcode, Operation.execute, BusM.run_map]
  cases counter <;> rfl

/-! ### Steps one after the other -/

/-- The locations of which nothing is said once several steps have been made. -/
def loose : Counter → List Location
  | byte _ => [.pc, .flag .z, .flag .n, .flag .h]
  | word _ => [.pc]

theorem lookup_put_flag (counter : Counter) (regs : Registers) (number : Int) (which : Flag) :
    (counter.put regs number).lookup (.flag which) = none := by
  cases counter with
  | byte index =>
    match index with
    | 0 | 1 | 2 | 3 | 4 | 5 | 6 | 7 => rfl
  | word index =>
    match index with
    | 0 | 1 | 2 | 3 => rfl

/-- The last number that is put into a counter is the one that stays. -/
theorem lookup_put_append (counter : Counter) (regs : Registers) (number number' : Int)
    (location : Location) :
    (counter.put regs number' ++ counter.put regs number).lookup location =
      (counter.put regs number').lookup location := by
  rw [List.lookup_append]
  cases there : (counter.put regs number').lookup location with
  | some content => rfl
  | none =>
    have places : (counter.put regs number).map Prod.fst =
        (counter.put regs number').map Prod.fst := by
      cases counter with
      | byte index => rfl
      | word index =>
        match index with
        | 0 | 1 | 2 | 3 => rfl
    rw [lookup_eq_none_iff, ← places, ← lookup_eq_none_iff] at there
    rw [there, Option.none_or]

theorem storedBut_perform (counter : Counter) (adjustment : Adjustment) (cpu : Cpu) (m : Memory) :
    let r := (cpu.perform [counter.opcode adjustment]).run m
    StoredBut counter.loose (counter.put cpu.regs (counter.number cpu.regs m + adjustment.offset))
      (cpu.regs, m) (r.1.regs, r.2) := by
  intro r location firm
  rw [counter.stored_perform adjustment cpu m location, stores, List.lookup_append,
    List.lookup_append]
  have behind : List.lookup location [(.pc, .word (cpu.regs.pc + 1))] = (none : Option Content) := by
    have other : location ≠ .pc := by
      rintro rfl
      exact firm (by cases counter <;> exact List.mem_cons_self)
    rw [List.lookup_cons, beq_eq_false_iff_ne.mpr other]
    rfl
  rw [behind, Option.or_none]
  cases location with
  | flag which =>
    rw [lookup_put_flag, Option.or_none]
    cases counter with
    | byte index =>
      -- Of the flags of a byte only C is firm, and it is put back as it was.
      cases which with
      | c => rfl
      | _ => simp [loose] at firm
    | word index => rfl
  | _ =>
    cases counter <;> rfl

theorem selected_not_mem_loose (regs : Registers) (index : Fin 8) :
    Location.selected regs index ∉ (byte index).loose := by
  have pc := Location.selected_ne_pc regs index
  have flag (which : Flag) : Location.selected regs index ≠ .flag which :=
    (Load.flag_ne_selected regs which index).symm
  simp [loose, pc, flag]

theorem part_not_mem_loose {index : Fin 4} {location : Location}
    (part : location ∈ ((Reg16.selected index).parts 0).map Prod.fst) :
    location ∉ (word index).loose := by
  have pc : ∀ index : Fin 4, Location.pc ∉ ((Reg16.selected index).parts 0).map Prod.fst := by
    decide
  rw [loose, List.mem_singleton]
  rintro rfl
  exact pc index part

/-- Putting into a counter the number that is in it changes nothing. -/
theorem stored_put_number (counter : Counter) (regs : Registers) (m : Memory) :
    Stored (counter.put regs (counter.number regs m)) (regs, m) (regs, m) := by
  cases counter with
  | byte index =>
    intro location
    rw [put, number, Byte.ofInt_toNat, getD_lookup_cons, ← Location.content_selected]
    by_cases here : location = .selected regs index
    · rw [if_pos here, here]
    · rw [if_neg here]
      rfl
  | word index =>
    have same : regs.set16 (.selected index) (regs.get16 (.selected index)) = regs := by
      match index with
      | 0 | 1 | 2 | 3 => simp [Registers.set16, Registers.get16, Reg16.selected]
    have stored := stored_set16 regs m (.selected index) (regs.get16 (.selected index))
    rw [same] at stored
    rwa [put, number, Word.ofInt_toNat]

/-- Once a number has been put into a counter, the next step goes on from it. -/
theorem put_of_storedBut {counter : Counter} {regs regs' : Registers} {m m' : Memory} {n : Int}
    (h : StoredBut counter.loose (counter.put regs n) (regs, m) (regs', m')) (offset : Int) :
    counter.put regs' (counter.number regs' m' + offset) = counter.put regs (n + offset) := by
  cases counter with
  | byte index =>
    have place : Location.selected regs' index = .selected regs index := by
      refine Location.selected_congr fun pointed => ?_
      subst pointed
      have high : Content.byte regs'.h = .byte regs.h := h (.reg .h) (by simp [loose])
      have low : Content.byte regs'.l = .byte regs.l := h (.reg .l) (by simp [loose])
      exact ⟨Content.byte.inj high, Content.byte.inj low⟩
    have value := h (.selected regs index) (selected_not_mem_loose regs index)
    rw [put, getD_lookup_cons, if_pos rfl, ← place, Location.content_selected] at value
    rw [put, put, number, place, Content.byte.inj value, Byte.ofInt_toNat_add]
  | word index =>
    have other : ∀ index : Fin 4, Reg16.selected index ≠ .af := by decide
    have stored := stored_set16 regs m (.selected index) (.ofInt n)
    have value : regs'.get16 (.selected index) =
        (regs.set16 (.selected index) (.ofInt n)).get16 (.selected index) :=
      Registers.get16_congr fun location part =>
        (h location (part_not_mem_loose part)).trans (stored location).symm
    rw [Registers.get16_set16_self _ _ (other index)] at value
    rw [put, put, number, value, Word.ofInt_toNat_add]

/-- Steps one after the other take a counter as far as they lead together. -/
theorem storedBut_performAll (counter : Counter) (adjustments : List Adjustment) (cpu : Cpu)
    (m : Memory) :
    let r := (cpu.performAll (adjustments.map fun adjustment => [counter.opcode adjustment])).run m
    StoredBut counter.loose
      (counter.put cpu.regs (counter.number cpu.regs m + Adjustment.total adjustments))
      (cpu.regs, m) (r.1.regs, r.2) := by
  induction adjustments generalizing cpu m with
  | nil =>
    have stored := counter.stored_put_number cpu.regs m
    rw [← Int.add_zero (counter.number cpu.regs m : Int)] at stored
    exact fun location _ => stored location
  | cons adjustment rest ih =>
    let next := (cpu.perform [counter.opcode adjustment]).run m
    have first : StoredBut _ _ (cpu.regs, m) (next.1.regs, next.2) :=
      counter.storedBut_perform adjustment cpu m
    have later := ih next.1 next.2
    rw [put_of_storedBut first, Int.add_assoc] at later
    rw [List.map_cons, Cpu.performAll_cons, BusM.run_bind]
    intro r location firm
    have both := first.trans later location firm
    rwa [lookup_put_append] at both

end Counter

theorem Adjustment.total_replicate_append (adjustment : Adjustment) (count : Nat)
    (rest : List Adjustment) :
    total (List.replicate count adjustment ++ rest) = count * adjustment.offset + total rest := by
  induction count with
  | zero => simp
  | succ count ih =>
    rw [List.replicate_succ, List.cons_append, total, ih, Int.natCast_succ, Int.add_mul]
    omega

theorem Adjustment.total_back (first : Adjustment) (count : Nat) :
    total (List.replicate count first ++ List.replicate count first.opposite) = 0 := by
  have back := total_replicate_append first.opposite count []
  rw [List.append_nil] at back
  rw [total_replicate_append, back, total]
  cases first <;> simp only [offset, opposite] <;> omega

namespace Counter

/-- The high and the low register of a word register that has two. -/
def halves : Counter → Option (Reg8 × Reg8)
  | word 0 => some (.b, .c)
  | word 1 => some (.d, .e)
  | word 2 => some (.h, .l)
  | byte _ | word 3 => none

theorem get8_halves {counter : Counter} {adjustment : Adjustment} {regs regs' : Registers}
    {m m' : Memory} (h : Stored (counter.stores regs m adjustment) (regs, m) (regs', m'))
    {high low : Reg8} (halves : counter.halves = some (high, low)) :
    regs'.get8 low = .ofInt ((regs.get8 low).toNat + adjustment.offset) ∧
      regs'.get8 high = .ofInt
        ((regs.get8 high).toNat + ((regs.get8 low).toNat + adjustment.offset) / 256) := by
  have carried := Word.halves_ofInt (regs.get8 high) (regs.get8 low) adjustment.offset
  cases counter with
  | byte index => cases halves
  | word index =>
    match index with
    | 0 =>
      cases halves
      exact ⟨(Content.byte.inj (h (.reg .c))).trans carried.1,
        (Content.byte.inj (h (.reg .b))).trans carried.2⟩
    | 1 =>
      cases halves
      exact ⟨(Content.byte.inj (h (.reg .e))).trans carried.1,
        (Content.byte.inj (h (.reg .d))).trans carried.2⟩
    | 2 =>
      cases halves
      exact ⟨(Content.byte.inj (h (.reg .l))).trans carried.1,
        (Content.byte.inj (h (.reg .h))).trans carried.2⟩
    | 3 => cases halves

end Counter

/-- A step of a counter is performed as it is decoded from a bus on which it lies. It leaves the next
number in the counter, sets the flags Z, N and H if the counter is a
byte, moves PC, and changes nothing else; in a pair it carries or borrows from one half to the other.
Any steps made one after the other take the counter as far as they add up to and change nothing else
but PC and those flags. So equally many steps in both directions leave everything as it was, PC and
those flags apart. -/
theorem Cpu.counts (cpu : Cpu) (m : Memory) (counter : Counter) :
    (∀ adjustment : Adjustment, PerformsDecoded [counter.opcode adjustment]) ∧
    (∀ adjustment : Adjustment,
      let r := (cpu.perform [counter.opcode adjustment]).run m
      Stored (counter.stores cpu.regs m adjustment) (cpu.regs, m) (r.1.regs, r.2) ∧
      r.1 = { cpu with regs := r.1.regs, interrupts := cpu.interrupts.advance } ∧
      ∀ high low, counter.halves = some (high, low) →
        r.1.regs.get8 low = .ofInt ((cpu.regs.get8 low).toNat + adjustment.offset) ∧
        r.1.regs.get8 high = .ofInt ((cpu.regs.get8 high).toNat +
          ((cpu.regs.get8 low).toNat + adjustment.offset) / 256)) ∧
    (∀ adjustments : List Adjustment,
      let r := (cpu.performAll (adjustments.map fun adjustment => [counter.opcode adjustment])).run m
      StoredBut counter.loose
        (counter.put cpu.regs (counter.number cpu.regs m + Adjustment.total adjustments))
        (cpu.regs, m) (r.1.regs, r.2)) ∧
    ∀ (first : Adjustment) (count : Nat),
      let there := List.replicate count [counter.opcode first]
      let back := List.replicate count [counter.opcode first.opposite]
      let r := (cpu.performAll (there ++ back)).run m
      StoredBut counter.loose [] (cpu.regs, m) (r.1.regs, r.2) := by
  refine ⟨fun adjustment => perform_eq_execute (counter.encoded adjustment), fun adjustment => ?_,
    fun adjustments => counter.storedBut_performAll adjustments cpu m, fun first count => ?_⟩
  · have stored := counter.stored_perform adjustment cpu m
    exact ⟨stored, counter.perform_control adjustment cpu m, fun high low halves =>
      Counter.get8_halves stored halves⟩
  · have steps := counter.storedBut_performAll
      (List.replicate count first ++ List.replicate count first.opposite) cpu m
    rw [Adjustment.total_back, Int.add_zero, List.map_append, List.map_replicate,
      List.map_replicate] at steps
    intro there back r location firm
    exact (steps location firm).trans (counter.stored_put_number cpu.regs m location).symm

end Sm83
