import Mathlib.Data.List.Induction
import Sm83.Proofs.Board
import Sm83.Proofs.Step

/-!
# The stack

A host has the core execute instructions that push and pop, and before each of them puts the core
into a state of its choice, except for SP. As long as nothing is popped that was not pushed and the
words fit into memory, SP counts the open words, they lie one above the other with the last one at
SP, each pop gives the word of the push that it belongs to, and nothing but the cells of the deepest
stack changes (`stack_discipline`). SP and the addresses of the bytes may wrap around anywhere.
-/

namespace Sm83

/-! ### What an instruction does to the stack -/

inductive StackEffect where
  | push (word : UInt16)
  | pop
  deriving DecidableEq

namespace StackEffect

/-- The open words after the effect, the last one first. A word more than fit into memory cannot be
pushed, and a word that is not there cannot be popped. -/
def follow : StackEffect → List UInt16 → Option (List UInt16)
  | .push word, words => if words.length < 0x8000 then some (word :: words) else none
  | .pop, _ :: words => some words
  | .pop, [] => none

theorem follow_push_iff {word : UInt16} {words later : List UInt16} :
    (push word).follow words = some later ↔ words.length < 0x8000 ∧ later = word :: words := by
  simp [follow, eq_comm]

theorem follow_pop_iff {words later : List UInt16} :
    pop.follow words = some later ↔ ∃ word, words = word :: later := by
  cases words <;> simp [follow]

end StackEffect

namespace Operation

def stackEffect? (operation : Operation) (regs : Registers) : Option StackEffect :=
  match operation with
  | .push pair => some (.push (regs.get16 pair))
  | .call condition _ => if regs.takes condition then some (.push regs.pc) else none
  | .rst _ => some (.push regs.pc)
  | .pop _ | .reti => some .pop
  | .ret condition => if regs.takes condition then some .pop else none
  | _ => none

/-- The word has arrived where the operation takes the word that it pops. -/
def Delivers (operation : Operation) (word : UInt16) (regs : Registers) : Prop :=
  match operation with
  | .pop .af => regs.get16 .af = word &&& 0xFFF0
  | .pop pair => regs.get16 pair = word
  | _ => regs.pc = word

end Operation

/-- SP itself is not what is pushed or popped. -/
def Instruction.sparesSp {α β ω : Type} : Instruction α β ω → Bool
  | .push pair | .pop pair => pair != .sp
  | _ => true

theorem Form.sparesSp_fill (regs : Registers) (literals : List UInt8) (form : Form) :
    (form.fill regs literals).sparesSp = form.sparesSp := by
  cases form <;> rfl

theorem Entry.sparesSp_of_mem {opcode : Opcode} {entry : Entry} (h : entry ∈ ofOpcode? opcode) :
    entry.form.sparesSp = true :=
  forall_of_all (by decide +kernel) (by decide +kernel) h

theorem Decoded.Arises.sparesSp {decoded : Decoded} (h : decoded.Arises) :
    decoded.operation.sparesSp = true := by
  obtain ⟨listed, regs, literals, filled⟩ := h.filled
  rw [filled, Form.sparesSp_fill]
  exact Entry.sparesSp_of_mem listed

theorem Operation.stackEffect?_withSp {operation : Operation} (spared : operation.sparesSp = true)
    (regs : Registers) (sp : UInt16) :
    operation.stackEffect? { regs with sp } = operation.stackEffect? regs := by
  cases operation
  case push pair =>
    cases pair with
    | sp => cases spared
    | _ => rfl
  all_goals rfl

/-! ### Words -/

namespace Word

theorem toNat_upper12 (w : UInt16) : (w &&& 0xFFF0).toNat = w.toNat / 16 * 16 := by
  rw [UInt16.toNat_and]
  change w.toNat &&& (2 ^ 12 - 1) * 2 ^ 4 = w.toNat / 2 ^ 4 * 2 ^ 4
  apply Nat.eq_of_testBit_eq
  intro i
  rw [Nat.testBit_and, Nat.testBit_mul_two_pow, Nat.testBit_mul_two_pow,
    Nat.testBit_two_pow_sub_one, Nat.testBit_div_two_pow]
  by_cases low : 4 ≤ i
  · by_cases high : i - 4 < 12
    · simp [low, high, Nat.sub_add_cancel]
    · have small : w.toNat < 2 ^ i :=
        Nat.lt_of_lt_of_le w.toNat_lt (Nat.pow_le_pow_right (by decide) (by omega))
      simp [low, high, Nat.sub_add_cancel, Nat.testBit_lt_two_pow small]
  · simp [low]

theorem join_high_low_upper (w : UInt16) : join (high w) (low w &&& 0xF0) = w &&& 0xFFF0 := by
  have upper : ∀ b : UInt8, (b &&& 0xF0).toNat = b.toNat / 16 * 16 :=
    Byte.forall_of_lt (by decide +kernel)
  apply UInt16.toNat_inj.mp
  rw [toNat_upper12, toNat_join, upper, toNat_low, toNat_high]
  omega

/-- The words one after the other, each with its low byte first. -/
def bytes (words : List UInt16) : List UInt8 :=
  words.flatMap fun word => [low word, high word]

end Word

/-! ### One instruction -/

namespace Operation

variable {operation : Operation} {cpu : Cpu}

theorem run_execute_push (m : Memory) {word : UInt16}
    (effect : operation.stackEffect? cpu.regs = some (.push word)) :
    let sp := cpu.regs.sp - 2
    ((operation.execute cpu).run m).1.regs.sp = sp ∧
      ((operation.execute cpu).run m).2 = m.load sp [Word.low word, Word.high word] := by
  intro sp
  suffices acted : ((operation.act cpu.regs).run m).1.sp = sp ∧
      ((operation.act cpu.regs).run m).2 = m.load sp [Word.low word, Word.high word] by
    rw [execute, BusM.run_map]
    refine ⟨?_, acted.2⟩
    rw [regs_settle]
    exact acted.1
  cases operation
  case push pair =>
    cases effect
    exact ⟨rfl, rfl⟩
  case rst vector =>
    cases effect
    exact ⟨rfl, rfl⟩
  case call condition target =>
    simp only [stackEffect?] at effect
    split at effect
    next taken =>
      cases effect
      simp only [act, taken, if_true]
      exact ⟨rfl, rfl⟩
    next => cases effect
  case ret condition =>
    simp only [stackEffect?] at effect
    split at effect <;> cases effect
  all_goals cases effect

theorem run_execute_pop (spared : operation.sparesSp = true) (m : Memory)
    (effect : operation.stackEffect? cpu.regs = some .pop) :
    let sp := cpu.regs.sp
    let r := (operation.execute cpu).run m
    r.1.regs.sp = sp + 2 ∧ r.2 = m ∧
      operation.Delivers (Word.join (m.read (sp + 1)) (m.read sp)) r.1.regs := by
  intro sp r
  let word := Word.join (m.read (sp + 1)) (m.read sp)
  have executed : r = _ := BusM.run_map (operation.settle cpu) (operation.act cpu.regs) m
  rw [executed]
  dsimp only
  rw [regs_settle]
  cases operation
  case pop pair =>
    refine ⟨?_, rfl, ?_⟩
    · cases pair with
      | sp => cases spared
      | _ => rfl
    · cases pair with
      | sp => cases spared
      | af => exact (cpu.regs.get16_set16_af word).trans (Word.join_high_low_upper word)
      | bc | de | hl => exact Word.join_high_low word
      | pc => rfl
  case reti =>
    exact ⟨rfl, rfl, rfl⟩
  case ret condition =>
    simp only [stackEffect?] at effect
    split at effect
    next taken =>
      simp only [act, taken, if_true]
      exact ⟨rfl, rfl, rfl⟩
    next => cases effect
  case call condition target =>
    simp only [stackEffect?] at effect
    split at effect <;> cases effect
  all_goals cases effect

end Operation

/-! ### Turns -/

/-- The host puts the core into a state, SP left out, and has it execute an instruction. -/
structure Turn where
  host : Cpu
  decoded : Decoded
  arises : decoded.Arises

namespace Turn

def start (turn : Turn) (sp : UInt16) : Cpu :=
  { turn.host with regs := { turn.host.regs with sp } }

def effect? (turn : Turn) : Option StackEffect :=
  turn.decoded.operation.stackEffect? turn.host.regs

theorem effect?_start (turn : Turn) (sp : UInt16) :
    turn.decoded.operation.stackEffect? (turn.start sp).regs = turn.effect? :=
  Operation.stackEffect?_withSp turn.arises.sparesSp turn.host.regs sp

def follow (turn : Turn) (words : List UInt16) : Option (List UInt16) := do
  (← turn.effect?).follow words

theorem follow_cases {turn : Turn} {words later : List UInt16}
    (h : turn.follow words = some later) :
    (∃ word, turn.effect? = some (.push word) ∧ words.length < 0x8000 ∧ later = word :: words) ∨
    (∃ word, turn.effect? = some .pop ∧ words = word :: later) := by
  obtain ⟨effect, found, followed⟩ := Option.bind_eq_some_iff.mp h
  cases effect with
  | push word => exact .inl ⟨word, found, StackEffect.follow_push_iff.mp followed⟩
  | pop =>
    obtain ⟨word, there⟩ := StackEffect.follow_pop_iff.mp followed
    exact .inr ⟨word, found, there⟩

theorem follow_push {turn : Turn} {word : UInt16} (effect : turn.effect? = some (.push word))
    {words : List UInt16} (room : words.length < 0x8000) :
    turn.follow words = some (word :: words) := by
  simp [follow, effect, StackEffect.follow, room]

theorem follow_pop {turn : Turn} (effect : turn.effect? = some .pop) (word : UInt16)
    (words : List UInt16) : turn.follow (word :: words) = some words := by
  simp [follow, effect, StackEffect.follow]

end Turn

/-- The words that are open after the turns, the last one first; none if a turn is no instruction
that pushes or pops, pops what is not there or pushes a word too many. -/
def opened (turns : List Turn) : Option (List UInt16) :=
  turns.foldlM (fun words turn => turn.follow words) []

theorem opened_concat_iff {turns : List Turn} {turn : Turn} {later : List UInt16} :
    opened (turns ++ [turn]) = some later ↔
      ∃ words, opened turns = some words ∧ turn.follow words = some later := by
  simp [opened, Option.bind_eq_some_iff]

/-- An open word was pushed by a turn after which everything that was pushed, except for what lies
above the word, has been popped. -/
theorem opener_of_opened (turns : List Turn) {word : UInt16} {above below : List UInt16}
    (h : opened turns = some (above ++ word :: below)) :
    ∃ before opener inner, turns = before ++ opener :: inner ∧
      opener.effect? = some (.push word) ∧ opened inner = some above := by
  -- Either the last turn is the push itself, or the push came before it, when there was one word
  -- fewer or one more above.
  induction turns using List.reverseRecOn generalizing above with
  | nil => simp [opened] at h
  | append_singleton turns turn ih =>
    obtain ⟨words, start, followed⟩ := opened_concat_iff.mp h
    rcases turn.follow_cases followed with ⟨pushed, effect, room, same⟩ | ⟨popped, effect, rfl⟩
    · cases above with
      | nil =>
        obtain ⟨rfl, rfl⟩ := List.cons.inj same
        exact ⟨turns, turn, [], rfl, effect, rfl⟩
      | cons top above =>
        rw [List.cons_append, List.cons.injEq] at same
        obtain ⟨rfl, rfl⟩ := same
        obtain ⟨before, opener, inner, rfl, opens, rest⟩ := ih start
        refine ⟨before, opener, inner ++ [turn], by simp, opens, ?_⟩
        have lower : above.length < 0x8000 := by
          rw [List.length_append] at room
          omega
        exact opened_concat_iff.mpr ⟨above, rest, turn.follow_push effect lower⟩
    · have higher : opened turns = some ((popped :: above) ++ word :: below) := start
      obtain ⟨before, opener, inner, rfl, opens, rest⟩ := ih higher
      refine ⟨before, opener, inner ++ [turn], by simp, opens, ?_⟩
      exact opened_concat_iff.mpr ⟨popped :: above, rest, turn.follow_pop effect popped above⟩

namespace Board

def turn (board : Board Memory) (turn : Turn) : Board Memory :=
  let (cpu, bus) := (turn.decoded.operation.execute (turn.start board.cpu.regs.sp)).run board.bus
  { cpu, bus }

def turns (board : Board Memory) (turns : List Turn) : Board Memory :=
  turns.foldl turn board

theorem turns_concat (board : Board Memory) (turns : List Turn) (turn : Turn) :
    board.turns (turns ++ [turn]) = (board.turns turns).turn turn := by
  simp [Board.turns]

/-- The stack of the board has these words, and it is empty where SP is `top`. -/
structure Holds (board : Board Memory) (top : UInt16) (words : List UInt16) : Prop where
  length_le : words.length ≤ 0x8000
  sp_eq : board.cpu.regs.sp = top - (2 * words.length).toUInt16
  block_eq : board.bus.block board.cpu.regs.sp (2 * words.length) = Word.bytes words

variable {board : Board Memory} {top word : UInt16} {words : List UInt16} {turn : Turn}

theorem Holds.turn_push (h : board.Holds top words) (effect : turn.effect? = some (.push word))
    (room : words.length < 0x8000) :
    (board.turn turn).Holds top (word :: words) ∧
      (board.turn turn).bus =
        board.bus.load (board.cpu.regs.sp - 2) [Word.low word, Word.high word] := by
  let sp := board.cpu.regs.sp
  let bytes := [Word.low word, Word.high word]
  have acted := Operation.run_execute_push board.bus ((turn.effect?_start sp).trans effect)
  have lowered : (board.turn turn).cpu.regs.sp = sp - 2 := acted.1
  have loaded : (board.turn turn).bus = board.bus.load (sp - 2) bytes := acted.2
  refine ⟨⟨room, ?_, ?_⟩, loaded⟩
  · rw [lowered, show sp = _ from h.sp_eq]
    exact address_sub_sub top (2 * words.length) 2
  · -- There is room, so the new word does not come round to the open ones.
    have fits : bytes.length + 2 * words.length ≤ 0x10000 := by
      simp only [bytes, List.length_cons, List.length_nil]
      omega
    have pushed : (board.bus.load (sp - 2) bytes).block (sp - 2) 2 = bytes :=
      board.bus.block_load (sp - 2) bytes (by omega)
    have kept : (board.bus.load (sp - 2) bytes).block (sp - 2 + 2) (2 * words.length) =
        board.bus.block (sp - 2 + 2) (2 * words.length) :=
      board.bus.block_load_above (sp - 2) bytes fits
    rw [UInt16.sub_add_cancel, h.block_eq] at kept
    rw [lowered, loaded, List.length_cons, Memory.block_words_succ, UInt16.sub_add_cancel, pushed,
      kept]
    rfl

theorem Holds.turn_pop (h : board.Holds top (word :: words)) (effect : turn.effect? = some .pop) :
    (board.turn turn).Holds top words ∧ (board.turn turn).bus = board.bus ∧
      turn.decoded.operation.Delivers word (board.turn turn).cpu.regs := by
  let sp := board.cpu.regs.sp
  have acted := Operation.run_execute_pop turn.arises.sparesSp board.bus
    ((turn.effect?_start sp).trans effect)
  have raised : (board.turn turn).cpu.regs.sp = sp + 2 := acted.1
  have same : (board.turn turn).bus = board.bus := acted.2.1
  have delivered : turn.decoded.operation.Delivers
      (Word.join (board.bus.read (sp + 1)) (board.bus.read sp)) (board.turn turn).cpu.regs :=
    acted.2.2
  have laid := h.block_eq
  rw [List.length_cons, Memory.block_words_succ] at laid
  obtain ⟨popped, rest⟩ := List.append_inj laid (by simp)
  have bytes : [board.bus.read sp, board.bus.read (sp + 1)] = [Word.low word, Word.high word] :=
    (board.bus.block_two sp).symm.trans popped
  simp only [List.cons.injEq, and_true] at bytes
  refine ⟨⟨?_, ?_, ?_⟩, same, ?_⟩
  · exact Nat.le_of_succ_le h.length_le
  · rw [raised, show sp = _ from h.sp_eq]
    exact address_sub_add top (2 * words.length) 2
  · rw [raised, same]
    exact rest
  · rwa [bytes.1, bytes.2, Word.join_high_low] at delivered

theorem holds_turns (board : Board Memory) {turns : List Turn} (h : opened turns = some words) :
    (board.turns turns).Holds board.cpu.regs.sp words := by
  induction turns using List.reverseRecOn generalizing words with
  | nil =>
    cases h
    exact ⟨Nat.zero_le _, (UInt16.sub_zero _).symm, rfl⟩
  | append_singleton turns turn ih =>
    obtain ⟨before, start, followed⟩ := opened_concat_iff.mp h
    have held := ih start
    rw [turns_concat]
    rcases turn.follow_cases followed with ⟨pushed, effect, room, rfl⟩ | ⟨popped, effect, rfl⟩
    · exact (held.turn_push effect room).1
    · exact (held.turn_pop effect).1

/-- A cell is left alone if it does not lie as far down as the stack gets. -/
theorem read_turns_of_outside (board : Board Memory) {turns : List Turn}
    (h : opened turns = some words) {depth : Nat}
    (bounded : ∀ part, part <+: turns → ∀ words, opened part = some words → words.length ≤ depth)
    {address : UInt16}
    (outside : ∀ i, 1 ≤ i → i ≤ 2 * depth → address ≠ board.cpu.regs.sp - i.toUInt16) :
    (board.turns turns).bus.read address = board.bus.read address := by
  induction turns using List.reverseRecOn generalizing words with
  | nil => rfl
  | append_singleton turns turn ih =>
    obtain ⟨before, start, followed⟩ := opened_concat_iff.mp h
    have same := ih start fun part first => bounded part (first.trans (List.prefix_append _ _))
    have held := board.holds_turns start
    rw [turns_concat, ← same]
    rcases turn.follow_cases followed with ⟨pushed, effect, room, rfl⟩ | ⟨popped, effect, rfl⟩
    · have deep : before.length + 1 ≤ depth := bounded _ List.prefix_rfl _ h
      rw [(held.turn_push effect room).2, held.sp_eq]
      refine Memory.read_load_of_apart _ _ _ _ fun j inside => ?_
      have two : j < 2 := inside
      -- The two bytes lie at most as far below the top as the depth after the push allows.
      let top := board.cpu.regs.sp
      let low := 2 * before.length + 2
      have counted : low = (low - j) + j := by omega
      have below : top - (2 * before.length).toUInt16 - 2 + j.toUInt16 = top - (low - j).toUInt16 :=
        calc top - (2 * before.length).toUInt16 - 2 + j.toUInt16
          _ = top - low.toUInt16 + j.toUInt16 :=
              congrArg (· + j.toUInt16) (address_sub_sub top (2 * before.length) 2)
          _ = top - (low - j + j).toUInt16 + j.toUInt16 := by rw [← counted]
          _ = top - (low - j).toUInt16 := address_sub_add top (low - j) j
      rw [below]
      exact outside _ (by omega) (by omega)
    · rw [(held.turn_pop effect).2.1]

theorem opened_of_prefix {earlier turns : List Turn} (proper : (opened turns).isSome)
    (first : earlier <+: turns) : ∃ words, opened earlier = some words := by
  obtain ⟨later, rfl⟩ := first
  rw [opened, List.foldlM_append] at proper
  cases start : opened earlier with
  | some words => exact ⟨words, rfl⟩
  | none =>
    rw [opened] at start
    simp [start] at proper

/-- Where no turn pops more than was pushed and no word is pushed that does not fit, then after
every part of the turns SP and the words from SP on are those of the open words, cells that do not
lie as far below the first SP as the stack has got are as they were, and a turn that pops next
delivers the word of the push that has been open the shortest. -/
theorem stack_discipline (board : Board Memory) {turns : List Turn}
    (proper : (opened turns).isSome) :
    ∀ earlier, earlier <+: turns →
      let now := board.turns earlier
      ∃ words, opened earlier = some words ∧
        now.cpu.regs.sp = board.cpu.regs.sp - (2 * words.length).toUInt16 ∧
        now.bus.block now.cpu.regs.sp (2 * words.length) = Word.bytes words ∧
        (∀ depth,
          (∀ part, part <+: earlier → ∀ words, opened part = some words → words.length ≤ depth) →
          ∀ address, (∀ i, 1 ≤ i → i ≤ 2 * depth → address ≠ board.cpu.regs.sp - i.toUInt16) →
            now.bus.read address = board.bus.read address) ∧
        ∀ turn, earlier ++ [turn] <+: turns → turn.effect? = some .pop →
          ∃ before opener inner word, earlier = before ++ opener :: inner ∧
            opener.effect? = some (.push word) ∧ opened inner = some [] ∧
            turn.decoded.operation.Delivers word (now.turn turn).cpu.regs := by
  intro earlier first now
  obtain ⟨words, start⟩ := opened_of_prefix proper first
  have held := board.holds_turns start
  refine ⟨words, start, held.sp_eq, held.block_eq, ?_, ?_⟩
  · intro depth bounded address outside
    exact board.read_turns_of_outside start bounded outside
  · intro turn next pops
    obtain ⟨later, ended⟩ := opened_of_prefix proper next
    obtain ⟨open', start', followed⟩ := opened_concat_iff.mp ended
    obtain rfl := Option.some.inj (start.symm.trans start')
    rcases turn.follow_cases followed with ⟨pushed, pushes, -⟩ | ⟨word, -, rfl⟩
    · cases pushes.symm.trans pops
    have last : opened earlier = some ([] ++ word :: later) := start
    obtain ⟨before, opener, inner, split, opens, rest⟩ := opener_of_opened earlier last
    exact ⟨before, opener, inner, word, split, opens, rest, (held.turn_pop pops).2.2⟩

/-- A call from odd SP 0001, with AF saved in the routine, puts words around the end of memory. -/
theorem stack_discipline_of_call :
    let call : Turn :=
      { host := { regs := { pc := 0x0103 } }
        decoded :=
          { entry := ⟨.plain 0xCD, .call none ()⟩
            operation := .call none (Word.join 0x40 0x00)
            pc := 0x0100 }
        arises := Encoded.arises ⟨⟨.plain 0xCD, .call none ()⟩, [0x00, 0x40],
          (Entry.mem_all_iff _).mpr (by decide), rfl⟩ { pc := 0x0100 } }
    let save : Turn :=
      { host := { regs := { a := 0x12, f := { z := true }, pc := 0x4001 } }
        decoded := { entry := ⟨.plain 0xF5, .push .af⟩, operation := .push .af, pc := 0x4000 }
        arises := Encoded.arises ⟨⟨.plain 0xF5, .push .af⟩, [],
          (Entry.mem_all_iff _).mpr (by decide), rfl⟩ { pc := 0x4000 } }
    let restore : Turn :=
      { host := {}
        decoded := { entry := ⟨.plain 0xF1, .pop .af⟩, operation := .pop .af, pc := 0x4001 }
        arises := Encoded.arises ⟨⟨.plain 0xF1, .pop .af⟩, [],
          (Entry.mem_all_iff _).mpr (by decide), rfl⟩ { pc := 0x4001 } }
    let board : Board Memory := { cpu := { regs := { sp := 0x0001 } }, bus := Memory.zero }
    let saved := board.turns [call, save]
    (opened [call, save, restore]).isSome ∧
    saved.cpu.regs.sp = 0xFFFD ∧
    saved.bus.block 0xFFFD 4 = [0x80, 0x12, 0x03, 0x01] ∧
    (saved.turn restore).cpu.regs.get16 .af = 0x1280 := by
  intro call save restore board saved
  have proper : (opened [call, save, restore]).isSome := rfl
  obtain ⟨words, opens, sp_eq, block_eq, -, pops⟩ :=
    board.stack_discipline proper [call, save] ⟨[restore], rfl⟩
  have two : words = [Word.join 0x12 0x80, 0x0103] := (Option.some.inj opens).symm
  subst two
  have sp : saved.cpu.regs.sp = 0xFFFD := sp_eq
  obtain ⟨before, opener, inner, word, split, pushes, closed, delivered⟩ :=
    pops restore List.prefix_rfl rfl
  refine ⟨proper, sp, ?_, ?_⟩
  · rw [sp] at block_eq
    exact block_eq.trans (by decide)
  · rcases before with _ | ⟨first, _ | ⟨second, rest⟩⟩
    · obtain ⟨rfl, rfl⟩ := List.cons.inj split
      cases closed
    · obtain ⟨-, last⟩ := List.cons.inj split
      obtain ⟨rfl, rfl⟩ := List.cons.inj last
      have stored : Registers.get16 { a := 0x12, f := { z := true } } .af = word :=
        StackEffect.push.inj (Option.some.inj pushes)
      subst stored
      exact delivered.trans (by decide)
    · simp at split
end Board

end Sm83
