import Sm83.Memory
import Sm83.Registers

/-!
# Locations

The state that instructions work on is made of locations, each of which can change without the
others: the byte registers, the single flags, SP, PC and the cells of memory. A word register other
than SP and PC has no location of its own but is made of parts. What becomes of a state is a list of
contents put into locations (`Stored`); a location that is not in the list keeps what it had
(`Stored.content_eq`).
-/

namespace Sm83

inductive Flag where
  | z | n | h | c
  deriving DecidableEq

namespace Flag

def all : List Flag := [z, n, h, c]

def get (flag : Flag) (f : Flags) : Bool :=
  match flag with
  | z => f.z
  | n => f.n
  | h => f.h
  | c => f.c

theorem eq_of_get {f f' : Flags} (same : ∀ which : Flag, which.get f = which.get f') : f = f' := by
  rcases f with ⟨z, n, h, c⟩
  rcases f' with ⟨z', n', h', c'⟩
  obtain rfl : z = z' := same .z
  obtain rfl : n = n' := same .n
  obtain rfl : h = h' := same .h
  obtain rfl : c = c' := same .c
  rfl

end Flag

inductive Location where
  | reg (r : Reg8)
  | flag (which : Flag)
  | sp
  | pc
  | cell (address : UInt16)
  deriving DecidableEq

inductive Content where
  | byte (value : UInt8)
  | word (value : UInt16)
  | bit (value : Bool)
  deriving DecidableEq

def Location.content (regs : Registers) (m : Memory) : Location → Content
  | reg r => .byte (regs.get8 r)
  | flag which => .bit (which.get regs.f)
  | sp => .word regs.sp
  | pc => .word regs.pc
  | cell address => .byte (m.read address)

/-- What each part of a word register has when the register has the value. -/
def Reg16.parts (value : UInt16) : Reg16 → List (Location × Content)
  | .af =>
      let f := Flags.ofByte (Word.low value)
      (.reg .a, .byte (Word.high value)) :: Flag.all.map fun flag => (.flag flag, .bit (flag.get f))
  | .bc => [(.reg .b, .byte (Word.high value)), (.reg .c, .byte (Word.low value))]
  | .de => [(.reg .d, .byte (Word.high value)), (.reg .e, .byte (Word.low value))]
  | .hl => [(.reg .h, .byte (Word.high value)), (.reg .l, .byte (Word.low value))]
  | .sp => [(.sp, .word value)]
  | .pc => [(.pc, .word value)]

/-- A word register is read from its parts. -/
theorem Registers.get16_congr {r : Reg16} {value : UInt16} {regs regs' : Registers} {m m' : Memory}
    (same : ∀ location ∈ (r.parts value).map Prod.fst,
      location.content regs m = location.content regs' m') :
    regs.get16 r = regs'.get16 r := by
  cases r
  case af =>
    have a : regs.a = regs'.a := Content.byte.inj (same (.reg .a) List.mem_cons_self)
    have f : regs.f = regs'.f := by
      refine Flag.eq_of_get fun which => ?_
      refine Content.bit.inj (same (.flag which) (List.mem_cons_of_mem _ ?_))
      cases which <;> simp [Flag.all]
    rw [get16, get16, a, f]
  all_goals
    simp only [Reg16.parts, List.map_cons, List.map_nil, List.forall_mem_cons, Location.content,
      Content.byte.injEq, Content.word.injEq, get8] at same
    simp only [get16, same]

/-- The contents have been put into their locations and nothing else has changed. Of two contents
for one location the one further in front has been put there later. -/
def Stored (stores : List (Location × Content)) (before after : Registers × Memory) : Prop :=
  ∀ location : Location, location.content after.1 after.2 =
    (stores.lookup location).getD (location.content before.1 before.2)

variable {stores later : List (Location × Content)} {before middle after : Registers × Memory}

theorem lookup_eq_none_iff (stores : List (Location × Content)) (location : Location) :
    stores.lookup location = none ↔ location ∉ stores.map Prod.fst := by
  rw [List.lookup_eq_none_iff, List.mem_map]
  constructor
  · rintro apart ⟨store, there, rfl⟩
    simpa using apart store there
  · intro apart store there
    exact bne_iff_ne.mpr fun same => apart ⟨store, there, same.symm⟩

namespace Stored

theorem trans (h : Stored stores before middle) (h' : Stored later middle after) :
    Stored (later ++ stores) before after := by
  intro location
  rw [h', h, List.lookup_append, Option.getD_or]

/-- A location into which nothing has been put keeps its content. -/
theorem content_eq (h : Stored stores before after) {location : Location}
    (apart : location ∉ stores.map Prod.fst) :
    location.content after.1 after.2 = location.content before.1 before.2 := by
  rw [h, (lookup_eq_none_iff stores location).mpr apart, Option.getD_none]

theorem f_eq (h : Stored stores before after)
    (apart : ∀ which : Flag, .flag which ∉ stores.map Prod.fst) : after.1.f = before.1.f :=
  Flag.eq_of_get fun which => Content.bit.inj (h.content_eq (apart which))

end Stored

/-- The contents have been put into their locations, and nothing else has changed but for loose
locations, of which nothing is said. -/
def StoredBut (loose : List Location) (stores : List (Location × Content))
    (before after : Registers × Memory) : Prop :=
  ∀ location ∉ loose, location.content after.1 after.2 =
    (stores.lookup location).getD (location.content before.1 before.2)

theorem StoredBut.trans {loose : List Location} (h : StoredBut loose stores before middle)
    (h' : StoredBut loose later middle after) : StoredBut loose (later ++ stores) before after := by
  intro location firm
  rw [h' location firm, h location firm, List.lookup_append, Option.getD_or]

theorem getD_lookup_cons (location other : Location) (content before : Content)
    (rest : List (Location × Content)) :
    (((other, content) :: rest).lookup location).getD before =
      if location = other then content else (rest.lookup location).getD before := by
  by_cases same : location = other
  · simp [same]
  · have apart : (location == other) = false := by simpa using same
    rw [List.lookup_cons, apart, if_neg same]

theorem stored_nil (state : Registers × Memory) : Stored [] state state :=
  fun _ => rfl

theorem stored_set8 (regs : Registers) (m : Memory) (r : Reg8) (value : UInt8) :
    Stored [(.reg r, .byte value)] (regs, m) (regs.set8 r value, m) := by
  intro location
  cases location with
  | reg s =>
    rw [getD_lookup_cons, Location.content, Registers.get8_set8]
    by_cases same : s = r <;> simp [same, Location.content]
  | _ => cases r <;> rfl

theorem stored_set16 (regs : Registers) (m : Memory) (r : Reg16) (value : UInt16) :
    Stored (r.parts value) (regs, m) (regs.set16 r value, m) := by
  intro location
  cases location with
  | reg s => cases r <;> cases s <;> rfl
  | flag flag => cases r <;> cases flag <;> rfl
  | _ => cases r <;> rfl

theorem stored_pc (regs : Registers) (m : Memory) (pc : UInt16) :
    Stored [(.pc, .word pc)] (regs, m) ({ regs with pc }, m) :=
  stored_set16 regs m .pc pc

theorem stored_assign (regs : Registers) (m : Memory) (set : Flags) (value : Bool) :
    Stored ((Flag.all.filter (·.get set)).map fun flag => (.flag flag, .bit value)) (regs, m)
      ({ regs with f := regs.f.assign set value }, m) := by
  intro location
  rcases set with ⟨_ | _, _ | _, _ | _, _ | _⟩
  all_goals
    cases location with
    | flag flag => cases flag <;> rfl
    | _ => rfl

theorem stored_write (regs : Registers) (m : Memory) (address : UInt16) (value : UInt8) :
    Stored [(.cell address, .byte value)] (regs, m) (regs, m.write address value) := by
  intro location
  cases location with
  | cell other =>
    rw [getD_lookup_cons, Location.content, Memory.read_write]
    by_cases same : other = address <;> simp [same, Location.content]
  | _ => rfl

/-- The bytes of a block and the cells they go to, the last one first. -/
def cellsOf (address : UInt16) : List UInt8 → List (Location × Content)
  | [] => []
  | byte :: rest => cellsOf (address + 1) rest ++ [(.cell address, .byte byte)]

theorem stored_load (regs : Registers) (m : Memory) (address : UInt16) (bytes : List UInt8) :
    Stored (cellsOf address bytes) (regs, m) (regs, m.load address bytes) := by
  induction bytes generalizing m address with
  | nil => exact stored_nil _
  | cons byte rest ih => exact (stored_write regs m address byte).trans (ih _ _)

end Sm83
