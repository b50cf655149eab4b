import Sm83.Flags
import Sm83.Word

/-!
# The register file

Seven byte registers, the flags and two words. A pair is not stored: it is joined from its two
byte registers on every read and split into them on every write, so a pair and its halves always
agree.
-/

namespace Sm83

inductive Reg8 where
  | a | b | c | d | e | h | l
  deriving DecidableEq

namespace Reg8

def all : List Reg8 := [a, b, c, d, e, h, l]

def name : Reg8 → String
  | a => "A"
  | b => "B"
  | c => "C"
  | d => "D"
  | e => "E"
  | h => "H"
  | l => "L"

/-- The number of a register in an opcode field. Number 6 belongs to no register: it selects the
byte at HL. -/
def index : Reg8 → Nat
  | b => 0
  | c => 1
  | d => 2
  | e => 3
  | h => 4
  | l => 5
  | a => 7

/-- The register that a three-bit opcode field selects, if it selects one; higher bits of `index`
are ignored. -/
def ofIndex? (index : Nat) : Option Reg8 :=
  match index % 8 with
  | 0 => some b
  | 1 => some c
  | 2 => some d
  | 3 => some e
  | 4 => some h
  | 5 => some l
  | 7 => some a
  | _ => none

@[simp] theorem ofIndex?_index (r : Reg8) : ofIndex? r.index = some r := by
  cases r <;> rfl

end Reg8

/-- A register of sixteen bits: a pair of byte registers, the stack pointer or the program
counter. -/
inductive Reg16 where
  | af | bc | de | hl | sp | pc
  deriving DecidableEq

namespace Reg16

def all : List Reg16 := [af, bc, de, hl, sp, pc]

def name : Reg16 → String
  | af => "AF"
  | bc => "BC"
  | de => "DE"
  | hl => "HL"
  | sp => "SP"
  | pc => "PC"

end Reg16

structure Registers where
  a : UInt8 := 0
  f : Flags := {}
  b : UInt8 := 0
  c : UInt8 := 0
  d : UInt8 := 0
  e : UInt8 := 0
  h : UInt8 := 0
  l : UInt8 := 0
  sp : UInt16 := 0
  pc : UInt16 := 0
  deriving DecidableEq

namespace Registers

def get8 (regs : Registers) : Reg8 → UInt8
  | .a => regs.a
  | .b => regs.b
  | .c => regs.c
  | .d => regs.d
  | .e => regs.e
  | .h => regs.h
  | .l => regs.l

def set8 (regs : Registers) (r : Reg8) (value : UInt8) : Registers :=
  match r with
  | .a => { regs with a := value }
  | .b => { regs with b := value }
  | .c => { regs with c := value }
  | .d => { regs with d := value }
  | .e => { regs with e := value }
  | .h => { regs with h := value }
  | .l => { regs with l := value }

/-- Reads a pair as its high and low register, and AF as A and the byte of the flags. -/
def get16 (regs : Registers) : Reg16 → UInt16
  | .af => Word.join regs.a regs.f.toByte
  | .bc => Word.join regs.b regs.c
  | .de => Word.join regs.d regs.e
  | .hl => Word.join regs.h regs.l
  | .sp => regs.sp
  | .pc => regs.pc

/-- Writes both registers of a pair. Through AF the low nibble of the flag byte is lost. -/
def set16 (regs : Registers) (r : Reg16) (value : UInt16) : Registers :=
  match r with
  | .af => { regs with a := Word.high value, f := .ofByte (Word.low value) }
  | .bc => { regs with b := Word.high value, c := Word.low value }
  | .de => { regs with d := Word.high value, e := Word.low value }
  | .hl => { regs with h := Word.high value, l := Word.low value }
  | .sp => { regs with sp := value }
  | .pc => { regs with pc := value }

def accumulate (regs : Registers) (result : UInt8 × Flags) : Registers :=
  { regs with a := result.1, f := result.2 }

theorem get8_set8 (regs : Registers) (r s : Reg8) (value : UInt8) :
    (regs.set8 r value).get8 s = if s = r then value else regs.get8 s := by
  cases r <;> cases s <;> rfl

@[simp] theorem get8_set8_self (regs : Registers) (r : Reg8) (value : UInt8) :
    (regs.set8 r value).get8 r = value := by
  cases r <;> rfl

/-- Every word register but AF gives back what was written to it. -/
theorem get16_set16_self (regs : Registers) {r : Reg16} (value : UInt16) (h : r ≠ .af) :
    (regs.set16 r value).get16 r = value := by
  cases r <;> simp_all [get16, set16]

/-- AF gives back what was written to it, with the low nibble cleared. -/
theorem get16_set16_af (regs : Registers) (value : UInt16) :
    (regs.set16 .af value).get16 .af = Word.join (Word.high value) (Word.low value &&& 0xF0) := by
  simp [get16, set16, Flags.toByte_ofByte]

end Registers

end Sm83
