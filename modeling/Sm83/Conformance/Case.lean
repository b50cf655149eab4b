import Sm83.Conformance.Field
import Sm83.Run

/-!
# Conformance cases

A case loads one instruction into an otherwise zero machine, puts its presets in place, lets the
core take one step and looks for its expectations. Unless an expectation names PC, PC has to end up
right behind the instruction. A batch runs all of its cases and reports every failure.
-/

namespace Sm83.Conformance

/-- Where a case is loaded unless it says otherwise: clear of the low addresses that cases use for
their data. -/
def defaultOrigin : UInt16 := 0x0100

/-- One instruction with the state before and after it. -/
structure Case where
  name : String
  opcode : List UInt8
  extra : List UInt8 := []
  /-- Put in place in order, so of two that touch the same piece of state the later one wins. -/
  presets : List Field := []
  expectations : List Field := []
  origin : UInt16 := defaultOrigin

inductive Cause where
  | fault (fault : Fault)
  | halted
  | stopped
  | mismatches (entry : Entry) (found : List Mismatch)
  deriving DecidableEq

structure Failure where
  name : String
  cause : Cause
  deriving DecidableEq

def Failure.message (failure : Failure) : String :=
  "case `" ++ failure.name ++ "`" ++
    match failure.cause with
    | .fault fault => ": " ++ fault.message
    | .halted => ": nothing executed (Halted)"
    | .stopped => ": nothing executed (Stopped)"
    | .mismatches entry found =>
        " (" ++ entry.text ++ "): " ++ "; ".intercalate (found.map Mismatch.text)

namespace Case

def start (case : Case) : Machine :=
  let loaded : Machine :=
    { cpu := { regs := { pc := case.origin } }
      memory := Memory.zero.load case.origin (case.opcode ++ case.extra) }
  case.presets.foldl (fun machine field => field.apply machine) loaded

/-- The misplaced PC after an instruction of the given size, where no expectation names PC. -/
def checkPc (case : Case) (size : Nat) (machine : Machine) : List Mismatch :=
  let expected := case.origin + size.toUInt16
  let actual := machine.cpu.regs.pc
  if case.expectations.any Field.namesPc || actual = expected then []
  else [.reg16 .pc expected actual]

/-- Everything that is not as expected after an instruction of the given size: first the
expectations in their order, then PC. -/
def mismatches (case : Case) (size : Nat) (machine : Machine) : List Mismatch :=
  case.expectations.filterMap (·.check machine) ++ case.checkPc size machine

def run (case : Case) : Except Failure Unit :=
  let start := case.start
  let ((outcome, cpu), memory) := start.cpu.step.run start.memory
  let fail cause := .error { name := case.name, cause }
  match outcome with
  | .fault fault => fail (.fault fault)
  | .halted => fail .halted
  | .stopped => fail .stopped
  | .executed entry =>
      match case.mismatches entry.size { cpu, memory } with
      | [] => .ok ()
      | found => fail (.mismatches entry found)

def failure? (case : Case) : Option Failure :=
  match case.run with
  | .ok () => none
  | .error failure => some failure

end Case

structure BatchFailure where
  total : Nat
  failures : List Failure

def BatchFailure.message (batch : BatchFailure) : String :=
  toString batch.failures.length ++ " of " ++ toString batch.total ++ " cases failed:\n  " ++
    "\n  ".intercalate (batch.failures.map Failure.message)

/-- Runs every case and gives their number if none fails. -/
def runAll (cases : List Case) : Except BatchFailure Nat :=
  match cases.filterMap Case.failure? with
  | [] => .ok cases.length
  | failures => .error { total := cases.length, failures }

end Sm83.Conformance
