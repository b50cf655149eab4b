import Sm83.Conformance.Corpus

/-!
# The conformance command

Runs the built-in cases and prints how many passed, or every failure.
-/

open Sm83.Conformance

def main : IO UInt32 := do
  match runAll Corpus.all with
  | .ok passed =>
      IO.println s!"{passed} conformance cases passed"
      return 0
  | .error batch =>
      IO.eprintln s!"Error: {batch.message}"
      return 1
