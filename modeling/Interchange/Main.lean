import Interchange.CommandLine
/-!
# The program

The arguments and the whole standard input make a run; its texts and its code go out.
-/
open Interchange

def main (args : List String) : IO UInt32 := do
  let input ← if args.length = 2 then (← IO.getStdin).readBinToEnd else pure ByteArray.empty
  let run := CommandLine.run args input.toList
  IO.print run.output
  IO.eprint run.errors
  return run.code.toUInt32
