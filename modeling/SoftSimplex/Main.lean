import SoftSimplex.CommandLine

/-!
# The program

Prints the outcome of the command line.
-/

open SoftSimplex

def main (args : List String) : IO UInt32 := do
  let outcome := Command.runArguments args
  IO.print outcome.output
  match outcome with
  | .refused => IO.eprintln "usage: chain [OPTIONS] | resize [OPTIONS]"
  | _ => (outcome.errorLine?).forM IO.eprintln
  return outcome.exitCode.toUInt32
