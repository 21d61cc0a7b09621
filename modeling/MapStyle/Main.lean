/-
The command line.
-/
import MapStyle.CommandLine.Run

/-- Runs a command and prints what comes of it. -/
def main (args : List String) : IO UInt32 := do
  let ending := MapStyle.CommandLine.run args
  IO.print ending.output
  for line in ending.errors do
    IO.eprintln line
  pure (UInt32.ofNat ending.code)
