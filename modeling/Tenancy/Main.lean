import Tenancy.CommandLine

/-!
The program: greets in a new world and prints what comes of it.
-/

def main (words : List String) : IO UInt32 := do
  let report := Tenancy.CommandLine.run words
  IO.print report.out
  IO.eprint report.err
  return report.code.toUInt32
