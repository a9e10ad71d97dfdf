import ParserKit.CommandLine

/-!
# The program

Prints what the command line asks for.
-/

namespace ParserKit.CommandLine

/-- Responds to arguments that `understand` reads. -/
def run [Text.Visibility] (understand : List String → Except Report Settings)
    (args : List String) : IO UInt32 := do
  let report := respond understand args
  IO.print report.output
  IO.eprint report.errors
  return UInt32.ofNat report.code

end ParserKit.CommandLine
