import BlockGraph.CommandLine.Run

namespace BlockGraph.CommandLine

def usage : String :=
  "Builds continuation-passing block graphs from analyzed programs\n\n" ++
  "  [-v LEVEL] list\n" ++
  "  [-v LEVEL] build [--no-optimise] [--no-verify] SAMPLE\n"

end BlockGraph.CommandLine

open BlockGraph.CommandLine

def main (args : List String) : IO UInt32 := do
  match Options.parse args with
  | .error .help =>
    IO.print usage
    return 0
  | .error _ =>
    IO.eprint usage
    return 2
  | .ok options =>
    let outcome := options.task.run
    IO.print outcome.output
    IO.eprint (outcome.errorOutput options.verbose)
    return outcome.exit.toUInt32
