import BlockGraph.CommandLine.Options
import BlockGraph.Graph.Copies
import BlockGraph.Graph.Listing
import BlockGraph.Lowering.Program
import BlockGraph.Sample

namespace BlockGraph.CommandLine

structure Outcome where
  exit : Nat := 0
  output : String := ""
  error : Option String := none
  log : List Event := []

def shownRank (verbose : Nat) : Nat := min (verbose + 1) Level.trace.rank

def Outcome.errorOutput (o : Outcome) (verbose : Nat) : String :=
  let shown := o.log.filter fun e => e.level.rank ≤ shownRank verbose
  Text.unlines (shown.map fun e => e.level.text ++ " - " ++ e.message) ++
    o.error.elim "" fun e => "Error: " ++ e ++ "\n"

def sampleList : String :=
  Text.unlines (Sample.all.map fun s => Text.padRight 10 s.name ++ " " ++ s.description)

def buildSample (s : Sample) (optimise verify : Bool) : Logged (Except String String) := do
  let lowered ← s.program.lower
  lowered.functions.forM fun (id, f) => Logged.tell (.functionBuilt id f.name f.entry f.returns)
  let graph ←
    if optimise then Prod.fst <$> lowered.graph.propagateCopies else pure lowered.graph
  let violations := if verify then graph.violations lowered.entries else []
  violations.forM fun v => Logged.tell (.violation v)
  if violations.isEmpty then
    return .ok (← graph.text)
  else
    return .error ("Block graph of '" ++ s.name ++ "' failed verification with " ++
      toString violations.length ++ " error(s)")

def Task.run : Task → Outcome
  | .list => { output := sampleList }
  | .build name optimise verify =>
    match Sample.find? name with
    | none => { exit := 1, error := some (Sample.unknown name) }
    | some s =>
      let built := buildSample s optimise verify
      match built.result with
      | .ok (.ok output) => { output, log := built.log }
      | .ok (.error e) => { exit := 1, error := some e, log := built.log }
      | .error _ => { exit := 101, log := built.log }

end BlockGraph.CommandLine
