import BlockGraph.Graph.Basic

/-!
A graph as text: every layout, then every block with its instructions and its way out.

    S0 { func(S0) }
    B0(S0 $0, u8 $1):
      $2 bool := $1 cmp lt $1
      $3 func(S0) := load $0->0
      goto $3(S0 $0)
-/

namespace BlockGraph

def Layout.line (l : Layout) (id : LayoutId) : String :=
  id.text ++ " \x7b " ++ ValueType.listText l.fields ++ " \x7d"

def Instruction.line (i : Instruction) (r : Register) : String :=
  if i.type.isVoid then "  " ++ i.operation.text
  else "  " ++ r.text ++ " " ++ i.type.text ++ " := " ++ i.operation.text

namespace Block

def header (b : Block) : String :=
  let parameters := b.parameters.zipIdx.map fun (p, n) =>
    p.type.text ++ " " ++ (Register.mk n).text
  b.id.text ++ "(" ++ Text.commaSep parameters ++ "):"

def edgeText (b : Block) (e : Edge) : Except Fault String := do
  let arguments ← e.arguments.mapM fun r => return (← b.typeOf r).text ++ " " ++ r.text
  return e.target.text ++ "(" ++ Text.commaSep arguments ++ ")"

def terminatorLine (b : Block) : Terminator → Except Fault String
  | .goto e => return "  goto " ++ (← b.edgeText e)
  | .branch c t f =>
    return "  branch " ++ c.text ++ " -> T " ++ (← b.edgeText t) ++ " F " ++ (← b.edgeText f)

def endLines (b : Block) : Except Fault (List String) :=
  match b.terminator with
  | some t => return [← b.terminatorLine t]
  | none => return if b.isFinal then ["  exit"] else []

def lines (b : Block) : Except Fault (List String) :=
  let instructions := b.instructions.zipIdx.map fun (i, n) => i.line ⟨b.parameters.length + n⟩
  return b.header :: (instructions ++ (← b.endLines))

end Block

def Graph.lines (g : Graph) : Except Fault (List String) := do
  let blocks ← g.blocks.mapM Block.lines
  return (g.layouts.zipIdx.map fun (l, n) => l.line ⟨n⟩) ++ blocks.flatten

def Graph.text (g : Graph) : Except Fault String := return Text.unlines (← g.lines)

end BlockGraph
