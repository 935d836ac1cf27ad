import BlockGraph.Builder.Basic

namespace BlockGraph

/-- What `source` passes for the parameters of `target`, in their order. -/
def Signature.arguments (s : Signature) (l : Locals) (source target : BlockId) :
    Except Fault (List Register) := do
  let slot ← match s.acceptsReturn, l.returnSlot with
    | false, _ => pure []
    | true, some r => pure [r]
    | true, none => throw (.missingReturnSlot source)
  let carried ← s.carried.mapM fun name =>
    match l.symbols.register? name with
    | some r => pure r
    | none => throw (.shapeMismatch target source)
  if l.stack.length ≠ s.stackDepth then throw (.shapeMismatch target source)
  return slot ++ carried ++ l.stack

def Block.checkEdge (b : Block) (e : Edge) : Except Fault Unit := do
  match ← b.typeOf e.target with
  | .blockRef expected =>
    let found ← e.arguments.mapM b.typeOf
    if expected ≠ found then
      throw (.edgeMismatch b.id (ValueType.listText expected) (ValueType.listText found))
  | other => throw (.notCallable other)

namespace Builder

def edge (source target : BlockId) : BuildM Edge := do
  let signature := (← block target).signature
  let arguments ← signature.arguments (← locals source) source target
  let e : Edge := ⟨← emitRef source target, arguments⟩
  (← block source).checkEdge e
  return e

def terminate (b : BlockId) (t : Terminator) : BuildM Unit := do
  if (← block b).isTerminated then throw (.terminated b)
  tell (.terminated b)
  modifyBlock b ({ · with terminator := some t })

def jump (source target : BlockId) : BuildM Unit := do
  terminate source (.goto (← edge source target))

def goto (b : BlockId) (e : Edge) : BuildM Unit := do
  (← block b).checkEdge e
  terminate b (.goto e)

def branchTo (b : BlockId) (condition : Register) (onTrue onFalse : BlockId) : BuildM Unit := do
  let t ← edge b onTrue
  let f ← edge b onFalse
  terminate b (.branch condition t f)

def finish (b : BlockId) : BuildM Unit := do
  if (← block b).isTerminated then throw (.terminated b)
  tell (.finished b)
  modifyBlock b ({ · with isFinal := true })

end Builder

end BlockGraph
