import BlockGraph.Builder.Edge

/-!
New blocks that continue others. The parameters of such a block carry the live values of the blocks
before it: names, types and the return slot come from a `context` block, the operand stack from the
predecessors, which agree on its depth. A variable has a value in the new block only if it has one in
every predecessor.
-/

namespace BlockGraph

def Locals.holds (l : Locals) (name : String) : Bool :=
  (l.symbols.register? name).isSome

def numberFrom (held : String → Bool) : Nat → List (String × Symbol) → List Symbol
  | _, [] => []
  | n, (name, s) :: rest =>
    if held name then { s with register := some ⟨n⟩ } :: numberFrom held (n + 1) rest
    else { s with register := none } :: numberFrom held n rest

structure Inflow where
  slot : Option ValueType
  symbols : SymbolTable
  held : String → Bool
  stack : List ValueType

namespace Inflow

def carried (i : Inflow) : List (String × Symbol) :=
  i.symbols.entries.filter fun e => i.held e.1

def parameters (i : Inflow) : List Parameter :=
  i.slot.toList.map (⟨·, none⟩) ++ i.carried.map (fun e => ⟨e.2.type, some e.1⟩) ++
    i.stack.map (⟨·, none⟩)

def signature (i : Inflow) : Signature where
  acceptsReturn := i.slot.isSome
  carried := i.carried.map Prod.fst
  stackDepth := i.stack.length

def locals (i : Inflow) : Locals where
  returnSlot := i.slot.map fun _ => ⟨0⟩
  symbols := i.symbols.withValues (numberFrom i.held i.slot.toList.length i.symbols.entries)
  stack :=
    let first := i.slot.toList.length + i.carried.length
    (List.range i.stack.length).map fun n => ⟨first + n⟩

end Inflow

namespace Builder

def inflowFrom (first : BlockId) (depth : Nat) (pred : BlockId) : BuildM Locals := do
  let l ← locals pred
  if l.stack.length ≠ depth then throw (.shapeMismatch first pred)
  return l

/-- A new block after the predecessors, with the variables of `context`. A variable that has a value
in some predecessors only is reported. -/
def newChild (context : BlockId) (preds : List BlockId) : BuildM BlockId := do
  match preds with
  | [] => throw (.shapeMismatch context context)
  | first :: _ =>
    let depth := (← locals first).stack.length
    let before ← preds.mapM (inflowFrom first depth)
    let context ← block context
    let source ← block first
    let slot ← context.locals.returnSlot.mapM fun r => (context.typeOf r : Except Fault _)
    let stack ← source.locals.stack.mapM fun r => (source.typeOf r : Except Fault _)
    let symbols := context.locals.symbols
    let inflow : Inflow := { slot, symbols, held := fun n => before.all (·.holds n), stack }
    let lost := symbols.keys.filter fun n => before.any (·.holds n) && !inflow.held n
    lost.forM fun n => report (.lossOfValue n)
    let child ← addBlock inflow.parameters
    modifyBlock child ({ · with signature := inflow.signature, locals := inflow.locals })
    return child

def enter (parent : BlockId) : BuildM BlockId := do
  let child ← newChild parent [parent]
  jump parent child
  return child

def leave (context inner : BlockId) : BuildM BlockId := do
  let child ← newChild context [inner]
  jump inner child
  return child

def branch (parent : BlockId) (condition : Register) : BuildM (BlockId × BlockId) := do
  let onTrue ← newChild parent [parent]
  let onFalse ← newChild parent [parent]
  branchTo parent condition onTrue onFalse
  return (onTrue, onFalse)

def converge (context : BlockId) (preds : List BlockId) : BuildM BlockId := do
  let child ← newChild context preds
  preds.forM (jump · child)
  return child

/-- End `tested` with a branch, whose false side is shared with the predecessors. -/
def convergeBranch (context : BlockId) (preds : List BlockId) (tested : BlockId)
    (condition : Register) : BuildM (BlockId × BlockId) := do
  let onTrue ← newChild context [tested]
  let onFalse ← newChild context (tested :: preds)
  preds.forM (jump · onFalse)
  branchTo tested condition onTrue onFalse
  return (onTrue, onFalse)

def merge (context first second : BlockId) : BuildM BlockId :=
  converge context [first, second]

end Builder

end BlockGraph
