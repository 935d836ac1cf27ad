import BlockGraph.Logged

namespace BlockGraph

structure Builder where
  graph : Graph := {}
  diagnostics : List Diagnostic := []
  returnLayouts : OrderedMap ValueType LayoutId := ∅

abbrev BuildM := StateT Builder Logged

namespace Builder

def tell (e : Event) : BuildM Unit := Logged.tell e

def report (d : Diagnostic) : BuildM Unit := do
  tell (.reported d)
  modify fun s => { s with diagnostics := s.diagnostics ++ [d] }

def block (b : BlockId) : BuildM Block := do
  (← get).graph.block b

def layout (l : LayoutId) : BuildM Layout := do
  (← get).graph.layout l

def modifyBlock (b : BlockId) (f : Block → Block) : BuildM Unit := do
  let _ ← block b
  modify fun s => { s with graph := s.graph.modifyBlock b f }

def locals (b : BlockId) : BuildM Locals :=
  return (← block b).locals

def setLocals (b : BlockId) (l : Locals) : BuildM Unit :=
  modifyBlock b ({ · with locals := l })

def addBlock (parameters : List Parameter) : BuildM BlockId := do
  let id : BlockId := ⟨(← get).graph.blocks.length⟩
  tell (.blockAdded id parameters.length)
  modify fun s => { s with graph.blocks := s.graph.blocks ++ [{ id, parameters }] }
  return id

def typeOf (b : BlockId) (r : Register) : BuildM ValueType := do
  (← block b).typeOf r

def lastRegister (b : BlockId) : BuildM Register := do
  match (← block b).lastRegister? with
  | some r => return r
  | none => throw (.noSuchRegister b ⟨0⟩)

def emit (b : BlockId) (operation : Operation) (type : ValueType) : BuildM Register := do
  let target ← block b
  if target.isTerminated then throw (.terminated b)
  match operation.operands.find? fun r => !target.contains r with
  | some r => throw (.noSuchRegister b r)
  | none =>
    let r : Register := ⟨target.registerCount⟩
    tell (.emitted b r ⟨operation, type⟩)
    modifyBlock b fun t => { t with instructions := t.instructions ++ [⟨operation, type⟩] }
    return r

def emitRef (b target : BlockId) : BuildM Register := do
  let parameters := (← block target).parameterTypes
  emit b (.blockRef target) (.blockRef parameters)

def copy (b : BlockId) (r : Register) : BuildM Register := do
  let type ← typeOf b r
  emit b (.copy r) type

def define (b : BlockId) (name : String) (s : Symbol) : BuildM Unit := do
  let l ← locals b
  let symbols ← l.symbols.define name s
  setLocals b { l with symbols }

def rebind (b : BlockId) (name : String) (r : Register) : BuildM Unit := do
  let l ← locals b
  let symbols ← l.symbols.rebind name r
  setLocals b { l with symbols }

def push (b : BlockId) (r : Register) : BuildM Unit := do
  let target ← block b
  if !target.contains r then throw (.noSuchRegister b r)
  setLocals b { target.locals with stack := target.locals.stack ++ [r] }

def pushLast (b : BlockId) : BuildM Unit := do
  push b (← lastRegister b)

/-- Take the newest operands off the stack, in the order they were pushed. To take none, no block is
needed. -/
def popMany (b : BlockId) (count : Nat) : BuildM (List Register) := do
  if count = 0 then return []
  let l ← locals b
  if l.stack.length < count then throw (.emptyStack b)
  let rest := l.stack.length - count
  setLocals b { l with stack := l.stack.take rest }
  return l.stack.drop rest

def pop (b : BlockId) : BuildM Register := do
  match ← popMany b 1 with
  | [r] => return r
  | _ => throw (.emptyStack b)

def peek (b : BlockId) (depth : Nat) : BuildM Register := do
  match (← locals b).stack.reverse[depth]? with
  | some r => return r
  | none => throw (.emptyStack b)

end Builder

end BlockGraph
