import BlockGraph.Lowering.Loop

namespace BlockGraph.Lowering

open Builder

def clauseType (type : Option ValueType) (c : Clause) : LowerM ValueType :=
  match type, c.value with
  | some t, _ => return t
  | none, some value => lowerType value.type
  | none, none => throw (.uninitializedSymbol c.name)

def lowerClauses (type : Option ValueType) (b : BlockId) : List Clause → LowerM BlockId
  | [] => return b
  | c :: rest => do
    let (b, register) ← match c.value with
      | some value =>
        let b ← lowerExpr b value
        pure (b, some (← (lastRegister b : BuildM _)))
      | none => pure (b, none)
    let t ← clauseType type c
    tell (.symbolDefined c.name t b)
    define b c.name ⟨t, register⟩
    lowerClauses type b rest

def lowerReturnValue (result : ValueType) (b : BlockId) :
    Option Expr → LowerM (BlockId × Option Register)
  | some value => do
    if result.isVoid then throw (.returnMismatch result)
    let b ← lowerExpr b value
    return (b, some (← (lastRegister b : BuildM _)))
  | none => do
    if !result.isVoid then throw (.returnMismatch result)
    return (b, none)

def continuationType (t : ValueType) : BuildM ValueType := do
  match t with
  | .object id =>
    match (← layout id).fields with
    | first :: _ => return first
    | [] => throw (.noSuchLayout id)
  | t => throw (.notAnObject t)

/-- Jump to the continuation in the return slot, with the slot itself and the value. -/
def lowerReturn (frame : Option Frame) (b : BlockId) (value : Option Expr) : LowerM Unit := do
  match frame with
  | none => throw .returnOutsideFunction
  | some ⟨name, result⟩ =>
    let (b, value) ← lowerReturnValue result b value
    match (← locals b).returnSlot with
    | none => throw (.missingReturnSlot b)
    | some slot =>
      let type ← continuationType (← typeOf b slot)
      let target ← emit b (.getField slot 0) type
      tell (.returned name b)
      goto b ⟨target, slot :: value.toList⟩

def declare (c : ClassDecl) : LowerM Unit := do
  let id ← declareClass c.name
  modify fun s => { s with classes := s.classes.insert c.id.index id }

def defineFields (c : ClassDecl) : LowerM Unit := do
  let fields ← lowerTypes (c.fields.map (·.type))
  defineClass (← classLayout c.id) fields

def defineParameters (entry : BlockId) : Nat → List Parameter → BuildM Unit
  | _, [] => return ()
  | n, p :: rest => do
    if let some name := p.name then define entry name ⟨p.type, some ⟨n⟩⟩
    defineParameters entry (n + 1) rest

def declareFunction (f : FunctionDecl) : LowerM Unit := do
  let returns ← returnLayout (← lowerType f.result)
  let types ← lowerTypes (f.parameters.map (·.type))
  let slot : Parameter := ⟨.object returns, none⟩
  let parameters := f.parameters.zipWith (fun p t => Parameter.mk t (some p.name)) types
  let entry ← addBlock (slot :: parameters)
  setLocals entry { returnSlot := some ⟨0⟩ }
  defineParameters entry 1 parameters
  tell (.functionDeclared f.name entry)
  modify fun s =>
    { s with functions := s.functions.insert f.id.index { name := f.name, entry, returns } }

end BlockGraph.Lowering
