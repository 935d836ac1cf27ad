import BlockGraph.Lowering.Basic

/-!
Calls. A call is a jump that never comes back by itself: the live values of the caller are packed
into an object on the heap, whose first field refers to the block where the caller goes on, and the
callee jumps to that block.
-/

namespace BlockGraph.Lowering

open Builder

def storeContinuation (b : BlockId) (object : Register) (resume : BlockId) : BuildM Unit := do
  let target ← emitRef b resume
  let _ ← emit b (.setField object 0 target) (.prim .void)

def storeFields (b : BlockId) (object : Register) : Nat → List Register → BuildM Unit
  | _, [] => return ()
  | n, v :: vs => do
    let _ ← emit b (.setField object n v) (.prim .void)
    storeFields b object (n + 1) vs

def loadFields (b : BlockId) (object : Register) : Nat → List ValueType → BuildM (List Register)
  | _, [] => return []
  | n, t :: ts => do
    let r ← emit b (.getField object n) t
    return r :: (← loadFields b object (n + 1) ts)

def nextLoaded (resume : BlockId) (r : Register) :
    StateT (List Register) (Except Fault) Register := do
  match ← get with
  | [] => throw (.noSuchRegister resume r)
  | loaded :: rest =>
    set rest
    return loaded

/-- Make the context that is passed to the callee, and unpack it again in `resume`. The context is
typed as the layout that the callee returns through.

Without live values an object of that layout is enough. Otherwise a layout of its own holds the
continuation, then the live values in their order. -/
def packContext (b resume : BlockId) (returns : LayoutId) : BuildM Register := do
  let live ← locals b
  match live.liveRegisters with
  | [] =>
    let object ← emit b (.new returns) (.object returns)
    storeContinuation b object resume
    setLocals resume live
    return object
  | captured =>
    let continuation := ValueType.blockRef (← block resume).parameterTypes
    let types ← captured.mapM (typeOf b)
    let layout ← contextLayout (continuation :: types)
    tell (.captured b captured.length layout)
    let object ← emit b (.new layout) (.object layout)
    storeContinuation b object resume
    storeFields b object 1 captured
    let context ← emit b (.cast .upcast object) (.object returns)
    let resumed ← emit resume (.cast .downcast ⟨0⟩) (.object layout)
    let loaded ← loadFields resume resumed 1 types
    let (unpacked, _) ← (live.mapM (nextLoaded resume)).run loaded
    setLocals resume unpacked
    return context

def returnsThrough : ValueType → Except Fault LayoutId
  | .blockRef (.object l :: _) => .ok l
  | t => .error (.notCallable t)

/-- Call the operand below the newest `count` ones with those as arguments. The result is the last
register of the block where the caller goes on. -/
def lowerCall (b : BlockId) (count : Nat) (result : SourceType) : LowerM BlockId := do
  let arguments ← popMany b count
  let callee ← pop b
  let returns ← returnsThrough (← typeOf b callee)
  let result ← lowerType result
  let resume ← addBlock ((continuation returns result).map (⟨·, none⟩))
  let context ← packContext b resume returns
  goto b ⟨callee, context :: arguments⟩
  if !result.isVoid && (← lastRegister resume) ≠ ⟨1⟩ then
    let _ ← copy resume ⟨1⟩
  return resume

end BlockGraph.Lowering
