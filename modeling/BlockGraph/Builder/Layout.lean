import BlockGraph.Builder.Basic

namespace BlockGraph.Builder

def nextLayout : BuildM LayoutId :=
  return ⟨(← get).graph.layouts.length⟩

def addLayout (l : Layout) : BuildM LayoutId := do
  let id ← nextLayout
  tell (.layoutAdded id l.origin)
  modify fun s => { s with graph.layouts := s.graph.layouts ++ [l] }
  return id

def continuation (id : LayoutId) (result : ValueType) : List ValueType :=
  .object id :: if result.isVoid then [] else [result]

/-- The layout that functions with the given result return through: one field, for the continuation.
There is one for each type of result. -/
def returnLayout (result : ValueType) : BuildM LayoutId := do
  match (← get).returnLayouts.get? result with
  | some id => return id
  | none =>
    let id ← nextLayout
    let id ← addLayout ⟨[.blockRef (continuation id result)], .ofReturn⟩
    modify fun s =>
      match s.returnLayouts.insertNew result id with
      | .ok returnLayouts => { s with returnLayouts }
      | .error _ => s
    return id

def declareClass (name : String) : BuildM LayoutId :=
  addLayout ⟨[], .ofClass name⟩

def defineClass (id : LayoutId) (fields : List ValueType) : BuildM Unit := do
  tell (.layoutDefined id fields)
  let _ ← layout id
  modify fun s => { s with graph := s.graph.modifyLayout id ({ · with fields }) }

def contextLayout (fields : List ValueType) : BuildM LayoutId :=
  addLayout ⟨fields, .ofContext⟩

end BlockGraph.Builder
