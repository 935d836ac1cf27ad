import BlockGraph.Builder.Child
import BlockGraph.Builder.Layout
import BlockGraph.Source.Program
import Std.Data.TreeMap

namespace BlockGraph

structure FunctionEntry where
  name : String
  entry : BlockId
  returns : LayoutId

namespace Lowering

structure Frame where
  name : String
  result : ValueType

/-- Where the jumps of a loop go. -/
inductive LoopTargets where
  | known (test exit : BlockId)
  | queued (leaving repeating : List BlockId)

structure LoopFrame where
  label : Option String
  targets : LoopTargets

structure State extends Builder where
  functions : Std.TreeMap Nat FunctionEntry := ∅
  classes : Std.TreeMap Nat LayoutId := ∅
  loops : List LoopFrame := []

end Lowering

abbrev LowerM := StateT Lowering.State Logged

instance : MonadLift BuildM LowerM where
  monadLift x := fun s => do
    let (a, toBuilder) ← x s.toBuilder
    return (a, { s with toBuilder })

namespace Lowering

open Builder

def classLayout (c : ClassId) : LowerM LayoutId := do
  match (← get).classes[c.index]? with
  | some l => return l
  | none => throw (.unknownClass c)

def functionEntry (f : FunctionId) : LowerM FunctionEntry := do
  match (← get).functions[f.index]? with
  | some e => return e
  | none => throw (.unknownFunction f)

mutual

/-- The type of a value in the graph. A function becomes a reference to its entry block, whose first
parameter is the object to return through. -/
def lowerType : SourceType → LowerM ValueType
  | .prim p => return .prim p
  | .object c => return .object (← classLayout c)
  | .array element => return .array (← lowerType element)
  | .function result parameters => do
    let result ← lowerType result
    let returns ← returnLayout result
    return .blockRef (.object returns :: (← lowerTypes parameters))

def lowerTypes : List SourceType → LowerM (List ValueType)
  | [] => return []
  | t :: ts => return (← lowerType t) :: (← lowerTypes ts)

end

end Lowering

end BlockGraph
